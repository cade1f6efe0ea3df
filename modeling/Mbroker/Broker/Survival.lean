import Mbroker.Broker.Boxes
import Mbroker.Broker.Dispatch

/-!
# What the handlers come to

`newRequest` copies the session pipe's name, and all responses are made with NULL for
it: no handler ever writes a response.  From `head == NULL`, as it is at the start and
ever after, no handler returns with the server running.

    survives_iff : the broker survives a sequence of requests exactly if it is empty
    inStep_iff : boxes and files stay in step, with a true answer to each request,
      exactly if there is no request
-/

namespace Mbroker

open CLib Outcome

/-! ## One call -/

section
variable {fuel : Nat} {s s' : Server} {request : Region UInt8} {boxName : Nat}

theorem codeRPub_null (hhead : s.head = none) : codeRPub fuel s request boxName =
    if s.session.fifo = -1 then .done (ok s.stop) else .done fault := by
  unfold codeRPub
  split
  · rfl
  · simp [Server.openSession, hhead, findBox]

theorem codeRSub_null (hhead : s.head = none) : codeRSub fuel s request boxName =
    if s.session.fifo = -1 then .done (ok s.stop) else .done fault := by
  unfold codeRSub subscribe
  split
  · rfl
  · simp [Server.openSession, hhead, findBox]

/-- A create request is answered by nothing, in whatever state. -/
theorem codeCBox_ok (h : codeCBox fuel s request boxName = .done (ok s')) :
    s.session.fifo = -1 ∧ s' = s.stop := by
  unfold codeCBox at h
  split at h
  · next hfifo =>
    cases h
    exact ⟨hfifo, rfl⟩
  · exfalso
    simp only [messageRequest_fault, Bounded.lift_eq, Bounded.fault_bind] at h
    obtain ⟨found, -, h⟩ := Bounded.bind_eq_ok.mp h
    cases found with
    | some p => simp [Bounded.bind_eq_ok] at h
    | none =>
      obtain ⟨name, -, h⟩ := Bounded.bind_eq_ok.mp h
      obtain ⟨⟨boxHandle, tfs⟩, -, h⟩ := Bounded.bind_eq_ok.mp h
      obtain ⟨⟨closeRet, tfs'⟩, -, h⟩ := Bounded.bind_eq_ok.mp h
      simp only at h
      split at h
      · simp [Bounded.bind_eq_ok] at h
      · simp [Bounded.bind_eq_ok] at h

/-- So is a remove request. -/
theorem codeRBox_ok (h : codeRBox fuel s request boxName = .done (ok s')) :
    s.session.fifo = -1 ∧ s' = s.stop := by
  unfold codeRBox at h
  split at h
  · next hfifo =>
    cases h
    exact ⟨hfifo, rfl⟩
  · exfalso
    simp only [messageRequest_fault, Bounded.lift_eq, Bounded.fault_bind] at h
    obtain ⟨found, -, h⟩ := Bounded.bind_eq_ok.mp h
    cases found with
    | none => simp [Bounded.bind_eq_ok] at h
    | some p =>
      obtain ⟨name, -, h⟩ := Bounded.bind_eq_ok.mp h
      obtain ⟨⟨ret, tfs⟩, -, h⟩ := Bounded.bind_eq_ok.mp h
      simp only at h
      split at h
      · simp [Bounded.bind_eq_ok] at h
      · simp [Bounded.bind_eq_ok] at h

/-- The first round of the loop over the list does not end. -/
theorem listStep_box {message : Region UInt8} {p : Nat} {last : UInt8}
    {r : (Server × Option Nat × UInt8) ⊕ (Bool × Server)} :
    listStep message (s, some p, last) ≠ ok r := by
  intro h
  obtain ⟨node, -, h⟩ := (bind_eq_ok _ _ _).mp h
  obtain ⟨nodes, -, h⟩ := (bind_eq_ok _ _ _).mp h
  rw [newRequest_noPipe, fault_bind] at h
  cases h

/-- A list request is answered by nothing: with `*head == NULL` because the loop is not entered. -/
theorem codeLBox_ok (h : codeLBox fuel s = .done (ok s')) :
    s.session.fifo = -1 ∧ s' = s.stop ∨
    s.session.fifo ≠ -1 ∧ s.head = some none ∧ s' = s.openSession.closeSession := by
  unfold codeLBox at h
  split at h
  · next hfifo =>
    cases h
    exact Or.inl ⟨hfifo, rfl⟩
  · next hfifo =>
    right
    have hhead : s.openSession.head = s.head := rfl
    simp only [hhead] at h
    cases hfirst : s.head with
    | none =>
      exfalso
      simp only [hfirst, newRequest_noPipe, Bounded.lift_eq, Bounded.fault_bind] at h
      simp [Bounded.bind_eq_ok] at h
    | some first =>
      simp only [hfirst] at h
      obtain ⟨⟨ended, s₁⟩, hloop, h⟩ := Bounded.bind_eq_ok.mp h
      cases first with
      | none =>
        -- the loop is not entered
        rcases loop_first hloop with ⟨k, -, ⟨st, hstep, -⟩ | hstep⟩
        · cases hstep
        · cases hstep
          cases h
          exact ⟨hfifo, rfl, rfl⟩
      | some p =>
        obtain ⟨r, hstep⟩ := loop_round hloop
        exact (listStep_box hstep).elim

end

/-! ## Sequences of requests -/

/-- A request on the register pipe, and what happens in its session. -/
structure Visit where
  request : RawRequest
  session : Session

def Server.handle (fuel : Nat) (s : Server) (v : Visit) : Bounded Server :=
  selector (serverHandlers fuel) { s with session := v.session } v.request.code v.request.memory

/-- Every request is handled, and the server runs on. -/
def Survives (s : Server) : List Visit → Prop
  | [] => True
  | v :: visits => ∃ fuel s', s.handle fuel v = .done (ok s') ∧ s'.serverRunning = true ∧
      Survives s' visits

/-- From `head == NULL` no request leaves the server running. -/
theorem handle_stops {fuel : Nat} {s s' : Server} {v : Visit} (hhead : s.head = none)
    (h : s.handle fuel v = .done (ok s')) : s'.serverRunning = false := by
  have hhead : { s with session := v.session }.head = none := hhead
  rcases selector_ok h with ⟨-, h⟩ | ⟨-, h⟩ | ⟨-, h⟩ | ⟨-, h⟩ | ⟨-, h⟩ | ⟨-, rfl⟩
  · simp only [serverHandlers, codeRPub_null hhead] at h
    split at h
    · cases h
      rfl
    · cases h
  · simp only [serverHandlers, codeRSub_null hhead] at h
    split at h
    · cases h
      rfl
    · cases h
  · rw [(codeCBox_ok h).2]
    rfl
  · rw [(codeRBox_ok h).2]
    rfl
  · rcases codeLBox_ok h with ⟨-, rfl⟩ | ⟨-, hsome, -⟩
    · rfl
    · rw [hhead] at hsome
      cases hsome
  · rfl

/-- The broker survives the requests exactly if there are none. -/
theorem survives_iff (tfs : Tfs) (visits : List Visit) :
    Survives (Server.start tfs) visits ↔ visits = [] := by
  constructor
  · intro h
    cases visits with
    | nil => rfl
    | cons v visits =>
      obtain ⟨fuel, s', hhandle, hrunning, -⟩ := h
      rw [handle_stops rfl hhandle] at hrunning
      cases hrunning
  · rintro rfl
    trivial

/-- A request as a client means it, in a session whose pipe can be opened and written. -/
structure WellFormed (v : Visit) : Prop where
  code : v.request.code ∈ [Codes.rPub, .rSub, .cBox, .rBox, .lBox].map Codes.val
  pipe : ∃ name, HasString v.request.memory atSessionPipe name ∧ name.strlen < maxPipeName
  box : ∃ name, HasString v.request.memory atBoxName name ∧ name.strlen < maxBoxName
  opened : v.session.fifo ≠ -1
  writable : ∀ n, 0 ≤ v.session.writes n

/-- `manager … p create /a`. -/
def createVisit : Visit where
  request := fun i =>
    if i.val = 0 then 3 else if i.val = 1 then 112 else if i.val = 258 then 47
    else if i.val = 259 then 97 else 0
  session := { Session.idle with fifo := 5, malloc := some 4096 }

theorem createVisit_wellFormed : WellFormed createVisit where
  code := by decide
  pipe := ⟨⟨[112], by simp⟩, ⟨by decide, by decide, by decide⟩, by decide⟩
  box := ⟨⟨[47, 97], by simp⟩, ⟨by decide, by decide, by decide⟩, by decide⟩
  opened := by decide
  writable := fun _ => Int.le_refl 0

theorem not_survives_create :
    ¬ ∀ (tfs : Tfs) (visits : List Visit), BrokerFs tfs → (∀ v ∈ visits, WellFormed v) →
      Survives (Server.start tfs) visits := by
  intro hall
  have hfs : BrokerFs brokerDisk := ⟨zeroMallocs, brokerDisk, [], [], brokerDisk_init, rfl⟩
  obtain ⟨fuel, s', hhandle, hrunning, -⟩ :=
    hall brokerDisk [createVisit] hfs (by simpa using createVisit_wellFormed)
  rw [handle_stops rfl hhandle] at hrunning
  cases hrunning

/-! ## Create and remove -/

/-- `r` answers a request to create `name` between servers with the boxes `boxes` and `boxes'`. -/
def CreateAnswered (name : CStr) (s s' : Server) (boxes boxes' : List (Nat × BoxNode))
    (r : Request) : Prop :=
  r.code = Codes.rCBox.val ∧
  (r.returnCode = 0 ∧ (name ∉ names boxes ∧ ¬ HasFile s.tfs name) ∧
      (name ∈ names boxes' ∧ HasFile s'.tfs name) ∨
    r.returnCode = -1 ∧ boxes' = boxes ∧ SameFiles s.tfs s'.tfs ∧
      (name ∈ names boxes ∨ HasFile s.tfs name ∨ NoRoom s.tfs))

/-- `r` answers a request to remove `name`. -/
def RemoveAnswered (name : CStr) (s s' : Server) (boxes boxes' : List (Nat × BoxNode))
    (r : Request) : Prop :=
  r.code = Codes.rRBox.val ∧
  (r.returnCode = 0 ∧ (name ∈ names boxes ∧ HasFile s.tfs name) ∧
      (name ∉ names boxes' ∧ ¬ HasFile s'.tfs name) ∨
    r.returnCode = -1 ∧ boxes' = boxes ∧ SameFiles s.tfs s'.tfs ∧
      ¬ (name ∈ names boxes ∧ HasFile s.tfs name))

/-- One response is written, and it is true. -/
def Answered (v : Visit) (s s' : Server) (boxes boxes' : List (Nat × BoxNode)) : Prop :=
  ∃ r name, s'.session.written = v.session.written ++ [r] ∧
    strAt v.request.memory atBoxName = ok name ∧
    (v.request.code = Codes.cBox.val ∧ CreateAnswered name s s' boxes boxes' r ∨
      v.request.code = Codes.rBox.val ∧ RemoveAnswered name s s' boxes boxes' r)

/-- List and files are in step before and behind each create and remove request, and each is
answered. -/
def StaysInStep (s : Server) : List Visit → Prop
  | [] => ∃ boxes, InStep s boxes
  | v :: visits => ∃ fuel s' boxes boxes', InStep s boxes ∧ s.handle fuel v = .done (ok s') ∧
      Boxes s' boxes' ∧ Answered v s s' boxes boxes' ∧ StaysInStep s' visits

/-- No create or remove request is answered, in whatever state. -/
theorem handle_not_answered {fuel : Nat} {s s' : Server} {v : Visit}
    {boxes boxes' : List (Nat × BoxNode)} (h : s.handle fuel v = .done (ok s')) :
    ¬ Answered v s s' boxes boxes' := by
  rintro ⟨r, name, hwritten, -, hcode⟩
  have hcode : v.request.code = Codes.cBox.val ∨ v.request.code = Codes.rBox.val :=
    hcode.imp And.left And.left
  have hsame : s'.session.written = v.session.written := by
    rcases selector_ok h with ⟨hc, -⟩ | ⟨hc, -⟩ | ⟨-, h⟩ | ⟨-, h⟩ | ⟨hc, -⟩ | ⟨-, rfl⟩
    · rw [hc] at hcode
      exact absurd hcode (by decide)
    · rw [hc] at hcode
      exact absurd hcode (by decide)
    · rw [(codeCBox_ok h).2]
      rfl
    · rw [(codeRBox_ok h).2]
      rfl
    · rw [hc] at hcode
      exact absurd hcode (by decide)
    · rfl
  rw [hsame] at hwritten
  have hlen := congrArg List.length hwritten
  rw [List.length_append, List.length_singleton] at hlen
  omega

theorem inStep_start {tfs : Tfs} (hini : Initial tfs) : InStep (Server.start tfs) [] where
  list := rfl
  once := List.nodup_nil
  files := fun _ => ⟨fun h => absurd h List.not_mem_nil, fun h => (initial_noFile hini h).elim⟩

/-- From the start, list and files stay in step and all requests are answered exactly if there are
no requests. -/
theorem inStep_iff {m : Mallocs} {tfs : Tfs} (hinit : tfsInit .zero m none = ok (0, tfs))
    (visits : List Visit) : StaysInStep (Server.start tfs) visits ↔ visits = [] := by
  have hini := (tfsInit_initial (p := none) defaultParams_good hinit).1
  constructor
  · intro h
    cases visits with
    | nil => rfl
    | cons v visits =>
      obtain ⟨fuel, s', boxes, boxes', -, hhandle, -, hanswered, -⟩ := h
      exact absurd hanswered (handle_not_answered hhandle)
  · rintro rfl
    exact ⟨[], inStep_start hini⟩

theorem inStep_iff_create : ¬ StaysInStep (Server.start brokerDisk) [createVisit] := by
  intro h
  have hnil := (inStep_iff brokerDisk_init [createVisit]).mp h
  cases hnil

theorem not_inStep_create :
    ¬ ∀ (m : Mallocs) (tfs : Tfs) (visits : List Visit), tfsInit .zero m none = ok (0, tfs) →
      (∀ v ∈ visits, WellFormed v ∧
        (v.request.code = Codes.cBox.val ∨ v.request.code = Codes.rBox.val)) →
      StaysInStep (Server.start tfs) visits := by
  intro hall
  have hstep := hall zeroMallocs brokerDisk [createVisit] brokerDisk_init fun v hv => by
    rw [List.mem_singleton] at hv
    rw [hv]
    exact ⟨createVisit_wellFormed, Or.inl rfl⟩
  obtain ⟨fuel, s', boxes, boxes', -, hhandle, -, hanswered, -⟩ := hstep
  exact handle_not_answered hhandle hanswered

end Mbroker
