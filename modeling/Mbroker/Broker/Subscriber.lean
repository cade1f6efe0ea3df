import Mbroker.Broker.Publisher

/-!
# A subscriber's session

`codeR_SUB` refuses a box whose `n_subscribers` is 0 and nothing ever raises it.  Where
the count is positive, the handler reads from the end of the box, takes every positive
result of `tfs_read` for a failure, and after a result of 0 builds a message from NULL.

    subscribe_read : the first read of a session finds no byte
    subscribeStep_ends : a round either faults or ends the session, and writes nothing
    not_served : no subscriber is counted and served, and none gets a message
-/

namespace Mbroker

open CLib Outcome

/-- The text of a message. -/
def Request.text (r : Request) : List UInt8 := (List.ofFn r.errorMessage).takeWhile (· ≠ 0)

/-- All that the session has sent. -/
def Server.sent (s : Server) : List UInt8 := s.session.written.flatMap Request.text

/-- A request to subscribe to the box `name`, whose node is at `p`. -/
structure SubscribeRequest (s : Server) (request : Region UInt8) (boxName p : Nat) (name : CStr)
    (boxes : List (Nat × BoxNode)) : Prop where
  fs : BrokerFs s.tfs
  running : s.serverRunning = true
  list : Boxes s boxes
  box : ∃ node, (p, node) ∈ boxes ∧ node.boxName.str = name
  file : HasFile s.tfs name
  named : HasString request boxName name
  opened : s.session.fifo ≠ -1
  writable : ∀ n, 0 ≤ s.session.writes n
  fresh : s.session.written = []

/-- The states of the loop in a session that starts at `s₁`. -/
def InSession (s₁ : Server) (boxHandle : Int) (st : Server × Region UInt8) : Prop :=
  Passes (subscribeStep boxHandle) (s₁, s₁.session.message (maxMessage + 1)) st

/-- The session from `s₁` on counts a subscriber of the box at `p`, and sends what the box holds. -/
structure Delivers (s s₁ : Server) (boxHandle : Int) (p : Nat) (name : CStr) : Prop where
  counted : ∀ st, InSession s₁ boxHandle st → ∃ node node', s.nodes p = some node ∧
    st.1.nodes p = some node' ∧ node'.nSubscribers = node.nSubscribers + 1
  inOrder : ∀ st, InSession s₁ boxHandle st → st.1.sent <+: boxContent s.tfs name
  whole : ∃ st, InSession s₁ boxHandle st ∧ st.1.sent = boxContent s.tfs name
  bytes : ∀ st, InSession s₁ boxHandle st →
    ∀ ret bytes tfs, tfsRead st.1.tfs boxHandle (maxMessage + 1) = ok (ret, bytes, tfs) →
      0 < ret → ∃ st', subscribeStep boxHandle st = ok (.inl st') ∧ st'.1.sent = st.1.sent ++ bytes
  nothing : ∀ st, InSession s₁ boxHandle st →
    ∀ bytes tfs, tfsRead st.1.tfs boxHandle (maxMessage + 1) = ok (0, bytes, tfs) →
      ∃ st', subscribeStep boxHandle st = ok (.inl st') ∧
        st'.1.session.written = st.1.session.written

/-- The request is accepted and served. -/
def Served (s : Server) (request : Region UInt8) (boxName p : Nat) (name : CStr) : Prop :=
  ∃ fuel boxHandle s₁, subscribe fuel s request boxName = .done (ok (some boxHandle, s₁)) ∧
    Delivers s s₁ boxHandle p name

/-- The request is accepted, and a message is written. -/
def Sends (s : Server) (request : Region UInt8) (boxName : Nat) : Prop :=
  ∃ fuel boxHandle s₁ st, subscribe fuel s request boxName = .done (ok (some boxHandle, s₁)) ∧
    InSession s₁ boxHandle st ∧ st.1.session.written ≠ s.session.written

section
variable {s s₁ : Server} {request : Region UInt8} {boxName p fuel : Nat} {boxHandle : Int}

/-! ## Admission -/

/-- `codeR_SUB` from the box on. -/
theorem subscribe_found {q : Nat} {node : BoxNode} (hq : FindsBox fuel s request boxName q node) :
    subscribe fuel s request boxName =
      (if node.nSubscribers ≤ 0 then return (none, s.openSession.closeSession)
       else do
        let (boxHandle, tfs) ← tfsOpen s.tfs (some node.boxName.str) tfsOAppend
        if boxHandle = -1 then return (none, { s.openSession.closeSession with tfs })
        else return (some boxHandle, { s.openSession with tfs })) := by
  unfold subscribe
  rw [if_neg hq.opened]
  simp only [Server.openSession_nodes, Server.openSession_head, hq.found, Bounded.ok_bind,
    Bounded.lift_eq, Heap.load_ok hq.node]
  rfl

/-- A request that comes to an end has not got to a pipe, or to its box. -/
theorem subscribe_box {r : Option Int × Server}
    (h : subscribe fuel s request boxName = .done (ok r)) :
    s.session.fifo = -1 ∧ r = (none, s.stop) ∨
      ∃ q node, FindsBox fuel s request boxName q node := by
  unfold subscribe at h
  split at h
  · next hfifo =>
    cases h
    exact Or.inl ⟨hfifo, rfl⟩
  · next hopened => exact Or.inr (findsBox_of_bind hopened h)

/-- What an accepted request has done: the box that `find_box` returned is open. -/
theorem subscribe_accepted
    (h : subscribe fuel s request boxName = .done (ok (some boxHandle, s₁))) :
    ∃ q node tfs, FindsBox fuel s request boxName q node ∧ ¬ node.nSubscribers ≤ 0 ∧
      tfsOpen s.tfs (some node.boxName.str) tfsOAppend = ok (boxHandle, tfs) ∧ boxHandle ≠ -1 ∧
      s₁ = { s.openSession with tfs } := by
  rcases subscribe_box h with ⟨-, he⟩ | ⟨q, node, hq⟩
  · cases he
  · rw [subscribe_found hq] at h
    split at h
    · cases h
    · next hcount =>
      obtain ⟨⟨handle, tfs⟩, hopen, h⟩ := Bounded.bind_eq_ok.mp h
      rw [Bounded.lift_eq, Bounded.done.injEq] at hopen
      simp only at h
      split at h
      · cases h
      · next hhandle =>
        cases h
        exact ⟨q, node, tfs, hq, hcount, hopen, hhandle, rfl⟩

/-- What a refused one has: its pipe is closed again, and at most a failed `tfs_open` is done. -/
theorem subscribe_returned (h : subscribe fuel s request boxName = .done (ok (none, s₁))) :
    s.session.fifo = -1 ∧ s₁ = s.stop ∨
    ∃ tfs, s₁ = { s.openSession.closeSession with tfs } ∧
      (tfs = s.tfs ∨ ∃ path, tfsOpen s.tfs (some path) tfsOAppend = ok (-1, tfs)) := by
  rcases subscribe_box h with ⟨hfifo, he⟩ | ⟨q, node, hq⟩
  · cases he
    exact Or.inl ⟨hfifo, rfl⟩
  · right
    rw [subscribe_found hq] at h
    split at h
    · cases h
      exact ⟨s.tfs, rfl, Or.inl rfl⟩
    · obtain ⟨⟨handle, tfs⟩, hopen, h⟩ := Bounded.bind_eq_ok.mp h
      rw [Bounded.lift_eq, Bounded.done.injEq] at hopen
      simp only at h
      split at h
      · next hhandle =>
        cases h
        rw [hhandle] at hopen
        exact ⟨tfs, rfl, Or.inr ⟨node.boxName.str, hopen⟩⟩
      · cases h

theorem subscribe_keeps {r : Option Int}
    (h : subscribe fuel s request boxName = .done (ok (r, s₁))) :
    s₁.session.written = s.session.written ∧ s₁.nodes = s.nodes := by
  cases r with
  | none =>
    rcases subscribe_returned h with ⟨-, rfl⟩ | ⟨tfs, rfl, -⟩
    · exact ⟨rfl, rfl⟩
    · exact ⟨rfl, rfl⟩
  | some handle =>
    obtain ⟨q, node, tfs, -, -, -, -, rfl⟩ := subscribe_accepted h
    exact ⟨rfl, rfl⟩

/-- With no subscriber counted, as in each new box, the request is refused. -/
theorem subscribe_refused {q : Nat} {node : BoxNode} (hq : FindsBox fuel s request boxName q node)
    (hcount : node.nSubscribers = 0) :
    subscribe fuel s request boxName = .done (ok (none, s.openSession.closeSession)) := by
  have hle : node.nSubscribers ≤ 0 := by rw [hcount]; exact UInt64.le_refl 0
  rw [subscribe_found hq, if_pos hle]
  rfl

/-- An accepted session reads from the end of the box. -/
theorem subscribe_read (hfs : BrokerFs s.tfs)
    (h : subscribe fuel s request boxName = .done (ok (some boxHandle, s₁))) (len : Nat) :
    tfsRead s₁.tfs boxHandle len = ok (0, [], s₁.tfs) := by
  obtain ⟨q, node, tfs, -, -, hopen, hhandle, rfl⟩ := subscribe_accepted h
  have hI := hfs.inv
  rcases tfsOpen_append hI hopen with ⟨rfl, -⟩ | ⟨j, i, k, hv, hn, hk, rfl, rfl⟩
  · exact absurd rfl hhandle
  · obtain ⟨hI₂, hh, hend, hsize⟩ := opened_atEnd hI hn hk
    have hlt := hI.blockSize_lt
    refine tfsRead_zero hI₂ hh len ?_
    rw [hend]
    show clampRead (s.tfs.inodeTable.cell i).iSize (s.tfs.inodeTable.cell i).iSize len = 0
    rw [clampRead_of_le (by omega) (Nat.le_refl _)]
    omega

/-! ## The loop -/

/-- A round behind its `tfs_read`, which has returned `ret`, stored `bytes` and left `tfs`. -/
def subscribeRound (s : Server) (message : Region UInt8) (ret : Int) (bytes : List UInt8)
    (tfs : Tfs) : Outcome ((Server × Region UInt8) ⊕ Server) := do
  let message ← message.fill 1 bytes.length fun k => bytes.getD k 0
  let s := { s with tfs }
  if ret ≠ 0 then return .inr s.stop
  else
    let len ← strlen message 1
    let message ← if len < maxMessage then padMessage message len else ok message
    let request ← messageRequest message .mSub 0
    let (sent, s) := s.send request
    if !sent then return .inr s.stop else return .inl (s, message)

theorem subscribeStep_eq (st : Server × Region UInt8) : subscribeStep boxHandle st =
    (tfsRead st.1.tfs boxHandle (maxMessage + 1) >>= fun r =>
      subscribeRound st.1 st.2 r.1 r.2.1 r.2.2) := rfl

theorem subscribeRound_ends {message : Region UInt8} {ret : Int} {bytes : List UInt8} {tfs : Tfs}
    {r : (Server × Region UInt8) ⊕ Server} (h : subscribeRound s message ret bytes tfs = ok r) :
    ret ≠ 0 ∧ r = .inr { s with tfs }.stop := by
  simp only [subscribeRound, messageRequest_fault] at h
  obtain ⟨message, -, h⟩ := (bind_eq_ok _ _ _).mp h
  split at h
  · next hret =>
    cases h
    exact ⟨hret, rfl⟩
  · obtain ⟨len, -, h⟩ := (bind_eq_ok _ _ _).mp h
    split at h
    · obtain ⟨message, -, h⟩ := (bind_eq_ok _ _ _).mp h
      cases h
    · cases h

/-- A round that does not fault has read bytes or failed to, and ends the session. -/
theorem subscribeStep_ends {st : Server × Region UInt8} {r : (Server × Region UInt8) ⊕ Server}
    (h : subscribeStep boxHandle st = ok r) :
    ∃ ret bytes tfs, tfsRead st.1.tfs boxHandle (maxMessage + 1) = ok (ret, bytes, tfs) ∧
      ret ≠ 0 ∧ r = .inr { st.1 with tfs }.stop := by
  rw [subscribeStep_eq] at h
  obtain ⟨⟨ret, bytes, tfs⟩, hread, h⟩ := (bind_eq_ok _ _ _).mp h
  exact ⟨ret, bytes, tfs, hread, subscribeRound_ends h⟩

/-- No second round. -/
theorem session_start {st : Server × Region UInt8} (h : InSession s₁ boxHandle st) :
    st = (s₁, s₁.session.message (maxMessage + 1)) := by
  refine passes_keeps (fun st => st = (s₁, s₁.session.message (maxMessage + 1))) ?_ rfl h
  intro st₁ st₂ _ hstep
  obtain ⟨ret, bytes, tfs, -, -, he⟩ := subscribeStep_ends hstep
  cases he

/-- Whatever happens, nothing is sent and no subscriber is counted. -/
theorem codeRSub_ok {s' : Server} (h : codeRSub fuel s request boxName = .done (ok s')) :
    s'.session.written = s.session.written ∧ s'.nodes = s.nodes := by
  unfold codeRSub at h
  obtain ⟨⟨handle, s₁⟩, hsubscribe, h⟩ := Bounded.bind_eq_ok.mp h
  have hsame := subscribe_keeps hsubscribe
  cases handle with
  | none =>
    cases h
    exact hsame
  | some handle =>
    obtain ⟨st, hst, hleave⟩ := loop_ends
      (fun st => st.1.session.written = s.session.written ∧ st.1.nodes = s.nodes)
      (fun st st' _ hstep => by
        obtain ⟨ret, bytes, tfs, -, -, he⟩ := subscribeStep_ends hstep
        cases he)
      hsame h
    obtain ⟨ret, bytes, tfs, -, -, he⟩ := subscribeStep_ends hleave
    cases he
    exact hst

theorem not_delivers {name : CStr}
    (h : subscribe fuel s request boxName = .done (ok (some boxHandle, s₁))) :
    ¬ Delivers s s₁ boxHandle p name := by
  intro hd
  -- already before the first round the count is as it was
  obtain ⟨node, node', hp, hp', hcount⟩ := hd.counted _ .refl
  rw [(subscribe_keeps h).2, hp] at hp'
  cases hp'
  have hne : node.nSubscribers + 1 ≠ node.nSubscribers := by simp
  exact hne hcount.symm

/-- No subscriber is counted and served, and none gets a message, in whatever state. -/
theorem not_served (s : Server) (request : Region UInt8) (boxName p : Nat) (name : CStr) :
    ¬ Served s request boxName p name ∧ ¬ Sends s request boxName := by
  constructor
  · rintro ⟨fuel, boxHandle, s₁, hsubscribe, hdelivers⟩
    exact not_delivers hsubscribe hdelivers
  · rintro ⟨fuel, boxHandle, s₁, st, hsubscribe, hsession, hne⟩
    rw [session_start hsession] at hne
    exact hne (subscribe_keeps hsubscribe).1

end

/-! ## A box that holds `"hi"` -/

def hiCalls : List Call :=
  [.tfsOpen (some pathA) tfsOCreat, .tfsWrite 0 (fun k => if k = 0 then 104 else 105) 2,
    .tfsClose 0]

def hiDisk : Tfs := stateAfter brokerDisk hiCalls

example : boxContent hiDisk pathA = [104, 105] := by decide +kernel

theorem hiDisk_fs : BrokerFs hiDisk :=
  ⟨zeroMallocs, brokerDisk, hiCalls, answers brokerDisk hiCalls, brokerDisk_init,
    run_eq_answers (by decide +kernel)⟩

/-- One box, with no subscriber yet. -/
def hiBoxes : List (Nat × BoxNode) := [(4096, ⟨boxA, 0, 1024, 0, 0, none⟩)]

def hiServer : Server where
  serverRunning := true
  nodes p := (hiBoxes.find? fun e => e.1 = p).map Prod.snd
  head := some (some 4096)
  tfs := hiDisk
  session := { Session.idle with fifo := 5 }

theorem hiServer_subscribe : SubscribeRequest hiServer requestA atBoxName 4096 pathA hiBoxes where
  fs := hiDisk_fs
  running := rfl
  list := ⟨rfl, rfl, rfl⟩
  box := ⟨_, List.mem_cons_self, rfl⟩
  file := ⟨by decide, by decide +kernel⟩
  named := ⟨by decide, by decide, by decide⟩
  opened := by
    show (5 : Int) ≠ -1
    decide
  writable := fun _ => Int.le_refl 0
  fresh := rfl

/-- The reader of `"hi"` gets nothing. -/
theorem not_served_hi :
    ¬ ∀ (s : Server) (request : Region UInt8) (boxName p : Nat) (name : CStr)
      (boxes : List (Nat × BoxNode)), SubscribeRequest s request boxName p name boxes →
      Served s request boxName p name := by
  intro hall
  obtain ⟨fuel, boxHandle, s₁, hsubscribe, hdelivers⟩ := hall _ _ _ _ _ _ hiServer_subscribe
  exact not_delivers hsubscribe hdelivers

end Mbroker
