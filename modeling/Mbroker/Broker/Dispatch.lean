import Mbroker.Broker.Boxes

/-!
# The broker's main loop

`main` reads requests from the register pipe and calls `selector` in each round.  The
handlers are a parameter (`Handlers`): a handler may change the server in any way, end
the process or never come back.  `calls` records what `request` held at each call.

    run_calls : each round that does not end in the error exit makes a call, with the last
      structure that was read
    dispatched_run : the calls are the requests read, and no read is taken for an error,
      exactly if each read brings a whole request and finds `errno` other than `EINTR`
-/

namespace Mbroker

open CLib Outcome

/-- The functions that `selector` calls, and the variable that stops the loop. -/
structure Handlers (σ : Type) where
  serverRunning : σ → Bool
  stop : σ → σ
  codeRPub : σ → Region UInt8 → Nat → Bounded σ
  codeRSub : σ → Region UInt8 → Nat → Bounded σ
  codeCBox : σ → Region UInt8 → Nat → Bounded σ
  codeRBox : σ → Region UInt8 → Nat → Bounded σ
  codeLBox : σ → Bounded σ

/-- Those of the broker. -/
def serverHandlers (fuel : Nat) : Handlers Server where
  serverRunning := Server.serverRunning
  stop := Server.stop
  codeRPub := Mbroker.codeRPub fuel
  codeRSub := Mbroker.codeRSub fuel
  codeCBox := Mbroker.codeCBox fuel
  codeRBox := Mbroker.codeRBox fuel
  codeLBox := Mbroker.codeLBox fuel

/-- The names are those of the object `request`. -/
def selector {σ : Type} (h : Handlers σ) (s : σ) (code : UInt8) (request : Region UInt8) :
    Bounded σ :=
  if code = Codes.rPub.val then h.codeRPub s request atBoxName
  else if code = Codes.rSub.val then h.codeRSub s request atBoxName
  else if code = Codes.cBox.val then h.codeCBox s request atBoxName
  else if code = Codes.rBox.val then h.codeRBox s request atBoxName
  else if code = Codes.lBox.val then h.codeLBox s
  else pure (h.stop s) -- not expected code

/-- What a call of `selector` that comes back has done. -/
theorem selector_ok {σ : Type} {h : Handlers σ} {s s' : σ} {code : UInt8} {request : Region UInt8}
    (hs : selector h s code request = .done (ok s')) :
    code = Codes.rPub.val ∧ h.codeRPub s request atBoxName = .done (ok s') ∨
    code = Codes.rSub.val ∧ h.codeRSub s request atBoxName = .done (ok s') ∨
    code = Codes.cBox.val ∧ h.codeCBox s request atBoxName = .done (ok s') ∨
    code = Codes.rBox.val ∧ h.codeRBox s request atBoxName = .done (ok s') ∨
    code = Codes.lBox.val ∧ h.codeLBox s = .done (ok s') ∨
    code ∉ [Codes.rPub, .rSub, .cBox, .rBox, .lBox].map Codes.val ∧ s' = h.stop s := by
  unfold selector at hs
  by_cases h₁ : code = Codes.rPub.val
  · rw [if_pos h₁] at hs
    exact Or.inl ⟨h₁, hs⟩
  rw [if_neg h₁] at hs
  by_cases h₂ : code = Codes.rSub.val
  · rw [if_pos h₂] at hs
    exact Or.inr (Or.inl ⟨h₂, hs⟩)
  rw [if_neg h₂] at hs
  by_cases h₃ : code = Codes.cBox.val
  · rw [if_pos h₃] at hs
    exact Or.inr (Or.inr (Or.inl ⟨h₃, hs⟩))
  rw [if_neg h₃] at hs
  by_cases h₅ : code = Codes.rBox.val
  · rw [if_pos h₅] at hs
    exact Or.inr (Or.inr (Or.inr (Or.inl ⟨h₅, hs⟩)))
  rw [if_neg h₅] at hs
  by_cases h₇ : code = Codes.lBox.val
  · rw [if_pos h₇] at hs
    exact Or.inr (Or.inr (Or.inr (Or.inr (Or.inl ⟨h₇, hs⟩))))
  rw [if_neg h₇] at hs
  cases hs
  refine Or.inr (Or.inr (Or.inr (Or.inr (Or.inr ⟨?_, rfl⟩))))
  simp [h₁, h₂, h₃, h₅, h₇]

/-! ## The loop -/

/-- Where `main` is: at its `read`, behind the loop, at the error exit, or in a call of `selector`
that has not come back. -/
inductive Phase where
  | reading
  | stopped
  | readError
  | calling
deriving DecidableEq

structure Main (σ : Type) where
  server : σ
  request : RawRequest
  calls : List RawRequest
  phase : Phase

namespace Main

variable {σ : Type}

def start (s : σ) : Main σ := ⟨s, RawRequest.zero, [], .reading⟩

/-- The call of `selector` and the test of `server_running`. -/
def dispatch (h : Handlers σ) (m : Main σ) : Main σ :=
  match selector h m.server m.request.code m.request.memory with
  | .done (.ok s) =>
    { m with
      server := s
      calls := m.calls ++ [m.request]
      phase := if h.serverRunning s then .reading else .stopped }
  | _ => { m with calls := m.calls ++ [m.request], phase := .calling }

/-- A round whose `read` returns `o`. -/
def step (h : Handlers σ) (m : Main σ) (o : ReadOutcome) : Main σ :=
  let m := { m with request := o.fill m.request }
  if o.errno = some eIntr then { m with phase := .readError } else m.dispatch h

/-- The rounds in which `read` returns `os`, if the loop comes to all of them. -/
def run (h : Handlers σ) : Main σ → List ReadOutcome → Option (Main σ)
  | m, [] => some m
  | m, o :: os => if m.phase = .reading then run h (m.step h o) os else none

/-- What `request` holds behind each of the reads. -/
def buffers : RawRequest → List ReadOutcome → List RawRequest
  | _, [] => []
  | request, o :: os => o.fill request :: buffers (o.fill request) os

/-- The requests among the results of `read`. -/
def requests (os : List ReadOutcome) : List RawRequest :=
  os.filterMap fun o => match o with
    | .complete request _ => some request
    | _ => none

/-- A whole request, read while `errno` was not `EINTR`. -/
def Whole (o : ReadOutcome) : Prop := ∃ request errno, o = .complete request errno ∧ errno ≠ eIntr

/-! ## What a round does -/

theorem dispatch_calls (h : Handlers σ) (m : Main σ) :
    (m.dispatch h).calls = m.calls ++ [m.request] ∧ (m.dispatch h).request = m.request ∧
      (m.dispatch h).phase ≠ .readError := by
  unfold dispatch
  split
  · refine ⟨rfl, rfl, ?_⟩
    simp only
    split
    · exact nofun
    · exact nofun
  · exact ⟨rfl, rfl, nofun⟩

/-- Either all reads were taken for good, and there was a call for each of them, or one was not. -/
theorem run_calls {h : Handlers σ} {m m' : Main σ} {os : List ReadOutcome}
    (hphase : m.phase ≠ .readError) (hrun : m.run h os = some m') :
    ((∀ o ∈ os, o.errno ≠ some eIntr) ∧ m'.phase ≠ .readError ∧
      m'.calls = m.calls ++ buffers m.request os) ∨
    (∃ o ∈ os, o.errno = some eIntr) ∧ m'.phase = .readError := by
  induction os generalizing m with
  | nil =>
    cases hrun
    exact Or.inl ⟨nofun, hphase, by simp [buffers]⟩
  | cons o os ih =>
    simp only [run] at hrun
    split at hrun
    · by_cases ho : o.errno = some eIntr
      · -- the error exit: there are no further rounds
        right
        simp only [step, if_pos ho] at hrun
        refine ⟨⟨o, List.mem_cons_self, ho⟩, ?_⟩
        cases os with
        | nil =>
          cases hrun
          rfl
        | cons o' os => simp [run] at hrun
      · simp only [step, if_neg ho] at hrun
        obtain ⟨hcalls, hrequest, hnext⟩ := dispatch_calls h { m with request := o.fill m.request }
        rcases ih hnext hrun with ⟨hall, hend, hlist⟩ | ⟨⟨o', ho', he⟩, hend⟩
        · left
          refine ⟨fun o' ho' => ?_, hend, ?_⟩
          · cases ho' with
            | head => exact ho
            | tail _ ho' => exact hall o' ho'
          · rw [hlist, hcalls, hrequest, List.append_assoc]
            rfl
        · exact Or.inr ⟨⟨o', List.mem_cons_of_mem _ ho', he⟩, hend⟩
    · cases hrun

theorem length_buffers (request : RawRequest) (os : List ReadOutcome) :
    (buffers request os).length = os.length := by
  induction os generalizing request with
  | nil => rfl
  | cons o os ih => simp [buffers, ih]

/-- The buffer holds the requests in their order exactly if each read brings one. -/
theorem buffers_eq_requests (request : RawRequest) (os : List ReadOutcome) :
    buffers request os = requests os ↔ ∀ o ∈ os, ∃ r errno, o = .complete r errno := by
  constructor
  · intro heq
    have hlen : (requests os).length = os.length := by rw [← heq, length_buffers]
    intro o ho
    have hsome := List.filterMap_length_eq_length.mp hlen o ho
    cases o with
    | complete r errno => exact ⟨r, errno, rfl⟩
    | eof => cases hsome
    | failed errno => cases hsome
  · intro hall
    induction os generalizing request with
    | nil => rfl
    | cons o os ih =>
      obtain ⟨r, errno, rfl⟩ := hall o List.mem_cons_self
      have hrest := ih r fun o ho => hall o (List.mem_cons_of_mem _ ho)
      exact congrArg (r :: ·) hrest

end Main

open Main

/-- In every run: `selector` is called for the requests read, once each and in order, and `main`
takes no read for an error, exactly if all reads are whole requests that find no `EINTR`. -/
theorem dispatched_run {σ : Type} (h : Handlers σ) (s : σ) {os : List ReadOutcome} {m : Main σ}
    (hrun : (start s).run h os = some m) :
    (m.calls = requests os ∧ m.phase ≠ .readError) ↔ ∀ o ∈ os, Whole o := by
  have hstart : (start s).phase ≠ .readError := by simp [start]
  rcases run_calls hstart hrun with ⟨hall, hend, hcalls⟩ | ⟨⟨o, ho, he⟩, hend⟩
  · have hcalls : m.calls = buffers RawRequest.zero os := hcalls
    rw [hcalls, and_iff_left hend, buffers_eq_requests]
    constructor
    · intro hcomplete o ho
      obtain ⟨r, errno, rfl⟩ := hcomplete o ho
      exact ⟨r, errno, rfl, fun e => hall _ ho (congrArg some e)⟩
    · intro hwhole o ho
      obtain ⟨r, errno, rfl, -⟩ := hwhole o ho
      exact ⟨r, errno, rfl⟩
  · constructor
    · rintro ⟨-, hne⟩
      exact absurd hend hne
    · intro hwhole
      obtain ⟨r, errno, rfl, hne⟩ := hwhole o ho
      exact absurd (Option.some.inj he) hne

/-- A server on which nothing is done. -/
def idleHandlers : Handlers Unit where
  serverRunning _ := true
  stop := id
  codeRPub s _ _ := pure s
  codeRSub s _ _ := pure s
  codeCBox s _ _ := pure s
  codeRBox s _ _ := pure s
  codeLBox s := pure s

/-- A list request, read with a stale `EAGAIN`. -/
def listRequest : ReadOutcome := .complete (fun i => if i.val = 0 then 7 else 0) eAgain

theorem dispatched_run_twice :
    ∃ m, (start ()).run idleHandlers [listRequest, listRequest] = some m ∧
      m.calls = requests [listRequest, listRequest] ∧ m.phase ≠ .readError := by
  refine ⟨_, rfl, (dispatched_run idleHandlers () rfl).mpr fun o ho => ?_⟩
  have ho : o = listRequest := by simpa using ho
  exact ⟨_, eAgain, ho, by decide⟩

/-- A register pipe at its end: `selector` is called for the zeros of `request`. -/
theorem not_dispatched_eof :
    ¬ ∀ (mallocs : Mallocs) (tfs : Tfs) (fuel : Nat) (os : List ReadOutcome) (m : Main Server),
      tfsInit .zero mallocs none = ok (0, tfs) →
      (∀ o ∈ os, ∀ errno, o = .failed errno → errno = eAgain) →
      (start (Server.start tfs)).run (serverHandlers fuel) os = some m →
      m.calls = requests os ∧ m.phase ≠ .readError := by
  intro hall
  obtain ⟨hcalls, -⟩ :=
    hall zeroMallocs brokerDisk 0 [.eof] _ brokerDisk_init (by simp) rfl
  have hlen := congrArg List.length hcalls
  exact absurd hlen (by decide)

end Mbroker
