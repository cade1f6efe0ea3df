import Mbroker.Clients.Manager

/-!
# `sub`

The message loop of `subscriber/sub.c`, behind its request.  In each round it copies and
prints the message of `r` and counts it, whatever `read` returned; it leaves when it
finds `EAGAIN` in `errno`, which a successful `read` does not set, or on a SIGINT.  An
`EINTR` closes the session pipe and the loop goes on, as it does if the pipe could not
be opened.

    sub_iff     : what is printed and counted are the messages read exactly if each `read`
      brought one
    sub_regular : a loop that ends by itself, with no stale `EAGAIN`, counts too many
    sub_closed  : without its pipe, `sub` prints until a SIGINT, or until its counter overflows
-/

namespace Mbroker

open CLib Outcome

/-! ## The loop -/

def eBadf : Int := 9

/-- A line on the standard output. -/
inductive SubLine where
  | pipeClosed
  | message (text : List UInt8)
  | total (receivedMessages : Nat)

structure Sub where
  sessionRunning : Bool
  fifoOpen : Bool
  stdout : List SubLine
  receivedMessages : Nat

/-- What a round meets: what `read` returns from an open session pipe, what is in the new `r` before
it, and whether there is a SIGINT. -/
structure SubRound where
  read : ReadOutcome
  request : RawRequest
  sigint : Bool

namespace Sub

/-- In front of the loop, which it gets to with any `session_fifo`. -/
def start (sessionFifo : Int) : Sub where
  sessionRunning := false
  fifoOpen := sessionFifo != -1
  stdout := []
  receivedMessages := 0

/-- What `read(session_fifo, &r, sizeof(r))` returns. -/
def read (fifoOpen : Bool) (r : SubRound) : ReadOutcome :=
  if fifoOpen then r.read else .failed eBadf

def printLine (s : Sub) (line : SubLine) : Sub := { s with stdout := s.stdout ++ [line] }

/-- `errno`, looked at where `ret != 0`. -/
def checkErrno (s : Sub) : Option Int → Sub
  | none => s -- if EOF do nothing
  | some errno =>
    if errno = eAgain then { s with sessionRunning := true }.printLine .pipeClosed
    else if errno = eIntr then { s with fifoOpen := false } -- close(session_fifo)
    else s

/-- `received_messages++`; the overflow of an `int` is undefined. -/
def increment (receivedMessages : Nat) : Outcome Nat :=
  if receivedMessages + 1 < 2 ^ 31 then ok (receivedMessages + 1) else fault

def step (s : Sub) (r : SubRound) : Outcome Sub := do
  let o := read s.fifoOpen r
  let s := s.checkErrno o.errno
  let message ← copyMessage (o.fill r.request)
  let s := s.printLine (.message message)
  let receivedMessages ← increment s.receivedMessages
  return { s with receivedMessages, sessionRunning := s.sessionRunning || r.sigint }

/-- The rounds `rs`; `none` if the loop is left before. -/
def run : Sub → List SubRound → Outcome (Option Sub)
  | s, [] => ok (some s)
  | s, r :: rs => if s.sessionRunning then ok none else do run (← s.step r) rs

/-- Behind the loop, and what `main` returns. -/
def finish (s : Sub) : Int × Sub :=
  (1, { s.printLine (.total s.receivedMessages) with fifoOpen := false })

end Sub

/-! ## Reads and messages -/

/-- The text of a message, as `strcpy` takes it. -/
def RawRequest.text (r : RawRequest) : List UInt8 := cstr r.memory atErrorMessage maxMessage

theorem copyMessage_ok {r : RawRequest} {text : List UInt8} (h : copyMessage r = ok text) :
    text = r.text := by
  unfold copyMessage at h
  simp only at h
  split at h
  · cases h
    rfl
  · cases h

namespace Sub

/-- What `read` returns in each of the rounds. -/
def reads : Bool → List SubRound → List ReadOutcome
  | _, [] => []
  | fifoOpen, r :: rs =>
    read fifoOpen r :: reads (fifoOpen && (read fifoOpen r).errno != some eIntr) rs

/-- The messages on the standard output. -/
def messages (stdout : List SubLine) : List (List UInt8) :=
  stdout.filterMap fun line => match line with
    | .message text => some text
    | _ => none

/-- The messages of the requests that were read. -/
def received (os : List ReadOutcome) : List (List UInt8) :=
  (Main.requests os).map RawRequest.text

theorem length_reads (fifoOpen : Bool) (rs : List SubRound) :
    (reads fifoOpen rs).length = rs.length := by
  induction rs generalizing fifoOpen with
  | nil => rfl
  | cons r rs ih => exact congrArg Nat.succ (ih _)

section
variable {s s' : Sub} {r : SubRound} {rs : List SubRound}

theorem messages_append (stdout stdout' : List SubLine) :
    messages (stdout ++ stdout') = messages stdout ++ messages stdout' := List.filterMap_append

theorem checkErrno_ok (s : Sub) (errno : Option Int) :
    messages (s.checkErrno errno).stdout = messages s.stdout ∧
      (s.checkErrno errno).receivedMessages = s.receivedMessages ∧
      (s.checkErrno errno).fifoOpen = (s.fifoOpen && errno != some eIntr) ∧
      ((s.checkErrno errno).sessionRunning = true ↔
        s.sessionRunning = true ∨ errno = some eAgain) := by
  cases errno with
  | none => simp [checkErrno]
  | some errno =>
    by_cases hagain : errno = eAgain
    · subst hagain
      have hne : eAgain ≠ eIntr := by decide
      simp [checkErrno, printLine, messages, hne]
    · by_cases hintr : errno = eIntr
      · simp [checkErrno, hintr, show eIntr ≠ eAgain by decide]
      · simp [checkErrno, hagain, hintr]

theorem increment_ok {n k : Nat} (h : increment n = ok k) : k = n + 1 ∧ k < 2 ^ 31 := by
  unfold increment at h
  split at h
  · next hroom =>
    cases h
    exact ⟨rfl, hroom⟩
  · cases h

/-- A round prints one message and counts one, while the counter has room. -/
theorem step_ok (h : s.step r = ok s') :
    messages s'.stdout =
        messages s.stdout ++ [((read s.fifoOpen r).fill r.request).text] ∧
      s'.receivedMessages = s.receivedMessages + 1 ∧ s'.receivedMessages < 2 ^ 31 ∧
      s'.fifoOpen = (s.fifoOpen && (read s.fifoOpen r).errno != some eIntr) ∧
      (s'.sessionRunning = true ↔ s.sessionRunning = true ∨
        (read s.fifoOpen r).errno = some eAgain ∨ r.sigint = true) := by
  obtain ⟨text, htext, h⟩ := (bind_eq_ok _ _ _).mp h
  obtain ⟨n, hn, h⟩ := (bind_eq_ok _ _ _).mp h
  rw [pure_eq, ok.injEq] at h
  rw [← copyMessage_ok htext, ← h]
  obtain ⟨hmessages, hcount, hopen, hrunning⟩ := checkErrno_ok s (read s.fifoOpen r).errno
  obtain ⟨rfl, hroom⟩ := increment_ok hn
  refine ⟨?_, congrArg (· + 1) hcount, hroom, hopen, ?_⟩
  · show messages ((s.checkErrno _).stdout ++ [.message text]) = _
    rw [messages_append, hmessages]
    rfl
  · show ((s.checkErrno _).sessionRunning || r.sigint) = true ↔ _
    rw [Bool.or_eq_true, hrunning, or_assoc]

/-- Without an `EAGAIN` and a SIGINT the loop goes on. -/
theorem step_stays (h : s.step r = ok s') (hrunning : s.sessionRunning = false)
    (hagain : (read s.fifoOpen r).errno ≠ some eAgain) (hsigint : r.sigint = false) :
    s'.sessionRunning = false := by
  rw [Bool.eq_false_iff]
  intro htrue
  rcases (step_ok h).2.2.2.2.mp htrue with h | h | h
  · rw [hrunning] at h
    cases h
  · exact hagain h
  · rw [hsigint] at h
    cases h

theorem run_cons (h : s.run (r :: rs) = ok (some s')) :
    s.sessionRunning = false ∧ ∃ s₁, s.step r = ok s₁ ∧ s₁.run rs = ok (some s') := by
  unfold run at h
  split at h
  · cases h
  · next hrunning => exact ⟨by simpa using hrunning, (bind_eq_ok _ _ _).mp h⟩

/-- The text that each round prints. -/
def texts : List ReadOutcome → List SubRound → List (List UInt8)
  | o :: os, r :: rs => (o.fill r.request).text :: texts os rs
  | _, _ => []

theorem run_messages (h : s.run rs = ok (some s')) :
    messages s'.stdout = messages s.stdout ++ texts (reads s.fifoOpen rs) rs ∧
      s'.receivedMessages = s.receivedMessages + rs.length := by
  induction rs generalizing s with
  | nil =>
    cases h
    exact ⟨(List.append_nil _).symm, rfl⟩
  | cons r rs ih =>
    obtain ⟨-, s₁, hstep, hrest⟩ := run_cons h
    obtain ⟨hmessages, hcount, -, hopen, -⟩ := step_ok hstep
    obtain ⟨hall, htotal⟩ := ih hrest
    rw [hmessages, hopen, List.append_assoc] at hall
    refine ⟨hall, ?_⟩
    rw [htotal, hcount, List.length_cons]
    omega

/-- The counter is an `int` in every round. -/
theorem run_room (h : s.run rs = ok (some s')) (hroom : s.receivedMessages < 2 ^ 31) :
    s'.receivedMessages < 2 ^ 31 := by
  induction rs generalizing s with
  | nil =>
    cases h
    exact hroom
  | cons r rs ih =>
    obtain ⟨-, s₁, hstep, hrest⟩ := run_cons h
    exact ih hrest (step_ok hstep).2.2.1

end

/-- Where each read brought a request, the texts are those of the requests. -/
theorem texts_complete {os : List ReadOutcome} {rs : List SubRound} (h : os.length = rs.length)
    (hall : ∀ o ∈ os, ∃ request errno, o = .complete request errno) :
    texts os rs = received os := by
  induction os generalizing rs with
  | nil => rfl
  | cons o os ih =>
    cases rs with
    | nil => cases h
    | cons r rs =>
      obtain ⟨request, errno, rfl⟩ := hall o List.mem_cons_self
      have hrest := ih (Nat.succ.inj h) fun o ho => hall o (List.mem_cons_of_mem _ ho)
      exact congrArg (request.text :: ·) hrest

theorem received_length (os : List ReadOutcome) : (received os).length ≤ os.length ∧
    ((received os).length = os.length ↔
      ∀ o ∈ os, ∃ request errno, o = .complete request errno) := by
  have hiff : (received os).length = os.length ↔
      ∀ o ∈ os, ∃ request errno, o = .complete request errno := by
    rw [received, List.length_map, Main.requests, List.filterMap_length_eq_length]
    constructor
    · intro hsome o ho
      have ho := hsome o ho
      cases o with
      | complete request errno => exact ⟨request, errno, rfl⟩
      | eof => cases ho
      | failed errno => cases ho
    · intro hall o ho
      obtain ⟨request, errno, rfl⟩ := hall o ho
      rfl
  refine ⟨?_, hiff⟩
  rw [received, List.length_map]
  exact List.length_filterMap_le _ _

/-! ## Sessions -/

section
variable {sessionFifo : Int} {rs : List SubRound} {s : Sub}

/-- What `sub` has printed and counted, and the last line that it would print, are right exactly if
each of its reads brought a message. -/
theorem sub_iff (h : (start sessionFifo).run rs = ok (some s)) :
    (messages s.stdout = received (reads (sessionFifo != -1) rs) ∧
      s.receivedMessages = (received (reads (sessionFifo != -1) rs)).length ∧
      s.finish.2.stdout =
        s.stdout ++ [.total (received (reads (sessionFifo != -1) rs)).length]) ↔
    ∀ o ∈ reads (sessionFifo != -1) rs, ∃ request errno, o = .complete request errno := by
  obtain ⟨hmessages, hcount⟩ := run_messages h
  have hlen := length_reads (sessionFifo != -1) rs
  have hmessages : messages s.stdout = texts (reads (sessionFifo != -1) rs) rs := hmessages
  have hcount : s.receivedMessages = rs.length := hcount.trans (Nat.zero_add _)
  rw [hmessages, hcount, ← hlen]
  constructor
  · rintro ⟨-, heq, -⟩
    exact (received_length _).2.mp heq.symm
  · intro hall
    have heq := ((received_length _).2.mpr hall).symm
    refine ⟨texts_complete hlen hall, heq, ?_⟩
    rw [← heq, hlen, ← hcount]
    rfl

/-- The loop ends by itself only where a read finds `EAGAIN`. -/
theorem run_last {s₀ : Sub} (h : s₀.run rs = ok (some s)) (h₀ : s₀.sessionRunning = false)
    (hsigint : ∀ r ∈ rs, r.sigint = false) (hend : s.sessionRunning = true) :
    ∃ o ∈ reads s₀.fifoOpen rs, o.errno = some eAgain := by
  induction rs generalizing s₀ with
  | nil =>
    cases h
    rw [h₀] at hend
    cases hend
  | cons r rs ih =>
    obtain ⟨-, s₁, hstep, hrest⟩ := run_cons h
    obtain ⟨-, -, -, hopen, -⟩ := step_ok hstep
    by_cases hagain : (read s₀.fifoOpen r).errno = some eAgain
    · exact ⟨_, List.mem_cons_self, hagain⟩
    · have h₁ := step_stays hstep h₀ hagain (hsigint r List.mem_cons_self)
      obtain ⟨o, ho, he⟩ := ih hrest h₁ (fun r hr => hsigint r (List.mem_cons_of_mem _ hr))
      rw [hopen] at ho
      exact ⟨o, List.mem_cons_of_mem _ ho, he⟩

/-- A loop that ends by itself, in whatever session, counts more messages than it has read, and
`main` says so in its last line, unless a whole request was read while `errno` still was `EAGAIN`. -/
theorem sub_regular (h : (start sessionFifo).run rs = ok (some s))
    (hsigint : ∀ r ∈ rs, r.sigint = false) (hend : s.sessionRunning = true)
    (hfresh : ∀ request, .complete request eAgain ∉ reads (sessionFifo != -1) rs) :
    ∃ n, s.receivedMessages = n ∧ s.finish.2.stdout = s.stdout ++ [.total n] ∧
      (received (reads (sessionFifo != -1) rs)).length < n := by
  obtain ⟨o, ho, hagain⟩ := run_last h rfl hsigint hend
  refine ⟨_, rfl, rfl, ?_⟩
  have hcount : s.receivedMessages = rs.length := (run_messages h).2.trans (Nat.zero_add _)
  obtain ⟨hle, hiff⟩ := received_length (reads (sessionFifo != -1) rs)
  rw [hcount, ← length_reads (sessionFifo != -1) rs]
  refine Nat.lt_of_le_of_ne hle fun heq => ?_
  obtain ⟨request, errno, rfl⟩ := hiff.mp heq o ho
  cases hagain
  exact hfresh request ho

end

theorem run_closed {s₀ s : Sub} {rs : List SubRound} (hclosed : s₀.fifoOpen = false)
    (h₀ : s₀.sessionRunning = false) (h : s₀.run rs = ok (some s)) :
    messages s.stdout = messages s₀.stdout ++ rs.map (fun r => r.request.text) ∧
      (s.sessionRunning = true ↔ ∃ r ∈ rs, r.sigint = true) := by
  induction rs generalizing s₀ with
  | nil =>
    cases h
    simp [h₀]
  | cons r rs ih =>
    obtain ⟨-, s₁, hstep, hrest⟩ := run_cons h
    obtain ⟨hmessages, -, -, hopen, hrunning⟩ := step_ok hstep
    have hread : read s₀.fifoOpen r = .failed eBadf := by
      rw [hclosed]
      rfl
    have hbadf : (read s₀.fifoOpen r).errno ≠ some eAgain := by
      rw [hread]
      decide
    have hopen₁ : s₁.fifoOpen = false := by
      rw [hopen, hclosed]
      rfl
    rw [hread] at hmessages
    cases hsigint : r.sigint with
    | true =>
      -- the loop is left
      have htrue : s₁.sessionRunning = true := hrunning.mpr (Or.inr (Or.inr hsigint))
      cases rs with
      | nil =>
        cases hrest
        exact ⟨hmessages, by simp [htrue, hsigint]⟩
      | cons r' rs =>
        have hfalse := (run_cons hrest).1
        rw [htrue] at hfalse
        cases hfalse
    | false =>
      obtain ⟨hall, hend⟩ := ih hopen₁ (step_stays hstep h₀ hbadf hsigint) hrest
      rw [hmessages, List.append_assoc] at hall
      exact ⟨hall, by rw [hend]; simp [hsigint]⟩

/-- Without its pipe, `sub` goes on until there is a SIGINT: each round prints what `r` held, and
there are no more rounds than the counter has room for. -/
theorem sub_closed {s₀ s : Sub} {rs : List SubRound} (hclosed : s₀.fifoOpen = false)
    (h₀ : s₀.sessionRunning = false) (h : s₀.run rs = ok (some s)) :
    messages s.stdout = messages s₀.stdout ++ rs.map (fun r => r.request.text) ∧
      (s.sessionRunning = true ↔ ∃ r ∈ rs, r.sigint = true) ∧
      (s₀.receivedMessages < 2 ^ 31 → s₀.receivedMessages + rs.length < 2 ^ 31) := by
  obtain ⟨hmessages, hend⟩ := run_closed hclosed h₀ h
  refine ⟨hmessages, hend, fun hroom => ?_⟩
  rw [← (run_messages h).2]
  exact run_room h hroom

/-! ## Two sessions -/

/-- A message `"hi"` from the broker. -/
def hiMessage : RawRequest := fun i =>
  if i.val = 0 then Codes.mSub.val else if i.val = atErrorMessage then 104
  else if i.val = atErrorMessage + 1 then 105 else 0

/-- A message, and then the pipe is empty. -/
def oneMessage : List SubRound :=
  [⟨.complete hiMessage 0, RawRequest.zero, false⟩, ⟨.failed eAgain, hiMessage, false⟩]

def afterRun (sessionFifo : Int) (rs : List SubRound) : Sub :=
  (((start sessionFifo).run rs).getD none).getD (start sessionFifo)

theorem run_eq_afterRun (sessionFifo : Int) (rs : List SubRound)
    (h : ((start sessionFifo).run rs).isOk = true)
    (hs : (((start sessionFifo).run rs).getD none).isSome = true) :
    (start sessionFifo).run rs = ok (some (afterRun sessionFifo rs)) := by
  obtain ⟨s, hs⟩ := Option.isSome_iff_exists.mp hs
  have hrun := eq_ok_getD none h
  rw [hs] at hrun
  unfold afterRun
  rw [hrun]
  rfl

theorem sub_iff_hi : ¬ (messages (afterRun 3 oneMessage).stdout =
      received (reads true oneMessage) ∧
    (afterRun 3 oneMessage).receivedMessages = (received (reads true oneMessage)).length ∧
    (afterRun 3 oneMessage).finish.2.stdout =
      (afterRun 3 oneMessage).stdout ++ [.total (received (reads true oneMessage)).length]) := by
  have hrun := run_eq_afterRun 3 oneMessage (by decide +kernel) (by decide +kernel)
  intro h
  obtain ⟨request, errno, ho⟩ := (sub_iff hrun).mp h (.failed eAgain) (.tail _ (.head _))
  cases ho

theorem sub_regular_hi : ∃ n, (afterRun 3 oneMessage).receivedMessages = n ∧
    (afterRun 3 oneMessage).finish.2.stdout = (afterRun 3 oneMessage).stdout ++ [.total n] ∧
      (received (reads true oneMessage)).length < n := by
  have hrun := run_eq_afterRun 3 oneMessage (by decide +kernel) (by decide +kernel)
  refine sub_regular hrun (by decide) (by decide +kernel) fun request hmem => ?_
  have hreads : reads (3 != -1) oneMessage = [.complete hiMessage 0, .failed eAgain] := rfl
  rw [hreads] at hmem
  simp [eAgain] at hmem

/-- The session pipe could not be opened; the second round is the last, with a SIGINT. -/
def interrupted : List SubRound :=
  [⟨.eof, RawRequest.zero, false⟩, ⟨.eof, RawRequest.zero, true⟩]

theorem sub_closed_interrupted :
    messages (afterRun (-1) interrupted).stdout =
        messages [] ++ interrupted.map (fun r => r.request.text) ∧
      ((afterRun (-1) interrupted).sessionRunning = true ↔
        ∃ r ∈ interrupted, r.sigint = true) ∧
      (0 < 2 ^ 31 → 0 + interrupted.length < 2 ^ 31) :=
  sub_closed rfl rfl (run_eq_afterRun (-1) interrupted (by decide +kernel) (by decide +kernel))

end Sub

end Mbroker
