import Mbroker.Lib.Program
import Mbroker.Pcq.Runs

/-!
# The queue, access by access

In `Pcq.Threads` the test of a loop and the data step of a call are one step each.  Here they
are the loads and stores that the C code makes, one field or cell a step, and the other
threads step between them.  An access outside the block ends the run.

    accesses_run : the locks and lines of such a run are those of a run of whole steps, and what
      it fetches and stores is what its data steps do when they are made one after the other

It is `pcq_current_size_lock` that makes it so: a thread inside a test or a data step has it
(`program_locked`), so there is one at most.
-/

namespace Mbroker

open CLib CLib.Outcome

/-! ## The accesses -/

/-- What the accesses of a line come to: whether the call waits, or what it fetches. -/
inductive Found where
  | waits (b : Bool)
  | fetched (elem : Option UInt64)

def loadField (field : PcQueue → Nat) : Program PcQueue Nat := .look fun q => ok (field q)

def storeField (store : PcQueue → PcQueue) : Program PcQueue Unit := .change fun q => ok (store q)

/-- `queue->pcq_current_size == queue->pcq_capacity` -/
def enqueueTest : Program PcQueue Found := do
  let pcqCurrentSize ← loadField PcQueue.pcqCurrentSize
  let pcqCapacity ← loadField PcQueue.pcqCapacity
  return .waits (pcqCurrentSize = pcqCapacity)

/-- `queue->pcq_current_size == 0` -/
def dequeueTest : Program PcQueue Found := do
  let pcqCurrentSize ← loadField PcQueue.pcqCurrentSize
  return .waits (pcqCurrentSize = 0)

/-- `if (queue->pcq_tail == queue->pcq_capacity) { queue->pcq_tail = 0; } else …` -/
def tailAtEnd (other : Program PcQueue Unit) : Program PcQueue Unit := do
  let pcqTail ← loadField PcQueue.pcqTail
  let pcqCapacity ← loadField PcQueue.pcqCapacity
  if pcqTail = pcqCapacity then storeField fun q => { q with pcqTail := 0 } else other

/-- `queue->pcq_tail++;` -/
def tailNext : Program PcQueue Unit := do
  let pcqTail ← loadField PcQueue.pcqTail
  storeField fun q => { q with pcqTail := sizeAdd pcqTail 1 }

/-- `queue->pcq_head++`, with the value that it has. -/
def headNext : Program PcQueue Nat := do
  let pcqHead ← loadField PcQueue.pcqHead
  storeField fun q => { q with pcqHead := sizeAdd pcqHead 1 }
  return pcqHead

/-- `queue->pcq_buffer[i] = elem;` -/
def storeCell (i : Nat) (elem : UInt64) : Program PcQueue Unit :=
  .change fun q => do
    let pcqBuffer ← q.pcqBuffer.store i elem
    return { q with pcqBuffer }

def enqueueAccesses (elem : UInt64) : Program PcQueue Found := do
  tailAtEnd tailNext
  let pcqTail ← loadField PcQueue.pcqTail
  storeCell pcqTail elem
  let pcqCurrentSize ← loadField PcQueue.pcqCurrentSize
  storeField fun q => { q with pcqCurrentSize := sizeAdd pcqCurrentSize 1 }
  return .fetched none

def dequeueAccesses : Program PcQueue Found := do
  let pcqHead ← headNext
  let elem ← .look fun q => q.pcqBuffer.load pcqHead
  tailAtEnd do
    let _ ← headNext
    return ()
  let pcqCurrentSize ← loadField PcQueue.pcqCurrentSize
  storeField fun q => { q with pcqCurrentSize := sizeSub pcqCurrentSize 1 }
  return .fetched (some elem)

/-- The accesses of a line that has any. -/
def PcqCall.program : PcqCall → Line → Option (Program PcQueue Found)
  | .pcqEnqueue _, .test => some enqueueTest
  | .pcqDequeue, .test => some dequeueTest
  | .pcqEnqueue elem, .data => some (enqueueAccesses elem)
  | .pcqDequeue, .data => some dequeueAccesses
  | _, _ => none

def Thread.program : Thread → Option (Program PcQueue Found)
  | ⟨[], _⟩ => none
  | ⟨c :: _, line⟩ => c.program line

@[simp] theorem eval_loadField (field : PcQueue → Nat) (q : PcQueue) :
    (loadField field).eval q = ok (field q, q) := by
  simp [loadField]

@[simp] theorem eval_storeField (store : PcQueue → PcQueue) (q : PcQueue) :
    (storeField store).eval q = ok ((), store q) := by
  simp [storeField]

theorem plain_loadField (field : PcQueue → Nat) : (loadField field).Plain := fun _ => trivial

theorem plain_storeField (store : PcQueue → PcQueue) : (storeField store).Plain := fun _ => trivial

theorem eval_tailAtEnd (other : Program PcQueue Unit) (q : PcQueue) : (tailAtEnd other).eval q =
    if q.pcqTail = q.pcqCapacity then ok ((), { q with pcqTail := 0 }) else other.eval q := by
  simp [tailAtEnd, Program.eval_bind]

theorem plain_tailAtEnd {other : Program PcQueue Unit} (h : other.Plain) :
    (tailAtEnd other).Plain := by
  apply Program.plain_bind (plain_loadField _)
  intro pcqTail
  apply Program.plain_bind (plain_loadField _)
  intro pcqCapacity
  split
  · exact plain_storeField _
  · exact h

theorem eval_tailNext (q : PcQueue) :
    tailNext.eval q = ok ((), { q with pcqTail := sizeAdd q.pcqTail 1 }) := by
  simp [tailNext, Program.eval_bind]

theorem plain_tailNext : tailNext.Plain :=
  Program.plain_bind (plain_loadField _) fun _ => plain_storeField _

theorem eval_headNext (q : PcQueue) :
    headNext.eval q = ok (q.pcqHead, { q with pcqHead := sizeAdd q.pcqHead 1 }) := by
  simp [headNext, Program.eval_bind]

theorem plain_headNext : headNext.Plain := by
  apply Program.plain_bind (plain_loadField _)
  intro pcqHead
  exact Program.plain_bind (plain_storeField _) fun _ => trivial

/-- On its own, a test looks at the queue as a whole. -/
theorem program_test (c : PcqCall) : ∃ p, c.program .test = some p ∧ p.Plain ∧
    ∀ q, p.eval q = ok (.waits (c.body.waits q), q) := by
  cases c with
  | pcqEnqueue elem =>
    refine ⟨enqueueTest, rfl, fun _ => fun _ => trivial, fun q => ?_⟩
    simp [enqueueTest, Program.eval_bind, PcqCall.body, pcqEnqueue]
  | pcqDequeue =>
    refine ⟨dequeueTest, rfl, fun _ => trivial, fun q => ?_⟩
    simp [dequeueTest, Program.eval_bind, PcqCall.body, pcqDequeue]

theorem plain_enqueueAccesses (elem : UInt64) : (enqueueAccesses elem).Plain := by
  apply Program.plain_bind (plain_tailAtEnd plain_tailNext)
  intro _
  apply Program.plain_bind (plain_loadField _)
  intro pcqTail
  apply Program.plain_bind (Program.plain_change _)
  intro _
  apply Program.plain_bind (plain_loadField _)
  intro pcqCurrentSize
  exact Program.plain_bind (plain_storeField _) fun _ => trivial

theorem plain_dequeueAccesses : dequeueAccesses.Plain := by
  apply Program.plain_bind plain_headNext
  intro pcqHead
  apply Program.plain_bind (Program.plain_look _)
  intro elem
  have hother : (headNext >>= fun _ => pure ()).Plain :=
    Program.plain_bind plain_headNext fun _ => Program.plain_pure ()
  apply Program.plain_bind (plain_tailAtEnd hother)
  intro _
  apply Program.plain_bind (plain_loadField _)
  intro pcqCurrentSize
  exact Program.plain_bind (plain_storeField _) fun _ => trivial

/-- On its own, a data step does what its function does. -/
theorem program_data (c : PcqCall) : ∃ p, c.program .data = some p ∧ p.Plain ∧
    ∀ q, p.eval q = execData q c >>= fun r => ok (.fetched r.1, r.2) := by
  cases c with
  | pcqEnqueue elem =>
    refine ⟨enqueueAccesses elem, rfl, plain_enqueueAccesses elem, fun q => ?_⟩
    simp only [enqueueAccesses, storeCell, Program.eval_bind, Program.eval_change, eval_tailAtEnd,
      eval_tailNext, eval_loadField, eval_storeField, Program.eval_pure, execData, enqueueData,
      Outcome.bind_assoc, ok_bind, pure_eq]
    split
    · simp only [ok_bind]
    · simp only [ok_bind]
  | pcqDequeue =>
    refine ⟨dequeueAccesses, rfl, plain_dequeueAccesses, fun q => ?_⟩
    simp only [dequeueAccesses, Program.eval_bind, Program.eval_look, eval_tailAtEnd,
      eval_headNext, eval_loadField, eval_storeField, Program.eval_pure, execData, dequeueData,
      Outcome.bind_assoc, ok_bind, pure_eq]
    apply Outcome.bind_congr
    intro elem _
    split
    · rfl
    · rfl

/-! ## Threads -/

/-- The queue and its threads, with what each has left of the test or data step that it is in, if it
is at a line with accesses. -/
structure FinePcq (ι : Type) extends Pcq ι where
  inside : ι → Option (Program PcQueue Found)
  /-- The data steps that are through, with what they fetched. -/
  log : List (PcqCall × Option UInt64)

namespace FinePcq

variable {ι : Type} [DecidableEq ι]

/-- Behind a successful `pcq_create`. -/
def initial {capacity : Nat} (block : Block (sizeMul capacity sizeofVoid))
    (calls : ι → List PcqCall) : FinePcq ι :=
  { toPcq := Pcq.initial block calls, inside := fun _ => none, log := [] }

/-- The other variables are those of `s`, and `t` is at the first access of its line. -/
def goto (f : FinePcq ι) (t : ι) (s : Pcq ι) : FinePcq ι :=
  { f with
    toPcq := s
    inside := fun u => if u = t then (s.thread t).program else f.inside u }

/-- Behind the last access of a line. -/
def leave (f : FinePcq ι) (t : ι) (found : Found) : Option (FinePcq ι) :=
  match f.thread t, found with
  | ⟨c :: rest, _⟩, .waits b =>
    some (f.goto t (f.toPcq.goto t ⟨c :: rest, if b then .wait else .lockEnd⟩ f.queue f.sync))
  | ⟨c :: rest, _⟩, .fetched elem =>
    some { f.goto t (f.toPcq.goto t ⟨c :: rest, .unlockFirst⟩ f.queue f.sync) with
      log := f.log ++ [(c, elem)] }
  | ⟨[], _⟩, _ => none

/-- The next step of thread `t`: an access, or, at a line that has none, that of `Pcq.step`. -/
def step (f : FinePcq ι) (t : ι) : Option (FinePcq ι) :=
  match f.inside t with
  | none => (f.toPcq.step t).map fun s => f.goto t s
  | some (.access a k) =>
    match a f.queue with
    | ok (b, queue) =>
      some { f with queue, inside := fun u => if u = t then some (k b) else f.inside u }
    | _ => none
  | some (.ret found) => f.leave t found
  | some _ => none

/-- The state behind the steps of `ts`. -/
def after (f : FinePcq ι) : List ι → Option (FinePcq ι)
  | [] => some f
  | t :: ts => (f.step t).bind fun f' => f'.after ts

/-- The access that thread `t` makes next is one outside the block. -/
def Outside (f : FinePcq ι) (t : ι) : Prop :=
  ∃ (β : Type) (a : PcQueue → Outcome (β × PcQueue)) (k : β → Program PcQueue Found),
    f.inside t = some (.access a k) ∧ ∀ r, a f.queue ≠ ok r

end FinePcq

/-! ## Lines without accesses -/

section
variable {ι : Type} [DecidableEq ι] {s s' : Pcq ι} {t : ι}

omit [DecidableEq ι] in
theorem program_none {c : PcqCall} {rest : List PcqCall} {line : Line}
    (h : Thread.program ⟨c :: rest, line⟩ = none) : line ≠ .test ∧ line ≠ .data := by
  constructor
  · rintro rfl
    obtain ⟨p, htest, -⟩ := program_test c
    rw [Thread.program, htest] at h
    cases h
  · rintro rfl
    obtain ⟨p, hdata, -⟩ := program_data c
    rw [Thread.program, hdata] at h
    cases h

/-- They do nothing to the queue, and whatever it holds they can be taken. -/
theorem step_queue (hp : (s.thread t).program = none) (h : s.step t = some s') (q : PcQueue) :
    s'.queue = s.queue ∧ ({ s with queue := q } : Pcq ι).step t = some { s' with queue := q } := by
  unfold Pcq.step at h ⊢
  cases hth : s.thread t with
  | mk calls line =>
    rw [hth] at h hp
    cases calls with
    | nil => cases h
    | cons c rest =>
      cases line with
      | test => exact absurd rfl (program_none hp).1
      | data => exact absurd rfl (program_none hp).2
      | lockSize =>
        simp only [Option.map_eq_some_iff] at h ⊢
        obtain ⟨y, hy, rfl⟩ := h
        exact ⟨rfl, y, hy, rfl⟩
      | wait =>
        cases h
        exact ⟨rfl, rfl⟩
      | asleep =>
        simp only [Option.map_eq_some_iff] at h ⊢
        obtain ⟨y, hy, rfl⟩ := h
        exact ⟨rfl, y, hy, rfl⟩
      | lockEnd =>
        simp only [Option.map_eq_some_iff] at h ⊢
        obtain ⟨y, hy, rfl⟩ := h
        exact ⟨rfl, y, hy, rfl⟩
      | unlockFirst =>
        cases h
        exact ⟨rfl, rfl⟩
      | unlockEnd =>
        cases h
        exact ⟨rfl, rfl⟩

omit [DecidableEq ι] in
theorem logged_outside (hp : (s.thread t).program = none) : s.logged t = [] := by
  cases hth : s.thread t with
  | mk calls line =>
    unfold Pcq.logged
    rw [hth] at hp ⊢
    cases calls with
    | nil => rfl
    | cons c rest =>
      cases line with
      | data => exact absurd rfl (program_none hp).2
      | _ => rfl

/-- A thread at a line with accesses is in the loop that waits or in its data step. -/
theorem program_line {th : Thread} {p : Program PcQueue Found} (h : th.program = some p) :
    ∃ c rest, th = ⟨c :: rest, .test⟩ ∨ th = ⟨c :: rest, .data⟩ := by
  obtain ⟨calls, line⟩ := th
  cases calls with
  | nil => cases h
  | cons c rest =>
    refine ⟨c, rest, ?_⟩
    cases line with
    | test => exact Or.inl rfl
    | data => exact Or.inr rfl
    | _ => cases c <;> cases h

omit [DecidableEq ι] in
/-- There, it has `pcq_current_size_lock`. -/
theorem program_locked (hG : Good s) {p : Program PcQueue Found}
    (h : (s.thread t).program = some p) : s.sync.owner .currentSizeLock = some t := by
  obtain ⟨c, rest, ht | ht⟩ := program_line h
  · exact hG.sizeLocked t c rest _ ht rfl
  · exact hG.sizeLocked t c rest _ ht rfl

omit [DecidableEq ι] in
theorem program_alone (hG : Good s) {u : ι} {p p' : Program PcQueue Found}
    (ht : (s.thread t).program = some p) (hu : (s.thread u).program = some p') : u = t := by
  have howner := program_locked hG ht
  rw [program_locked hG hu] at howner
  exact Option.some.inj howner

end

/-! ## The whole steps behind the accesses -/

/-- `f` has begun, and not finished, a test or a data step of `s` if a thread is at one; from the
queue `q₀` the data steps that are through led to that of `s`. -/
structure Partway {ι : Type} (q₀ : PcQueue) (f : FinePcq ι) (s : Pcq ι) : Prop where
  sync : f.sync = s.sync
  thread : f.thread = s.thread
  outside : ∀ t, (s.thread t).program = none → f.inside t = none
  inside : ∀ t p₀, (s.thread t).program = some p₀ →
    ∃ p, f.inside t = some p ∧ p.Plain ∧ p.eval f.queue = p₀.eval s.queue
  queue : (∀ t, f.inside t = none) → f.queue = s.queue
  results : run execData q₀ (f.log.map Prod.fst) = ok (f.log.map Prod.snd, s.queue)

section
variable {ι : Type} [DecidableEq ι] {q₀ : PcQueue} {f f' : FinePcq ι} {s s₁ : Pcq ι} {t : ι}

theorem thread_program_plain {th : Thread} {p : Program PcQueue Found} (h : th.program = some p) :
    p.Plain := by
  obtain ⟨c, rest, rfl | rfl⟩ := program_line h
  · obtain ⟨p', htest, hplain, -⟩ := program_test c
    rw [Thread.program, htest] at h
    cases h
    exact hplain
  · obtain ⟨p', hdata, hplain, -⟩ := program_data c
    rw [Thread.program, hdata] at h
    cases h
    exact hplain

omit [DecidableEq ι] in
/-- A thread with accesses to go is at a line that has some, and the others are not. -/
theorem Partway.alone (hS : Partway q₀ f s) (hG : Good s) {p : Program PcQueue Found}
    (h : f.inside t = some p) : (∃ p₀, (s.thread t).program = some p₀ ∧ p.Plain ∧
      p.eval f.queue = p₀.eval s.queue) ∧ ∀ u, u ≠ t → (s.thread u).program = none := by
  cases hp : (s.thread t).program with
  | none =>
    rw [hS.outside t hp] at h
    cases h
  | some p₀ =>
    obtain ⟨p', hinside, hplain, heval⟩ := hS.inside t p₀ hp
    rw [h] at hinside
    cases hinside
    refine ⟨⟨p₀, rfl, hplain, heval⟩, fun u hu => ?_⟩
    cases hpu : (s.thread u).program with
    | none => rfl
    | some p₁ => exact absurd (program_alone hG hp hpu) hu

/-- An access leaves the whole step to be done. -/
theorem partway_access (hS : Partway q₀ f s) (hG : Good s) {β : Type}
    {a : PcQueue → Outcome (β × PcQueue)} {k : β → Program PcQueue Found} {b : β} {queue : PcQueue}
    (h : f.inside t = some (.access a k)) (ha : a f.queue = ok (b, queue)) :
    Partway q₀
      { f with queue, inside := fun u => if u = t then some (k b) else f.inside u } s := by
  obtain ⟨⟨p₀, hp, hplain, heval⟩, halone⟩ := hS.alone hG h
  refine ⟨hS.sync, hS.thread, fun u hu => ?_, fun u p₁ hu => ?_, fun hall => ?_, hS.results⟩
  · have hut : u ≠ t := by
      rintro rfl
      rw [hp] at hu
      cases hu
    show (if u = t then some (k b) else f.inside u) = none
    rw [if_neg hut]
    exact hS.outside u hu
  · have hut : u = t := program_alone hG hp hu
    subst hut
    rw [hp] at hu
    cases hu
    refine ⟨k b, if_pos rfl, hplain b, ?_⟩
    show (k b).eval queue = _
    rw [← heval, Program.eval_access, ha, ok_bind]
  · have hself := hall t
    simp only [if_true] at hself
    cases hself

omit [DecidableEq ι] in
theorem Partway.program_eq (hS : Partway q₀ f s) (h : f.inside t = none) :
    (s.thread t).program = none := by
  cases hp : (s.thread t).program with
  | none => rfl
  | some p₀ =>
    obtain ⟨p, hinside, -⟩ := hS.inside t p₀ hp
    rw [h] at hinside
    cases hinside

/-- A step without accesses is one of the whole steps, whatever the queue is at. -/
theorem partway_outside (hS : Partway q₀ f s) (hG : Good s) (hnone : f.inside t = none)
    (h : f.toPcq.step t = some s₁) :
    ∃ s', s.step t = some s' ∧ Partway q₀ (f.goto t s₁) s' ∧ s.logged t = [] := by
  have hp := hS.program_eq hnone
  have hsame : (⟨s.queue, f.sync, f.thread⟩ : Pcq ι) = s := by
    rw [hS.sync, hS.thread]
  obtain ⟨hqueue, hstep⟩ := step_queue (by rw [hS.thread]; exact hp) h s.queue
  rw [hsame] at hstep
  obtain ⟨c, rest, hm⟩ := step_moved hG.sleeps hstep
  have hthread : ∀ u, u ≠ t → s₁.thread u = s.thread u := fun u hu => hm.thread_ne hu
  have hinside : ∀ u, u ≠ t → (f.goto t s₁).inside u = f.inside u := fun u hu => if_neg hu
  have hself : (f.goto t s₁).inside t = (s₁.thread t).program := if_pos rfl
  refine ⟨_, hstep, ⟨rfl, rfl, fun u hu => ?_, fun u p₁ hu => ?_, fun hall => ?_, hS.results⟩,
    logged_outside hp⟩
  · by_cases hut : u = t
    · rw [hut, hself]
      rw [hut] at hu
      exact hu
    · rw [hinside u hut]
      apply hS.outside
      rw [← hthread u hut]
      exact hu
  · by_cases hut : u = t
    · -- `t` begins: nobody else is inside, so the queue is that of the whole steps
      subst hut
      have hquiet : ∀ v, f.inside v = none := by
        intro v
        by_cases hvu : v = u
        · rw [hvu]
          exact hnone
        apply hS.outside
        cases hpv : (s.thread v).program with
        | none => rfl
        | some p₂ =>
          rw [← hthread v hvu] at hpv
          exact absurd (program_alone (good_moved hG hm) hu hpv) hvu
      refine ⟨p₁, hself.trans hu, thread_program_plain hu, ?_⟩
      show p₁.eval s₁.queue = p₁.eval s.queue
      rw [hqueue, hS.queue hquiet]
    · have hpu : (s.thread u).program = some p₁ := by
        rw [← hthread u hut]
        exact hu
      obtain ⟨p, hp₁, hplain, heval⟩ := hS.inside u p₁ hpu
      refine ⟨p, (hinside u hut).trans hp₁, hplain, ?_⟩
      show p.eval s₁.queue = p₁.eval s.queue
      rw [hqueue, heval]
  · show s₁.queue = s.queue
    rw [hqueue]
    apply hS.queue
    intro u
    by_cases hut : u = t
    · rw [hut]
      exact hnone
    · rw [← hinside u hut]
      exact hall u

/-- Behind its last access a thread is at a line without any, and so are the others. -/
theorem partway_left (hS : Partway q₀ f s)
    (halone : ∀ u, u ≠ t → (s.thread u).program = none) {th : Thread} (hth : th.program = none)
    {queue : PcQueue} (log : List (PcqCall × Option UInt64))
    (hresults : run execData q₀ (log.map Prod.fst) = ok (log.map Prod.snd, queue)) :
    Partway q₀ { f.goto t (s.goto t th queue s.sync) with log } (s.goto t th queue s.sync) := by
  have hprogram : ∀ u, ((s.goto t th queue s.sync).thread u).program = none := by
    intro u
    by_cases hut : u = t
    · rw [hut, Pcq.goto_thread_self]
      exact hth
    · rw [Pcq.goto_thread_ne _ _ _ _ hut]
      exact halone u hut
  refine ⟨rfl, rfl, fun u _ => ?_, fun u p₁ hu => ?_, fun _ => rfl, hresults⟩
  · by_cases hut : u = t
    · rw [hut]
      exact (if_pos rfl).trans (hprogram t)
    · exact (if_neg hut).trans (hS.outside u (halone u hut))
  · rw [hprogram u] at hu
    cases hu

/-- The last access makes the whole step. -/
theorem partway_leave (hS : Partway q₀ f s) (hG : Good s) {found : Found}
    (hinside : f.inside t = some (.ret found)) (h : f.leave t found = some f') :
    ∃ s', s.step t = some s' ∧ Partway q₀ f' s' ∧ f'.log = f.log ++ s.logged t := by
  obtain ⟨⟨p₀, hp, -, heval⟩, halone⟩ := hS.alone hG hinside
  rw [Program.eval_ret] at heval
  have hgoto : ∀ th queue, f.toPcq.goto t th queue f.sync = s.goto t th queue s.sync := by
    intro th queue
    unfold Pcq.goto
    rw [hS.sync, hS.thread]
  obtain ⟨c, rest, ht | ht⟩ := program_line hp
  · obtain ⟨p, htest, -, hspec⟩ := program_test c
    rw [ht, Thread.program, htest] at hp
    cases hp
    rw [hspec, ok.injEq, Prod.mk.injEq] at heval
    obtain ⟨rfl, hqueue⟩ := heval
    simp only [FinePcq.leave, hS.thread, ht, Option.some.injEq] at h
    subst h
    refine ⟨s.goto t ⟨c :: rest, if c.body.waits s.queue then .wait else .lockEnd⟩ s.queue s.sync,
      ?_, ?_, ?_⟩
    · unfold Pcq.step
      rw [ht]
    · rw [hgoto, hqueue]
      refine partway_left hS halone ?_ f.log hS.results
      split
      · cases c <;> rfl
      · cases c <;> rfl
    · rw [logged_ne ht nofun, List.append_nil]
      rfl
  · obtain ⟨p, hdata, -, hspec⟩ := program_data c
    rw [ht, Thread.program, hdata] at hp
    cases hp
    rw [hspec, eq_comm, bind_eq_ok] at heval
    obtain ⟨⟨r, q⟩, hexec, heval⟩ := heval
    rw [ok.injEq, Prod.mk.injEq] at heval
    obtain ⟨rfl, rfl⟩ := heval
    obtain ⟨hr, hq⟩ := execData_fetched hexec
    simp only [FinePcq.leave, hS.thread, ht, Option.some.injEq] at h
    subst h
    refine ⟨s.goto t ⟨c :: rest, .unlockFirst⟩ f.queue s.sync, ?_, ?_, ?_⟩
    · unfold Pcq.step
      rw [ht, hq]
    · rw [hgoto]
      refine partway_left hS halone ?_ _ ?_
      · cases c <;> rfl
      · rw [List.map_append, List.map_append, List.map_singleton, List.map_singleton,
          run_append_singleton, hS.results, ok_bind]
        simp only [hexec, ok_bind]
    · rw [logged_data ht, hr]

/-- A step is an access inside a whole step, or is one. -/
theorem partway_step (hS : Partway q₀ f s) (hG : Good s) (h : f.step t = some f') :
    (Partway q₀ f' s ∧ f'.log = f.log) ∨
      ∃ s', s.step t = some s' ∧ Partway q₀ f' s' ∧ f'.log = f.log ++ s.logged t := by
  unfold FinePcq.step at h
  split at h
  next hnone =>
    right
    obtain ⟨s₁, hs₁, rfl⟩ := Option.map_eq_some_iff.mp h
    obtain ⟨s', hs', hS', hlog⟩ := partway_outside hS hG hnone hs₁
    refine ⟨s', hs', hS', ?_⟩
    rw [hlog, List.append_nil]
    rfl
  next β a k hinside =>
    left
    split at h
    next b queue ha =>
      cases h
      exact ⟨partway_access hS hG hinside ha, rfl⟩
    · cases h
  next found hinside => exact Or.inr (partway_leave hS hG hinside h)
  · cases h

/-- Where no access can be made, and none is outside the block, no whole step can be made. -/
theorem partway_stuck (hS : Partway q₀ f s) (hstuck : ∀ t, f.step t = none) :
    (∀ t, s.step t = none) ∨ ∃ t, f.Outside t := by
  by_cases hout : ∃ t, f.Outside t
  · exact Or.inr hout
  left
  intro t
  have hnone := hstuck t
  unfold FinePcq.step at hnone
  cases hp : (s.thread t).program with
  | none =>
    rw [hS.outside t hp, Option.map_eq_none_iff] at hnone
    have hsame : (⟨f.queue, s.sync, s.thread⟩ : Pcq ι) = f.toPcq := by
      rw [← hS.sync, ← hS.thread]
    by_contra hne
    obtain ⟨s', hs'⟩ := Option.ne_none_iff_exists'.mp hne
    have hstep := (step_queue hp hs' f.queue).2
    rw [hsame, hnone] at hstep
    cases hstep
  | some p₀ =>
    obtain ⟨p, hinside, hplain, -⟩ := hS.inside t p₀ hp
    rw [hinside] at hnone
    cases p with
    | ret found =>
      obtain ⟨c, rest, ht | ht⟩ := program_line hp
      · cases found <;> simp [FinePcq.leave, hS.thread, ht] at hnone
      · cases found <;> simp [FinePcq.leave, hS.thread, ht] at hnone
    | access a k =>
      refine absurd ⟨t, _, a, k, hinside, fun r hr => ?_⟩ hout
      simp only [hr] at hnone
      cases hnone
    | lock k => exact hplain.elim
    | unlock k => exact hplain.elim

end

/-! ## Runs -/

/-- A run of accesses from `s₀` to `f` goes as the whole steps of `ts`: it has their locks and lines
and their log; what it fetched, and the queue, are those of its data steps made one after the
other; a thread inside a test or a data step has the lock, and has the rest of that to do; and it
stops where they stop, or where an access is outside the block. -/
structure AsWhole {ι : Type} [DecidableEq ι] (s₀ : Pcq ι) (f : FinePcq ι) (ts : List ι) :
    Prop where
  schedule : s₀.Schedule (fun _ _ => True) ts
  sync : f.sync = (s₀.after ts).sync
  thread : f.thread = (s₀.after ts).thread
  log : f.log = s₀.log ts
  results : run execData s₀.queue (f.log.map Prod.fst) =
    ok (f.log.map Prod.snd, (s₀.after ts).queue)
  queue : (∀ t, f.inside t = none) → f.queue = (s₀.after ts).queue
  inside : ∀ t p, f.inside t = some p → f.sync.owner .currentSizeLock = some t ∧
    ∃ p₀, (f.thread t).program = some p₀ ∧ p.eval f.queue = p₀.eval (s₀.after ts).queue
  stops : (∀ t, f.step t = none) →
    (∀ t, (s₀.after ts).step t = none) ∨ ∃ t, f.Outside t

section
variable {ι : Type} [DecidableEq ι] {q₀ : PcQueue} {f f' : FinePcq ι} {s : Pcq ι}

theorem partway_after {ts : List ι} (hS : Partway q₀ f s) (hG : Good s)
    (h : f.after ts = some f') : ∃ ts', s.Schedule (fun _ _ => True) ts' ∧ Good (s.after ts') ∧
      Partway q₀ f' (s.after ts') ∧ f'.log = f.log ++ s.log ts' := by
  induction ts generalizing f s with
  | nil =>
    cases h
    exact ⟨[], trivial, hG, hS, (List.append_nil _).symm⟩
  | cons t ts ih =>
    obtain ⟨f₁, hstep, hrest⟩ := Option.bind_eq_some_iff.mp h
    rcases partway_step hS hG hstep with ⟨hS₁, hlog₁⟩ | ⟨s₁, hs₁, hS₁, hlog₁⟩
    · obtain ⟨ts', hts', hG', hS', hlog⟩ := ih hS₁ hG hrest
      rw [hlog₁] at hlog
      exact ⟨ts', hts', hG', hS', hlog⟩
    · obtain ⟨c, rest, hm⟩ := step_moved hG.sleeps hs₁
      obtain ⟨ts', hts', hG', hS', hlog⟩ := ih hS₁ (good_moved hG hm) hrest
      have hget : (s.step t).getD s = s₁ := by rw [hs₁, Option.getD_some]
      refine ⟨t :: ts', ⟨trivial, ?_, ?_⟩, ?_, ?_, ?_⟩
      · rw [hs₁]
        rfl
      · rw [hget]
        exact hts'
      · rw [Pcq.after, hget]
        exact hG'
      · rw [Pcq.after, hget]
        exact hS'
      · rw [hlog, hlog₁, Pcq.log, hget, List.append_assoc]

omit [DecidableEq ι] in
theorem partway_initial {capacity : Nat} (block : Block (sizeMul capacity sizeofVoid))
    (calls : ι → List PcqCall) : Partway (Pcq.initial block calls).queue
      (FinePcq.initial block calls) (Pcq.initial block calls) where
  sync := rfl
  thread := rfl
  outside _ _ := rfl
  inside t p₀ h := by
    obtain ⟨c, rest, ht | ht⟩ := program_line h
    · cases (Thread.mk.inj ht).2
    · cases (Thread.mk.inj ht).2
  queue _ := rfl
  results := rfl

/-- In every order of the single loads and stores, a run of the queue is one of whole steps. -/
theorem accesses_run {capacity : Nat} (block : Block (sizeMul capacity sizeofVoid))
    (calls : ι → List PcqCall) {ts : List ι}
    (h : (FinePcq.initial block calls).after ts = some f) :
    ∃ ts', AsWhole (Pcq.initial block calls) f ts' := by
  obtain ⟨ts', hts', hG, hS, hlog⟩ :=
    partway_after (partway_initial block calls) (good_initial block calls) h
  refine ⟨ts', hts', hS.sync, hS.thread, hlog, hS.results, hS.queue, fun t p hp => ?_,
    fun hstuck => partway_stuck hS hstuck⟩
  obtain ⟨⟨p₀, hp₀, -, heval⟩, -⟩ := hS.alone hG hp
  refine ⟨?_, p₀, ?_, heval⟩
  · rw [hS.sync]
    exact program_locked hG hp₀
  · rw [hS.thread]
    exact hp₀

end

/-- The dequeue is inside its test when the enqueue returns. -/
def mixedSteps : List Bool :=
  [(false, 15), (true, 2), (false, 1), (true, 14)].flatMap fun e => List.replicate e.2 e.1

theorem accesses_run_mixed : ∃ f : FinePcq Bool,
    f.log = [(.pcqEnqueue 7, none), (.pcqDequeue, some 7)] ∧
      ∃ ts, AsWhole (Pcq.initial twoElements twoAndTwo) f ts := by
  have hrun : ((FinePcq.initial twoElements twoAndTwo).after mixedSteps).map FinePcq.log =
      some [(.pcqEnqueue 7, none), (.pcqDequeue, some 7)] := by decide +kernel
  obtain ⟨f, hafter, hlog⟩ := Option.map_eq_some_iff.mp hrun
  exact ⟨f, hlog, accesses_run twoElements twoAndTwo hafter⟩

/-- Two enqueues that the mutex did not keep apart: both load the same size. -/
example : ((FinePcq.mk (ι := Bool) ⟨(pcqCreate 2 (some twoElements)).2, .init,
      fun _ => ⟨[.pcqEnqueue 7], .data⟩⟩ (fun _ => some (enqueueAccesses 7)) []).after
    ((List.replicate 9 [true, false]).flatten)).map
      (fun f => (f.log.length, f.queue.pcqCurrentSize)) = some (2, 1) := by decide +kernel

end Mbroker
