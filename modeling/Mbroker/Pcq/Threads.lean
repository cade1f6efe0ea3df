import Mbroker.Lib.Sync
import Mbroker.Pcq.Queue

/-!
# Threads at the queue

Any number of threads, each with a sequence of calls, take the steps of `pcq_enqueue`
and `pcq_dequeue` in any order.  The two functions have one shape (`Body`).  They differ
in what they unlock first: `pcq_enqueue` gives `pcq_current_size_lock` back,
`pcq_dequeue` unlocks a mutex that it does not have and keeps it.  Nothing signals.

The test of a loop and the data step are one step each; `Pcq.Accesses` takes them apart.
Memory is flat here: a store outside the block is a store (`PcQueue.enqueued`).

    not_stuck : in a run that meets `Harmless`, no state with an unfinished enqueue and
      an unfinished dequeue is stuck
-/

namespace Mbroker

open CLib CLib.Outcome

/-! ## The two functions -/

inductive PcqMutex where
  | currentSizeLock
  | headLock
  | tailLock
  | pusherCondvarLock
  | popperCondvarLock
deriving DecidableEq

inductive PcqCondvar where
  | pusherCondvar
  | popperCondvar
deriving DecidableEq

/-- The data step of `pcq_enqueue`. -/
def PcQueue.enqueued (q : PcQueue) (elem : UInt64) : PcQueue :=
  let pcqTail := if q.pcqTail = q.pcqCapacity then 0 else sizeAdd q.pcqTail 1
  { q with
    pcqTail
    pcqBuffer := q.pcqBuffer.set pcqTail elem
    pcqCurrentSize := sizeAdd q.pcqCurrentSize 1 }

/-- The data step of `pcq_dequeue`. -/
def PcQueue.dequeued (q : PcQueue) : PcQueue :=
  let q := { q with pcqHead := sizeAdd q.pcqHead 1 }
  let q :=
    if q.pcqTail = q.pcqCapacity then { q with pcqTail := 0 }
    else { q with pcqHead := sizeAdd q.pcqHead 1 }
  { q with pcqCurrentSize := sizeSub q.pcqCurrentSize 1 }

theorem enqueueData_eq_enqueued {q q' : PcQueue} {elem : UInt64}
    (h : enqueueData q elem = ok q') : q' = q.enqueued elem := by
  unfold enqueueData at h
  unfold PcQueue.enqueued
  generalize (if q.pcqTail = q.pcqCapacity then 0 else sizeAdd q.pcqTail 1) = pcqTail at h ⊢
  simp only [bind_eq_ok, Region.store, pure_eq, ok.injEq] at h
  obtain ⟨buffer, hstore, rfl⟩ := h
  split at hstore
  · simp only [ok.injEq] at hstore
    subst hstore
    rfl
  · cases hstore

theorem dequeueData_eq_dequeued {q q' : PcQueue} {elem : UInt64}
    (h : dequeueData q = ok (elem, q')) : q' = q.dequeued := by
  simp only [dequeueData, bind_eq_ok, pure_eq, ok.injEq, Prod.mk.injEq] at h
  obtain ⟨v, -, -, rfl⟩ := h
  rfl

/-- The parameters of a function that locks `pcq_current_size_lock`, waits in a loop, and then
locks `endLock` for its data step. -/
structure Body where
  waits : PcQueue → Bool
  condvar : PcqCondvar
  condvarLock : PcqMutex
  endLock : PcqMutex
  data : PcQueue → PcQueue
  firstUnlock : PcqMutex

def pcqEnqueue (elem : UInt64) : Body where
  waits q := q.pcqCurrentSize = q.pcqCapacity
  condvar := .pusherCondvar
  condvarLock := .pusherCondvarLock
  endLock := .tailLock
  data q := q.enqueued elem
  firstUnlock := .currentSizeLock

def pcqDequeue : Body where
  waits q := q.pcqCurrentSize = 0
  condvar := .popperCondvar
  condvarLock := .popperCondvarLock
  endLock := .headLock
  data q := q.dequeued
  firstUnlock := .popperCondvarLock -- not `pcq_current_size_lock`

def PcqCall.body : PcqCall → Body
  | .pcqEnqueue elem => Mbroker.pcqEnqueue elem
  | .pcqDequeue => Mbroker.pcqDequeue

/-- Where a thread is in the call it makes. -/
inductive Line where
  | lockSize
  | test
  | wait
  | asleep
  | lockEnd
  | data
  | unlockFirst
  | unlockEnd
deriving DecidableEq

/-- The first of `calls` is the one being made. -/
structure Thread where
  calls : List PcqCall
  line : Line
deriving DecidableEq

structure Pcq (ι : Type) where
  queue : PcQueue
  sync : Sync PcqMutex PcqCondvar ι
  thread : ι → Thread

variable {ι : Type} [DecidableEq ι]

/-- Thread `t` goes on at `th`. -/
def Pcq.goto (s : Pcq ι) (t : ι) (th : Thread) (queue : PcQueue)
    (sync : Sync PcqMutex PcqCondvar ι) : Pcq ι :=
  ⟨queue, sync, fun u => if u = t then th else s.thread u⟩

/-- The next step of thread `t`, if it can take one. -/
def Pcq.step (s : Pcq ι) (t : ι) : Option (Pcq ι) :=
  match s.thread t with
  | ⟨[], _⟩ => none
  | ⟨c :: rest, line⟩ =>
    match line with
    | .lockSize =>
      (s.sync.lock .currentSizeLock t).map fun y => s.goto t ⟨c :: rest, .test⟩ s.queue y
    | .test =>
      some (s.goto t ⟨c :: rest, if c.body.waits s.queue then .wait else .lockEnd⟩ s.queue s.sync)
    | .wait =>
      some (s.goto t ⟨c :: rest, .asleep⟩ s.queue
        (s.sync.sleep c.body.condvar c.body.condvarLock t))
    | .asleep =>
      (s.sync.resume c.body.condvar c.body.condvarLock t).map fun y =>
        s.goto t ⟨c :: rest, .test⟩ s.queue y
    | .lockEnd =>
      (s.sync.lock c.body.endLock t).map fun y => s.goto t ⟨c :: rest, .data⟩ s.queue y
    | .data => some (s.goto t ⟨c :: rest, .unlockFirst⟩ (c.body.data s.queue) s.sync)
    | .unlockFirst =>
      some (s.goto t ⟨c :: rest, .unlockEnd⟩ s.queue (s.sync.unlock c.body.firstUnlock))
    | .unlockEnd => some (s.goto t ⟨rest, .lockSize⟩ s.queue (s.sync.unlock c.body.endLock))

/-- Behind a successful `pcq_create`. -/
def Pcq.initial {capacity : Nat} (block : Block (sizeMul capacity sizeofVoid))
    (calls : ι → List PcqCall) : Pcq ι :=
  ⟨(pcqCreate capacity (some block)).2, .init, fun t => ⟨calls t, .lockSize⟩⟩

/-- Thread `t` is in a call of `op`. -/
def Pcq.Unfinished (s : Pcq ι) (t : ι) (op : PcqOp) : Prop :=
  ∃ c, (s.thread t).calls.head? = some c ∧ c.op = op

def Pcq.Stuck (s : Pcq ι) : Prop :=
  (∃ t, s.Unfinished t .enqueue) ∧ (∃ t, s.Unfinished t .dequeue) ∧ ∀ t, s.step t = none

/-! ## Runs -/

/-- Steps of threads in any order, each allowed in the state it is taken in. -/
inductive Pcq.Reaches (ok : Pcq ι → ι → Prop) (s₀ : Pcq ι) : Pcq ι → Prop
  | refl : Reaches ok s₀ s₀
  | tail {s s' : Pcq ι} {t : ι} (h : Reaches ok s₀ s) (hok : ok s t) (hs : s.step t = some s') :
      Reaches ok s₀ s'

/-- The first call of a thread that has not yet taken `pcq_current_size_lock`. -/
def Thread.coming (th : Thread) : Option PcqCall :=
  if th.line = .lockSize then th.calls.head? else th.calls.tail.head?

def Pcq.Coming (s : Pcq ι) (t : ι) (op : PcqOp) : Prop :=
  ∃ c, (s.thread t).coming = some c ∧ c.op = op

def PcqOp.other : PcqOp → PcqOp
  | .enqueue => .dequeue
  | .dequeue => .enqueue

/-- Calls of both kinds are to come, `t` having taken the lock for the first of its own. -/
def Pcq.BothComing (s : Pcq ι) : Prop := (∃ u, s.Coming u .enqueue) ∧ ∃ u, s.Coming u .dequeue

/-- When `t` takes `pcq_current_size_lock` for a call that will wait, no other thread comes with
the other kind of call; when it is for a dequeue that goes through, the calls that come are of one
kind. -/
def Harmless (s : Pcq ι) (t : ι) : Prop :=
  ∀ c rest, s.thread t = ⟨c :: rest, .lockSize⟩ →
    (c.body.waits s.queue = true → ∀ u, u ≠ t → ¬ s.Coming u c.op.other) ∧
    (c.op = .dequeue → c.body.waits s.queue = false →
      ¬ (s.goto t ⟨c :: rest, .test⟩ s.queue s.sync).BothComing)

/-! ## What a step does -/

@[simp] theorem Pcq.goto_thread_self (s : Pcq ι) (t : ι) (th : Thread) (q : PcQueue)
    (y : Sync PcqMutex PcqCondvar ι) : (s.goto t th q y).thread t = th := if_pos rfl

theorem Pcq.goto_thread_ne (s : Pcq ι) {t u : ι} (th : Thread) (q : PcQueue)
    (y : Sync PcqMutex PcqCondvar ι) (h : u ≠ t) : (s.goto t th q y).thread u = s.thread u :=
  if_neg h

@[simp] theorem Pcq.goto_queue (s : Pcq ι) (t : ι) (th : Thread) (q : PcQueue)
    (y : Sync PcqMutex PcqCondvar ι) : (s.goto t th q y).queue = q := rfl

@[simp] theorem Pcq.goto_sync (s : Pcq ι) (t : ι) (th : Thread) (q : PcQueue)
    (y : Sync PcqMutex PcqCondvar ι) : (s.goto t th q y).sync = y := rfl

/-- The steps of a thread in call `c`; a sleeping thread takes none. -/
inductive Moved (s : Pcq ι) (t : ι) (c : PcqCall) (rest : List PcqCall) : Pcq ι → Prop
  | lockSize (ht : s.thread t = ⟨c :: rest, .lockSize⟩)
      (hfree : s.sync.owner .currentSizeLock = none) :
      Moved s t c rest (s.goto t ⟨c :: rest, .test⟩ s.queue (s.sync.locked .currentSizeLock t))
  | testWaits (ht : s.thread t = ⟨c :: rest, .test⟩) (hw : c.body.waits s.queue = true) :
      Moved s t c rest (s.goto t ⟨c :: rest, .wait⟩ s.queue s.sync)
  | testGoes (ht : s.thread t = ⟨c :: rest, .test⟩) (hw : c.body.waits s.queue = false) :
      Moved s t c rest (s.goto t ⟨c :: rest, .lockEnd⟩ s.queue s.sync)
  | wait (ht : s.thread t = ⟨c :: rest, .wait⟩) :
      Moved s t c rest (s.goto t ⟨c :: rest, .asleep⟩ s.queue
        (s.sync.sleep c.body.condvar c.body.condvarLock t))
  | lockEnd (ht : s.thread t = ⟨c :: rest, .lockEnd⟩) (hfree : s.sync.owner c.body.endLock = none) :
      Moved s t c rest (s.goto t ⟨c :: rest, .data⟩ s.queue (s.sync.locked c.body.endLock t))
  | data (ht : s.thread t = ⟨c :: rest, .data⟩) :
      Moved s t c rest (s.goto t ⟨c :: rest, .unlockFirst⟩ (c.body.data s.queue) s.sync)
  | unlockFirst (ht : s.thread t = ⟨c :: rest, .unlockFirst⟩) :
      Moved s t c rest (s.goto t ⟨c :: rest, .unlockEnd⟩ s.queue (s.sync.unlock c.body.firstUnlock))
  | unlockEnd (ht : s.thread t = ⟨c :: rest, .unlockEnd⟩) :
      Moved s t c rest (s.goto t ⟨rest, .lockSize⟩ s.queue (s.sync.unlock c.body.endLock))

/-- The threads that sleep were not woken. -/
def Sleeps (s : Pcq ι) : Prop :=
  ∀ t c rest, s.thread t = ⟨c :: rest, .asleep⟩ → t ∈ s.sync.waiting c.body.condvar

theorem step_moved {s s' : Pcq ι} {t : ι} (hsleep : Sleeps s) (h : s.step t = some s') :
    ∃ c rest, Moved s t c rest s' := by
  unfold Pcq.step at h
  split at h
  · cases h
  next c rest line ht =>
  refine ⟨c, rest, ?_⟩
  cases line with
  | lockSize =>
    simp only [Option.map_eq_some_iff, Sync.lock_eq_some] at h
    obtain ⟨y, ⟨hfree, rfl⟩, rfl⟩ := h
    exact .lockSize ht hfree
  | test =>
    simp only [Option.some.injEq] at h
    subst h
    split
    · next hw => exact .testWaits ht hw
    · next hw => exact .testGoes ht (by simpa using hw)
  | wait =>
    simp only [Option.some.injEq] at h
    subst h
    exact .wait ht
  | asleep =>
    rw [Sync.resume_waiting (hsleep t c rest ht)] at h
    cases h
  | lockEnd =>
    simp only [Option.map_eq_some_iff, Sync.lock_eq_some] at h
    obtain ⟨y, ⟨hfree, rfl⟩, rfl⟩ := h
    exact .lockEnd ht hfree
  | data =>
    simp only [Option.some.injEq] at h
    subst h
    exact .data ht
  | unlockFirst =>
    simp only [Option.some.injEq] at h
    subst h
    exact .unlockFirst ht
  | unlockEnd =>
    simp only [Option.some.injEq] at h
    subst h
    exact .unlockEnd ht

/-! ## Who has which mutex -/

/-- In the loop that waits. -/
def Line.waiting : Line → Bool
  | .test | .wait | .asleep => true
  | _ => false

/-- In a call of `op`, with `pcq_current_size_lock`. -/
def Line.sizeLocked (op : PcqOp) : Line → Bool
  | .lockSize => false
  | .unlockEnd => op = .dequeue
  | _ => true

/-- With the mutex of the data step. -/
def Line.endLocked : Line → Bool
  | .data | .unlockFirst | .unlockEnd => true
  | _ => false

structure Good (s : Pcq ι) : Prop where
  sleeps : Sleeps s
  sizeLocked : ∀ t c rest l, s.thread t = ⟨c :: rest, l⟩ → l.sizeLocked c.op = true →
    s.sync.owner .currentSizeLock = some t
  sizeOwner : ∀ t c rest, s.sync.owner .currentSizeLock = some t →
    s.thread t = ⟨c :: rest, .unlockEnd⟩ → c.op = .dequeue
  endOwner : ∀ t m, m = .tailLock ∨ m = .headLock → s.sync.owner m = some t →
    ∃ c rest l, s.thread t = ⟨c :: rest, l⟩ ∧ l.endLocked = true ∧ c.body.endLock = m
  waits : ∀ t c rest l, s.thread t = ⟨c :: rest, l⟩ → l = .wait ∨ l = .asleep →
    c.body.waits s.queue = true

section
variable (c : PcqCall)

theorem condvarLock_ne : c.body.condvarLock ≠ .currentSizeLock ∧
    c.body.condvarLock ≠ .tailLock ∧ c.body.condvarLock ≠ .headLock := by
  cases c with
  | pcqEnqueue elem => exact ⟨nofun, nofun, nofun⟩
  | pcqDequeue => exact ⟨nofun, nofun, nofun⟩

theorem endLock_ne : c.body.endLock ≠ .currentSizeLock := by
  cases c with
  | pcqEnqueue elem => exact nofun
  | pcqDequeue => exact nofun

theorem firstUnlock_ne : c.body.firstUnlock ≠ .tailLock ∧ c.body.firstUnlock ≠ .headLock := by
  cases c with
  | pcqEnqueue elem => exact ⟨nofun, nofun⟩
  | pcqDequeue => exact ⟨nofun, nofun⟩

theorem firstUnlock_dequeue (h : c.op = .dequeue) : c.body.firstUnlock ≠ .currentSizeLock := by
  cases c with
  | pcqEnqueue elem => cases h
  | pcqDequeue => exact nofun

theorem firstUnlock_enqueue (h : c.op ≠ .dequeue) : c.body.firstUnlock = .currentSizeLock := by
  cases c with
  | pcqEnqueue elem => rfl
  | pcqDequeue => exact absurd rfl h

end

section
variable {s s' : Pcq ι} {t : ι} {c : PcqCall} {rest : List PcqCall}

theorem Moved.thread_ne (h : Moved s t c rest s') {u : ι} (hu : u ≠ t) :
    s'.thread u = s.thread u := by
  cases h <;> exact Pcq.goto_thread_ne s _ _ _ hu

theorem Moved.thread (h : Moved s t c rest s') :
    s.thread t = ⟨c :: rest, (s.thread t).line⟩ := by
  cases h with
  | _ ht => rw [ht]

/-- The owner of `pcq_current_size_lock` changes when it is taken, and when an enqueue gives it
back. -/
theorem Moved.sizeOwner (h : Moved s t c rest s') :
    ((s.thread t).line = .lockSize ∧ s.sync.owner .currentSizeLock = none ∧
      s'.sync.owner .currentSizeLock = some t) ∨
    ((s.thread t).line = .unlockFirst ∧ c.op ≠ .dequeue ∧
      s'.sync.owner .currentSizeLock = none) ∨
    ((s.thread t).line ≠ .lockSize ∧
      s'.sync.owner .currentSizeLock = s.sync.owner .currentSizeLock) := by
  cases h with
  | lockSize ht hfree => exact Or.inl ⟨by rw [ht], hfree, Sync.locked_owner_self _ t⟩
  | testWaits ht hw => exact Or.inr (Or.inr ⟨by rw [ht]; exact nofun, rfl⟩)
  | testGoes ht hw => exact Or.inr (Or.inr ⟨by rw [ht]; exact nofun, rfl⟩)
  | wait ht =>
    exact Or.inr (Or.inr ⟨by rw [ht]; exact nofun, Sync.unlock_owner_ne (condvarLock_ne c).1.symm⟩)
  | lockEnd ht hfree =>
    exact Or.inr (Or.inr ⟨by rw [ht]; exact nofun, Sync.locked_owner_ne t (endLock_ne c).symm⟩)
  | data ht => exact Or.inr (Or.inr ⟨by rw [ht]; exact nofun, rfl⟩)
  | unlockFirst ht =>
    by_cases hop : c.op = .dequeue
    · exact Or.inr (Or.inr ⟨by rw [ht]; exact nofun,
        Sync.unlock_owner_ne (firstUnlock_dequeue c hop).symm⟩)
    · refine Or.inr (Or.inl ⟨by rw [ht], hop, ?_⟩)
      rw [Pcq.goto_sync, firstUnlock_enqueue c hop]
      exact Sync.unlock_owner_self _
  | unlockEnd ht =>
    exact Or.inr (Or.inr ⟨by rw [ht]; exact nofun, Sync.unlock_owner_ne (endLock_ne c).symm⟩)

/-- The queue changes in the data step, under `pcq_current_size_lock`. -/
theorem Moved.queue (hG : Good s) (h : Moved s t c rest s') :
    s'.queue = s.queue ∨ s.sync.owner .currentSizeLock = some t := by
  cases h with
  | data ht => exact Or.inr (hG.sizeLocked t c rest _ ht rfl)
  | _ => exact Or.inl rfl

theorem sleeps_moved (hG : Good s) (h : Moved s t c rest s') : Sleeps s' := by
  intro u c' rest' hu
  by_cases hut : u = t
  · subst hut
    cases h with
    | wait ht =>
      rw [Pcq.goto_thread_self] at hu
      cases hu
      exact Sync.mem_sleep_waiting.mpr (Or.inl ⟨rfl, rfl⟩)
    | _ =>
      rw [Pcq.goto_thread_self] at hu
      cases hu
  · rw [h.thread_ne hut] at hu
    have hold := hG.sleeps u c' rest' hu
    cases h with
    | wait ht => exact Sync.mem_sleep_waiting.mpr (Or.inr hold)
    | _ => exact hold

theorem sizeLocked_moved (hG : Good s) (h : Moved s t c rest s') {u : ι} {c' : PcqCall}
    {rest' : List PcqCall} {l : Line} (hu : s'.thread u = ⟨c' :: rest', l⟩)
    (hl : l.sizeLocked c'.op = true) : s'.sync.owner .currentSizeLock = some u := by
  by_cases hut : u = t
  · subst hut
    -- a thread that goes on keeps the lock, until an enqueue is at its end
    have hkeep : ∀ l₀, s.thread u = ⟨c :: rest, l₀⟩ → l₀.sizeLocked c.op = true →
        (l₀ ≠ .unlockFirst ∨ c.op = .dequeue) → s'.sync.owner .currentSizeLock = some u := by
      intro l₀ ht hl₀ hcase
      have hold := hG.sizeLocked u c rest l₀ ht hl₀
      rcases h.sizeOwner with ⟨-, hfree, -⟩ | ⟨hline, hop, -⟩ | ⟨-, hsame⟩
      · rw [hfree] at hold
        cases hold
      · rw [ht] at hline
        rcases hcase with hne | hdeq
        · exact absurd hline hne
        · exact absurd hdeq hop
      · rw [hsame, hold]
    cases h with
    | lockSize ht hfree => exact Sync.locked_owner_self _ u
    | testWaits ht hw => exact hkeep _ ht rfl (Or.inl nofun)
    | testGoes ht hw => exact hkeep _ ht rfl (Or.inl nofun)
    | wait ht => exact hkeep _ ht rfl (Or.inl nofun)
    | lockEnd ht hfree => exact hkeep _ ht rfl (Or.inl nofun)
    | data ht => exact hkeep _ ht rfl (Or.inl nofun)
    | unlockFirst ht =>
      rw [Pcq.goto_thread_self] at hu
      cases hu
      exact hkeep _ ht rfl (Or.inr (of_decide_eq_true hl))
    | unlockEnd ht =>
      rw [Pcq.goto_thread_self] at hu
      cases hu
      cases hl
  · rw [h.thread_ne hut] at hu
    have hold := hG.sizeLocked u c' rest' l hu hl
    rcases h.sizeOwner with ⟨-, hfree, -⟩ | ⟨hline, -, -⟩ | ⟨-, hsame⟩
    · rw [hfree] at hold
      cases hold
    · rw [hG.sizeLocked t c rest _ h.thread (by rw [hline]; rfl)] at hold
      cases hold
      exact absurd rfl hut
    · rw [hsame, hold]

theorem sizeOwner_moved (hG : Good s) (h : Moved s t c rest s') {u : ι} {c' : PcqCall}
    {rest' : List PcqCall} (ho : s'.sync.owner .currentSizeLock = some u)
    (hu : s'.thread u = ⟨c' :: rest', .unlockEnd⟩) : c'.op = .dequeue := by
  by_cases hut : u = t
  · subst hut
    cases h with
    | unlockFirst ht =>
      rw [Pcq.goto_thread_self] at hu
      cases hu
      by_contra hop
      rw [Pcq.goto_sync, firstUnlock_enqueue c hop, Sync.unlock_owner_self] at ho
      cases ho
    | _ =>
      rw [Pcq.goto_thread_self] at hu
      cases hu
  · rw [h.thread_ne hut] at hu
    rcases h.sizeOwner with ⟨-, -, hnew⟩ | ⟨-, -, hnone⟩ | ⟨-, hsame⟩
    · rw [hnew] at ho
      cases ho
      exact absurd rfl hut
    · rw [hnone] at ho
      cases ho
    · rw [hsame] at ho
      exact hG.sizeOwner u c' rest' ho hu

theorem endOwner_moved (hG : Good s) (h : Moved s t c rest s') {u : ι} {m : PcqMutex}
    (hm : m = .tailLock ∨ m = .headLock) (ho : s'.sync.owner m = some u) :
    ∃ c rest l, s'.thread u = ⟨c :: rest, l⟩ ∧ l.endLocked = true ∧ c.body.endLock = m := by
  have hcond : m ≠ c.body.condvarLock := by
    rintro rfl
    exact hm.elim (condvarLock_ne c).2.1 (condvarLock_ne c).2.2
  have hfirst : m ≠ c.body.firstUnlock := by
    rintro rfl
    exact hm.elim (firstUnlock_ne c).1 (firstUnlock_ne c).2
  have hsize : m ≠ .currentSizeLock := by rintro rfl; exact hm.elim nofun nofun
  -- the owner of before, when it is another thread
  have hother : s.sync.owner m = some u → u ≠ t → ∃ c rest l, s'.thread u = ⟨c :: rest, l⟩ ∧
      l.endLocked = true ∧ c.body.endLock = m := by
    intro hold hut
    rw [h.thread_ne hut]
    exact hG.endOwner u m hm hold
  -- the owner of before, which is at line `l`
  have hat : ∀ l, s.thread t = ⟨c :: rest, l⟩ → s.sync.owner m = some u → u = t →
      l.endLocked = true ∧ c.body.endLock = m := by
    rintro l ht hold rfl
    obtain ⟨c', rest', l', hu, hl, he⟩ := hG.endOwner u m hm hold
    rw [ht] at hu
    cases hu
    exact ⟨hl, he⟩
  by_cases hut : u = t
  swap
  · refine hother ?_ hut
    cases h with
    | lockSize ht hfree => rwa [Pcq.goto_sync, Sync.locked_owner_ne t hsize] at ho
    | wait ht => exact (Sync.unlock_owner_ne hcond).symm.trans ho
    | lockEnd ht hfree =>
      by_cases hme : m = c.body.endLock
      · subst hme
        rw [Pcq.goto_sync, Sync.locked_owner_self] at ho
        cases ho
        exact absurd rfl hut
      · rwa [Pcq.goto_sync, Sync.locked_owner_ne t hme] at ho
    | unlockFirst ht => rwa [Pcq.goto_sync, Sync.unlock_owner_ne hfirst] at ho
    | unlockEnd ht =>
      by_cases hme : m = c.body.endLock
      · subst hme
        rw [Pcq.goto_sync, Sync.unlock_owner_self] at ho
        cases ho
      · rwa [Pcq.goto_sync, Sync.unlock_owner_ne hme] at ho
    | _ => exact ho
  subst hut
  cases h with
  | lockSize ht hfree =>
    rw [Pcq.goto_sync, Sync.locked_owner_ne u hsize] at ho
    exact absurd (hat _ ht ho rfl).1 nofun
  | testWaits ht hw => exact absurd (hat _ ht ho rfl).1 nofun
  | testGoes ht hw => exact absurd (hat _ ht ho rfl).1 nofun
  | wait ht => exact absurd (hat _ ht ((Sync.unlock_owner_ne hcond).symm.trans ho) rfl).1 nofun
  | lockEnd ht hfree =>
    by_cases hme : m = c.body.endLock
    · exact ⟨c, rest, .data, Pcq.goto_thread_self _ _ _ _ _, rfl, hme.symm⟩
    · rw [Pcq.goto_sync, Sync.locked_owner_ne u hme] at ho
      exact absurd (hat _ ht ho rfl).1 nofun
  | data ht =>
    exact ⟨c, rest, .unlockFirst, Pcq.goto_thread_self _ _ _ _ _, rfl, (hat _ ht ho rfl).2⟩
  | unlockFirst ht =>
    rw [Pcq.goto_sync, Sync.unlock_owner_ne hfirst] at ho
    exact ⟨c, rest, .unlockEnd, Pcq.goto_thread_self _ _ _ _ _, rfl, (hat _ ht ho rfl).2⟩
  | unlockEnd ht =>
    by_cases hme : m = c.body.endLock
    · subst hme
      rw [Pcq.goto_sync, Sync.unlock_owner_self] at ho
      cases ho
    · rw [Pcq.goto_sync, Sync.unlock_owner_ne hme] at ho
      exact absurd (hat _ ht ho rfl).2.symm hme

/-- Another thread that has `pcq_current_size_lock` sees the queue unchanged. -/
theorem Moved.queue_other (hG : Good s) (h : Moved s t c rest s') {u : ι} (hut : u ≠ t)
    (hu : s.sync.owner .currentSizeLock = some u) : s'.queue = s.queue := by
  rcases h.queue hG with hq | ho
  · exact hq
  · rw [hu] at ho
    cases ho
    exact absurd rfl hut

theorem waits_moved (hG : Good s) (h : Moved s t c rest s') {u : ι} {c' : PcqCall}
    {rest' : List PcqCall} {l : Line} (hu : s'.thread u = ⟨c' :: rest', l⟩)
    (hl : l = .wait ∨ l = .asleep) : c'.body.waits s'.queue = true := by
  by_cases hut : u = t
  · subst hut
    cases h with
    | testWaits ht hw =>
      rw [Pcq.goto_thread_self] at hu
      cases hu
      exact hw
    | wait ht =>
      rw [Pcq.goto_thread_self] at hu
      cases hu
      exact hG.waits u c rest _ ht (Or.inl rfl)
    | _ =>
      rw [Pcq.goto_thread_self] at hu
      cases hu
      exact hl.elim nofun nofun
  · rw [h.thread_ne hut] at hu
    have hlocked : l.sizeLocked c'.op = true := by rcases hl with rfl | rfl <;> rfl
    rw [h.queue_other hG hut (hG.sizeLocked u c' rest' l hu hlocked)]
    exact hG.waits u c' rest' l hu hl

theorem good_moved (hG : Good s) (h : Moved s t c rest s') : Good s' where
  sleeps := sleeps_moved hG h
  sizeLocked _ _ _ _ hu hl := sizeLocked_moved hG h hu hl
  sizeOwner _ _ _ ho hu := sizeOwner_moved hG h ho hu
  endOwner _ _ hm ho := endOwner_moved hG h hm ho
  waits _ _ _ _ hu hl := waits_moved hG h hu hl

/-! ## Calls to come -/

/-- `pcq_current_size_lock` is not coming back: its owner is a dequeue that does not wait, or has
finished one. -/
def Pcq.Keeps (s : Pcq ι) (t : ι) : Prop :=
  ∀ c rest l, s.thread t = ⟨c :: rest, l⟩ → l ≠ .lockSize →
    c.op = .dequeue ∧ (l.waiting = true → c.body.waits s.queue = false)

structure Safe (s : Pcq ι) : Prop where
  blocked : ∀ t c rest l, s.thread t = ⟨c :: rest, l⟩ → l.waiting = true →
    c.body.waits s.queue = true → ∀ u, u ≠ t → ¬ s.Coming u c.op.other
  kept : ∀ t, s.sync.owner .currentSizeLock = some t → s.Keeps t → ¬ s.BothComing

/-- A call stops to be to come when it takes the lock. -/
theorem Moved.coming (h : Moved s t c rest s') {u : ι} {op : PcqOp}
    (hut : u ≠ t ∨ (s.thread t).line ≠ .lockSize) : s'.Coming u op ↔ s.Coming u op := by
  unfold Pcq.Coming
  by_cases hu : u = t
  · subst hu
    have hline := hut.resolve_left (fun hne => hne rfl)
    have hc : (s'.thread u).coming = (s.thread u).coming := by
      cases h with
      | lockSize ht hfree => exact absurd (by rw [ht]) hline
      | _ ht =>
        rw [Pcq.goto_thread_self, ht]
        rfl
    rw [hc]
  · rw [h.thread_ne hu]

theorem blocked_moved (hG : Good s) (hS : Safe s) (hok : Harmless s t) (h : Moved s t c rest s')
    {v : ι} {c' : PcqCall} {rest' : List PcqCall} {l : Line} (hv : s'.thread v = ⟨c' :: rest', l⟩)
    (hl : l.waiting = true) (hw : c'.body.waits s'.queue = true) {u : ι} (hu : u ≠ v) :
    ¬ s'.Coming u c'.op.other := by
  by_cases hvt : v = t
  · subst hvt
    rw [h.coming (Or.inl hu)]
    cases h with
    | lockSize ht hfree =>
      rw [Pcq.goto_thread_self] at hv
      cases hv
      exact (hok c rest ht).1 hw u hu
    | testWaits ht hw' =>
      rw [Pcq.goto_thread_self] at hv
      cases hv
      exact hS.blocked v c rest _ ht rfl hw u hu
    | wait ht =>
      rw [Pcq.goto_thread_self] at hv
      cases hv
      exact hS.blocked v c rest _ ht rfl hw u hu
    | _ =>
      rw [Pcq.goto_thread_self] at hv
      cases hv
      cases hl
  · rw [h.thread_ne hvt] at hv
    have hlocked : l.sizeLocked c'.op = true := by cases l <;> first | rfl | cases hl
    have howner := hG.sizeLocked v c' rest' l hv hlocked
    rw [h.queue_other hG hvt howner] at hw
    rw [h.coming]
    · exact hS.blocked v c' rest' l hv hl hw u hu
    · refine Or.inr (fun hline => ?_)
      rcases h.sizeOwner with ⟨-, hfree, -⟩ | ⟨hline', -, -⟩ | ⟨hline', -⟩
      · rw [hfree] at howner
        cases howner
      · rw [hline] at hline'
        cases hline'
      · exact hline' hline

/-- Who keeps the lock behind a step other than that of taking it kept it before. -/
theorem keeps_moved (hG : Good s) (h : Moved s t c rest s') (hline : (s.thread t).line ≠ .lockSize)
    {v : ι} (howner : s.sync.owner .currentSizeLock = some v) (hk : s'.Keeps v) : s.Keeps v := by
  intro c' rest' l hv hl
  by_cases hvt : v = t
  · subst hvt
    have hself : ∀ l', s'.thread v = ⟨c :: rest, l'⟩ → l' ≠ .lockSize → c.op = .dequeue :=
      fun l' h' hne => (hk c rest l' h' hne).1
    cases h with
    | lockSize ht hfree => exact absurd (by rw [ht]) hline
    | testWaits ht hw =>
      have := (hk c rest .wait (Pcq.goto_thread_self _ _ _ _ _) nofun).2 rfl
      rw [Pcq.goto_queue, hw] at this
      cases this
    | testGoes ht hw =>
      rw [ht] at hv
      cases hv
      exact ⟨hself _ (Pcq.goto_thread_self _ _ _ _ _) nofun, fun _ => hw⟩
    | wait ht =>
      have hw := (hk c rest .asleep (Pcq.goto_thread_self _ _ _ _ _) nofun).2 rfl
      rw [Pcq.goto_queue, hG.waits v c rest _ ht (Or.inl rfl)] at hw
      cases hw
    | lockEnd ht hfree =>
      rw [ht] at hv
      cases hv
      exact ⟨hself _ (Pcq.goto_thread_self _ _ _ _ _) nofun, nofun⟩
    | data ht =>
      rw [ht] at hv
      cases hv
      exact ⟨hself _ (Pcq.goto_thread_self _ _ _ _ _) nofun, nofun⟩
    | unlockFirst ht =>
      rw [ht] at hv
      cases hv
      exact ⟨hself _ (Pcq.goto_thread_self _ _ _ _ _) nofun, nofun⟩
    | unlockEnd ht =>
      rw [ht] at hv
      cases hv
      exact ⟨hG.sizeOwner v c rest howner ht, nofun⟩
  · have hk' := hk c' rest' l (by rw [h.thread_ne hvt]; exact hv) hl
    rwa [h.queue_other hG hvt howner] at hk'

theorem kept_moved (hG : Good s) (hS : Safe s) (hok : Harmless s t) (h : Moved s t c rest s')
    {v : ι} (ho : s'.sync.owner .currentSizeLock = some v) (hk : s'.Keeps v) : ¬ s'.BothComing := by
  rcases h.sizeOwner with ⟨hline, hfree, hnew⟩ | ⟨-, -, hnone⟩ | ⟨hline, hsame⟩
  · -- the lock was taken just now
    rw [hnew] at ho
    cases ho
    cases h with
    | lockSize ht hfree =>
      obtain ⟨hop, hw⟩ := hk c rest .test (Pcq.goto_thread_self _ _ _ _ _) nofun
      exact (hok c rest ht).2 hop (hw rfl)
    | _ ht => rw [ht] at hline; cases hline
  · rw [hnone] at ho
    cases ho
  · rw [hsame] at ho
    have hboth : s'.BothComing ↔ s.BothComing := by
      unfold Pcq.BothComing
      simp only [h.coming (Or.inr hline)]
    rw [hboth]
    exact hS.kept v ho (keeps_moved hG h hline ho hk)

theorem safe_moved (hG : Good s) (hS : Safe s) (hok : Harmless s t) (h : Moved s t c rest s') :
    Safe s' where
  blocked _ _ _ _ hv hl hw _ hu := blocked_moved hG hS hok h hv hl hw hu
  kept _ ho hk := kept_moved hG hS hok h ho hk

end

omit [DecidableEq ι] in
theorem good_initial {capacity : Nat} (block : Block (sizeMul capacity sizeofVoid))
    (calls : ι → List PcqCall) : Good (Pcq.initial block calls) where
  sleeps t c rest h := by cases (Thread.mk.inj h).2
  sizeLocked t c rest l h hl := by
    obtain ⟨-, rfl⟩ := Thread.mk.inj h
    cases hl
  sizeOwner t c rest h := by cases h
  endOwner t m hm h := by cases h
  waits t c rest l h hl := by
    obtain ⟨-, rfl⟩ := Thread.mk.inj h
    exact hl.elim nofun nofun

omit [DecidableEq ι] in
theorem safe_initial {capacity : Nat} (block : Block (sizeMul capacity sizeofVoid))
    (calls : ι → List PcqCall) : Safe (Pcq.initial block calls) where
  blocked t c rest l h hl := by
    obtain ⟨-, rfl⟩ := Thread.mk.inj h
    cases hl
  kept t h := by cases h

theorem reaches_safe {s₀ s : Pcq ι} (hG : Good s₀) (hS : Safe s₀)
    (h : Pcq.Reaches Harmless s₀ s) : Good s ∧ Safe s := by
  induction h with
  | refl => exact ⟨hG, hS⟩
  | tail _ hok hs ih =>
    obtain ⟨c, rest, hm⟩ := step_moved ih.1.sleeps hs
    exact ⟨good_moved ih.1 hm, safe_moved ih.1 ih.2 hok hm⟩

/-! ## Stuck states -/

omit [DecidableEq ι] in
theorem Pcq.Unfinished.thread {s : Pcq ι} {t : ι} {op : PcqOp} (h : s.Unfinished t op) :
    ∃ c rest l, s.thread t = ⟨c :: rest, l⟩ ∧ c.op = op := by
  obtain ⟨c, hc, hop⟩ := h
  obtain ⟨rest, hcalls⟩ := List.head?_eq_some_iff.mp hc
  exact ⟨c, rest, (s.thread t).line, by rw [← hcalls], hop⟩

section
variable {s : Pcq ι} (hG : Good s) (hstuck : ∀ t, s.step t = none)

include hG hstuck

/-- A thread that cannot go on waits for `pcq_current_size_lock` or sleeps. -/
theorem stuck_line {t : ι} {c : PcqCall} {rest : List PcqCall} {l : Line}
    (ht : s.thread t = ⟨c :: rest, l⟩) :
    (l = .lockSize ∧ s.sync.owner .currentSizeLock ≠ none) ∨ l = .asleep := by
  have hnone := hstuck t
  unfold Pcq.step at hnone
  rw [ht] at hnone
  cases l with
  | lockSize =>
    simp only [Option.map_eq_none_iff, Sync.lock_eq_none] at hnone
    exact Or.inl ⟨rfl, hnone⟩
  | asleep => exact Or.inr rfl
  | lockEnd =>
    -- the owner of the other mutex can go on
    simp only [Option.map_eq_none_iff, Sync.lock_eq_none] at hnone
    obtain ⟨v, hv⟩ := Option.ne_none_iff_exists'.mp hnone
    have hm : c.body.endLock = .tailLock ∨ c.body.endLock = .headLock := by
      cases c with
      | pcqEnqueue elem => exact Or.inl rfl
      | pcqDequeue => exact Or.inr rfl
    obtain ⟨c', rest', l', hv', hl', -⟩ := hG.endOwner v _ hm hv
    have hv'' := hstuck v
    unfold Pcq.step at hv''
    rw [hv'] at hv''
    cases l' with
    | data => cases hv''
    | unlockFirst => cases hv''
    | unlockEnd => cases hv''
    | _ => cases hl'
  | _ => cases hnone

theorem not_both_unfinished (hS : Safe s) {e d : ι} (he : s.Unfinished e .enqueue)
    (hd : s.Unfinished d .dequeue) : False := by
  obtain ⟨ce, re, le, he, hce⟩ := he.thread
  obtain ⟨cd, rd, ld, hd, hcd⟩ := hd.thread
  have hed : e ≠ d := by
    rintro rfl
    rw [he] at hd
    cases hd
    rw [hce] at hcd
    cases hcd
  -- a sleeping thread sleeps because of its own kind of call
  have hasleep : ∀ {v c rest}, s.thread v = ⟨c :: rest, .asleep⟩ → ∀ u, u ≠ v →
      ¬ s.Coming u c.op.other :=
    fun hv u hu => hS.blocked _ _ _ _ hv rfl (hG.waits _ _ _ _ hv (Or.inr rfl)) u hu
  rcases stuck_line hG hstuck he with ⟨rfl, howner⟩ | rfl <;>
    rcases stuck_line hG hstuck hd with ⟨rfl, -⟩ | rfl
  · have hcome : s.Coming e .enqueue := ⟨ce, by rw [he]; rfl, hce⟩
    have hcomd : s.Coming d .dequeue := ⟨cd, by rw [hd]; rfl, hcd⟩
    obtain ⟨v, hv⟩ := Option.ne_none_iff_exists'.mp howner
    refine hS.kept v hv (fun c rest l hvt hl => ?_) ⟨⟨e, hcome⟩, ⟨d, hcomd⟩⟩
    rcases stuck_line hG hstuck hvt with ⟨rfl, -⟩ | rfl
    · exact absurd rfl hl
    have hve : e ≠ v := fun h => by rw [← h, he] at hvt; cases hvt
    have hvd : d ≠ v := fun h => by rw [← h, hd] at hvt; cases hvt
    cases hop : c.op with
    | enqueue => exact absurd hcomd (by simpa [hop, PcqOp.other] using hasleep hvt d hvd)
    | dequeue => exact absurd hcome (by simpa [hop, PcqOp.other] using hasleep hvt e hve)
  · have hcome : s.Coming e .enqueue := ⟨ce, by rw [he]; rfl, hce⟩
    have := hasleep hd e hed
    rw [hcd] at this
    exact this hcome
  · have hcomd : s.Coming d .dequeue := ⟨cd, by rw [hd]; rfl, hcd⟩
    have := hasleep he d hed.symm
    rw [hce] at this
    exact this hcomd
  · have ho := hG.sizeLocked e ce re _ he rfl
    rw [hG.sizeLocked d cd rd _ hd rfl] at ho
    cases ho
    exact hed rfl

end

/-- Steps that are `Harmless` lead to no stuck state with calls of both kinds unfinished. -/
theorem not_stuck {capacity : Nat} (block : Block (sizeMul capacity sizeofVoid))
    (calls : ι → List PcqCall) {s : Pcq ι}
    (h : Pcq.Reaches Harmless (Pcq.initial block calls) s) : ¬ s.Stuck := by
  obtain ⟨hG, hS⟩ := reaches_safe (good_initial block calls) (safe_initial block calls) h
  rintro ⟨⟨e, he⟩, ⟨d, hd⟩, hstuck⟩
  exact not_both_unfinished hG hstuck hS he hd

/-- The state behind the steps of `ts`. -/
def Pcq.after (s : Pcq ι) : List ι → Pcq ι
  | [] => s
  | t :: ts => Pcq.after ((s.step t).getD s) ts

/-- The threads `ts` can take their steps, one after the other. -/
def Pcq.Schedule (ok : Pcq ι → ι → Prop) (s : Pcq ι) : List ι → Prop
  | [] => True
  | t :: ts => ok s t ∧ (s.step t).isSome = true ∧ Pcq.Schedule ok ((s.step t).getD s) ts

theorem Pcq.Reaches.after {ok : Pcq ι → ι → Prop} {s₀ s : Pcq ι} (h : Reaches ok s₀ s)
    {ts : List ι} (hts : s.Schedule ok ts) : Reaches ok s₀ (s.after ts) := by
  induction ts generalizing s with
  | nil => exact h
  | cons t ts ih =>
    obtain ⟨hok, hs, hts⟩ := hts
    obtain ⟨s', hs'⟩ := Option.isSome_iff_exists.mp hs
    refine ih ?_ hts
    rw [hs']
    exact .tail h hok hs'

theorem harmless_of_line {s : Pcq ι} {t : ι} (h : (s.thread t).line ≠ .lockSize) :
    Harmless s t := by
  intro c rest ht
  rw [ht] at h
  exact absurd rfl h

/-- Room for one element. -/
def oneElement : Block (sizeMul 1 sizeofVoid) := ⟨8, fun _ => 0, by decide⟩

/-- Thread `false` stores an element, and thread `true` fetches one. -/
def storeAndFetch (t : Bool) : List PcqCall := if t then [.pcqDequeue] else [.pcqEnqueue 7]

theorem not_stuck_storeAndFetch :
    ¬ ((Pcq.initial oneElement storeAndFetch).after
      [false, false, false, false, false, false, true]).Stuck := by
  refine not_stuck _ _ (Pcq.Reaches.after .refl ⟨?_, rfl, harmless_of_line nofun, rfl,
    harmless_of_line nofun, rfl, harmless_of_line nofun, rfl, harmless_of_line nofun, rfl,
    harmless_of_line nofun, rfl, ?_, rfl, trivial⟩)
  · intro c rest ht
    cases ht
    exact ⟨nofun, nofun⟩
  · intro c rest ht
    cases ht
    refine ⟨nofun, ?_⟩
    rintro - - ⟨⟨u, c, hc, -⟩, -⟩
    cases u
    · cases hc
    · cases hc

/-- The dequeue waits for an element with `pcq_current_size_lock` locked, and the enqueue for that
mutex. -/
theorem storeAndFetch_stuck :
    ¬ ∀ (ι : Type) (_ : DecidableEq ι) (capacity : Nat)
      (block : Block (sizeMul capacity sizeofVoid)) (calls : ι → List PcqCall) (s : Pcq ι),
      1 ≤ capacity → Pcq.Reaches (fun _ _ => True) (Pcq.initial block calls) s → ¬ s.Stuck := by
  intro hall
  refine hall Bool inferInstance 1 oneElement storeAndFetch
    ((Pcq.initial oneElement storeAndFetch).after [true, true, true]) (by decide)
    (Pcq.Reaches.after .refl ⟨trivial, rfl, trivial, rfl, trivial, rfl, trivial⟩) ?_
  refine ⟨⟨false, .pcqEnqueue 7, rfl, rfl⟩, ⟨true, .pcqDequeue, rfl, rfl⟩, fun t => ?_⟩
  cases t
  · rfl
  · rfl

end Mbroker
