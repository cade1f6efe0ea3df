import Mbroker.Pcq.Threads

/-!
# The lock discipline of the queue

`Disciplined s t`: the step that `t` takes next reads and writes `pcq_current_size`,
`pcq_head` and `pcq_tail` under their locks, unlocks and waits with mutexes that `t`
has, and returns with none.  `pcq_enqueue` keeps to this as long as the queue is not
full.  `pcq_dequeue` never does: it reads `pcq_tail` without `pcq_tail_lock`, unlocks
`pcq_popper_condvar_lock`, which it does not have, and returns with
`pcq_current_size_lock`; both functions wait with a mutex that they do not have.

    disciplined_schedule : all steps of a run are disciplined iff all are `Proper`
-/

namespace Mbroker

open CLib

/-! ## What a step touches -/

inductive PcqField where
  | currentSize
  | head
  | tail
deriving DecidableEq

/-- The lock that `pc_queue_t` declares for the field. -/
def PcqField.lock : PcqField → PcqMutex
  | .currentSize => .currentSizeLock
  | .head => .headLock
  | .tail => .tailLock

/-- The fields that the data step reads or writes. -/
def PcqCall.dataFields : PcqCall → List PcqField
  | .pcqEnqueue _ => [.tail, .currentSize]
  | .pcqDequeue => [.head, .tail, .currentSize]

def PcqCall.accesses (c : PcqCall) : Line → List PcqField
  | .test => [.currentSize]
  | .data => c.dataFields
  | _ => []

def PcqCall.unlocks (c : PcqCall) : Line → Option PcqMutex
  | .unlockFirst => some c.body.firstUnlock
  | .unlockEnd => some c.body.endLock
  | _ => none

variable {ι : Type} [DecidableEq ι]

/-- The next step of `t` keeps to the locks. -/
structure Disciplined (s : Pcq ι) (t : ι) : Prop where
  accesses : ∀ c rest l, s.thread t = ⟨c :: rest, l⟩ → ∀ f ∈ c.accesses l,
    s.sync.owner f.lock = some t
  unlocks : ∀ c rest l, s.thread t = ⟨c :: rest, l⟩ → ∀ m, c.unlocks l = some m →
    s.sync.owner m = some t
  waits : ∀ c rest, s.thread t = ⟨c :: rest, .wait⟩ → s.sync.owner c.body.condvarLock = some t
  returns : ∀ c rest, s.thread t = ⟨c :: rest, .unlockEnd⟩ → ∀ s', s.step t = some s' →
    ∀ m, s'.sync.owner m ≠ some t

/-- The next step of `t` is no `pthread_cond_wait` and not the data step of `pcq_dequeue`. -/
def Proper (s : Pcq ι) (t : ι) : Prop :=
  ∀ c rest l, s.thread t = ⟨c :: rest, l⟩ → l ≠ .wait ∧ (c.op = .dequeue → l ≠ .data)

/-- Any queue, whose mutexes are free. -/
def Pcq.start (q : PcQueue) (calls : ι → List PcqCall) : Pcq ι :=
  ⟨q, .init, fun t => ⟨calls t, .lockSize⟩⟩

/-! ## Who has which mutex -/

/-- The mutexes that a call has taken at a line. -/
def PcqCall.locks (c : PcqCall) : Line → List PcqMutex
  | .lockSize => []
  | .test | .wait | .asleep | .lockEnd => [.currentSizeLock]
  | .data | .unlockFirst => [.currentSizeLock, c.body.endLock]
  | .unlockEnd => [c.body.endLock]

def Thread.locks : Thread → List PcqMutex
  | ⟨[], _⟩ => []
  | ⟨c :: _, l⟩ => c.locks l

/-- A mutex has the owner that took it; no thread sleeps, and no dequeue is past its data step. -/
structure LocksHeld (s : Pcq ι) : Prop where
  owner : ∀ t m, s.sync.owner m = some t ↔ m ∈ (s.thread t).locks
  awake : ∀ t c rest, s.thread t ≠ ⟨c :: rest, .asleep⟩
  dequeue : ∀ t c rest l, s.thread t = ⟨c :: rest, l⟩ → c.op = .dequeue →
    l ≠ .unlockFirst ∧ l ≠ .unlockEnd

section
variable {s s' : Pcq ι} {t : ι} {c : PcqCall} {rest : List PcqCall}

omit [DecidableEq ι] in
theorem locksHeld_start (q : PcQueue) (calls : ι → List PcqCall) : LocksHeld (Pcq.start q calls) where
  owner t m := by
    have hlocks : ((Pcq.start q calls).thread t).locks = [] := by
      simp only [Pcq.start]
      cases calls t with
      | nil => rfl
      | cons c rest => rfl
    rw [hlocks]
    simp [Pcq.start, Sync.init]
  awake t c rest h := by simp [Pcq.start] at h
  dequeue t c rest l h _ := by
    simp only [Pcq.start, Thread.mk.injEq] at h
    rw [← h.2]
    exact ⟨nofun, nofun⟩

/-- The owners behind a step of `t` that goes on at `th`. -/
theorem owner_goto (h : LocksHeld s) (th : Thread) (q : PcQueue) {y : Sync PcqMutex PcqCondvar ι}
    (hself : ∀ m, y.owner m = some t ↔ m ∈ th.locks)
    (hother : ∀ m u, u ≠ t → (y.owner m = some u ↔ s.sync.owner m = some u)) (u : ι)
    (m : PcqMutex) : (s.goto t th q y).sync.owner m = some u ↔
      m ∈ ((s.goto t th q y).thread u).locks := by
  rw [Pcq.goto_sync]
  by_cases hu : u = t
  · subst hu
    rw [Pcq.goto_thread_self, hself]
  · rw [Pcq.goto_thread_ne s _ _ _ hu, hother m u hu, h.owner]

/-- What `t` does to the mutexes keeps the invariant when `t` goes on at a line that says so. -/
theorem locksHeld_goto (h : LocksHeld s) {th : Thread} (q : PcQueue) {y : Sync PcqMutex PcqCondvar ι}
    (hl : th.line ≠ .asleep)
    (hd : th.line ≠ .unlockFirst ∧ th.line ≠ .unlockEnd ∨ ∀ c ∈ th.calls.head?, c.op ≠ .dequeue)
    (hself : ∀ m, y.owner m = some t ↔ m ∈ th.locks)
    (hother : ∀ m u, u ≠ t → (y.owner m = some u ↔ s.sync.owner m = some u)) :
    LocksHeld (s.goto t th q y) where
  owner := owner_goto h _ q hself hother
  awake u c' rest' hu := by
    by_cases hut : u = t
    · subst hut
      rw [Pcq.goto_thread_self] at hu
      exact hl (congrArg Thread.line hu)
    · rw [Pcq.goto_thread_ne s _ _ _ hut] at hu
      exact h.awake u c' rest' hu
  dequeue u c' rest' l' hu hop := by
    by_cases hut : u = t
    · subst hut
      rw [Pcq.goto_thread_self] at hu
      subst hu
      rcases hd with hd | hd
      · exact hd
      · exact absurd hop (hd c' rfl)
    · rw [Pcq.goto_thread_ne s _ _ _ hut] at hu
      exact h.dequeue u c' rest' l' hu hop

/-- A proper step keeps the invariant. -/
theorem locksHeld_moved (h : LocksHeld s) (hp : Proper s t) (hm : Moved s t c rest s') : LocksHeld s' := by
  have hown : ∀ l, s.thread t = ⟨c :: rest, l⟩ → ∀ m, s.sync.owner m = some t ↔ m ∈ c.locks l := by
    intro l ht m
    rw [h.owner, ht]
    rfl
  have hsame : ∀ (m : PcqMutex) (u : ι), u ≠ t →
    (s.sync.owner m = some u ↔ s.sync.owner m = some u) := fun _ _ _ => Iff.rfl
  cases hm with
  | lockSize ht hfree =>
    refine locksHeld_goto h _ nofun (Or.inl ⟨nofun, nofun⟩) (fun m => ?_) (Sync.locked_other hfree)
    rw [Sync.locked_owner_eq hfree, hown _ ht]
    simp [Thread.locks, PcqCall.locks]
  | testWaits ht hw =>
    exact locksHeld_goto h _ nofun (Or.inl ⟨nofun, nofun⟩) (fun m => hown _ ht m) hsame
  | testGoes ht hw =>
    exact locksHeld_goto h _ nofun (Or.inl ⟨nofun, nofun⟩) (fun m => hown _ ht m) hsame
  | wait ht => exact absurd rfl (hp c rest _ ht).1
  | lockEnd ht hfree =>
    refine locksHeld_goto h _ nofun (Or.inl ⟨nofun, nofun⟩) (fun m => ?_) (Sync.locked_other hfree)
    rw [Sync.locked_owner_eq hfree, hown _ ht]
    simp [Thread.locks, PcqCall.locks, or_comm]
  | data ht =>
    refine locksHeld_goto h _ nofun (Or.inr fun c' hc' => ?_) (fun m => hown _ ht m) hsame
    cases hc'
    exact fun hop => (hp c rest _ ht).2 hop rfl
  | unlockFirst ht =>
    have hop : c.op ≠ .dequeue := fun hop => (h.dequeue t c rest _ ht hop).1 rfl
    have hfirst : s.sync.owner c.body.firstUnlock = some t := by
      rw [firstUnlock_enqueue c hop, hown _ ht]
      simp [PcqCall.locks]
    refine locksHeld_goto h _ nofun (Or.inr fun c' hc' => ?_) (fun m => ?_) (Sync.unlock_other hfirst)
    · cases hc'
      exact hop
    · rw [Sync.unlock_owner_eq, hown _ ht, firstUnlock_enqueue c hop]
      have hne := endLock_ne c
      simp only [Thread.locks, PcqCall.locks, List.mem_cons, List.not_mem_nil, or_false]
      constructor
      · rintro ⟨hm, rfl | rfl⟩
        · exact absurd rfl hm
        · rfl
      · rintro rfl
        exact ⟨hne, Or.inr rfl⟩
  | unlockEnd ht =>
    have hend : s.sync.owner c.body.endLock = some t := by
      rw [hown _ ht]
      simp [PcqCall.locks]
    refine locksHeld_goto h _ nofun (Or.inl ⟨nofun, nofun⟩) (fun m => ?_) (Sync.unlock_other hend)
    have hlocks : (⟨rest, .lockSize⟩ : Thread).locks = [] := by
      cases rest with
      | nil => rfl
      | cons c' rest' => rfl
    rw [Sync.unlock_owner_eq, hown _ ht, hlocks]
    simp [PcqCall.locks]

theorem locksHeld_step (h : LocksHeld s) (hp : Proper s t) (hs : s.step t = some s') : LocksHeld s' := by
  have hsleep : Sleeps s := fun u c rest hu => absurd hu (h.awake u c rest)
  obtain ⟨c, rest, hm⟩ := step_moved hsleep hs
  exact locksHeld_moved h hp hm

/-! ## Disciplined steps -/

/-- Where all owners are right, the discipline of a step is a matter of its line. -/
theorem disciplined_iff (h : LocksHeld s) : Disciplined s t ↔ Proper s t := by
  have hown : ∀ c rest l, s.thread t = ⟨c :: rest, l⟩ →
      ∀ m, s.sync.owner m = some t ↔ m ∈ c.locks l := by
    intro c rest l ht m
    rw [h.owner, ht]
    rfl
  constructor
  · intro hd c rest l ht
    refine ⟨?_, fun hop => ?_⟩
    · rintro rfl
      have hm := (hown c rest _ ht _).mp (hd.waits c rest ht)
      simp only [PcqCall.locks, List.mem_cons, List.not_mem_nil, or_false] at hm
      exact (condvarLock_ne c).1 hm
    · rintro rfl
      cases c with
      | pcqEnqueue elem => cases hop
      | pcqDequeue =>
        have htail : s.sync.owner PcqField.tail.lock = some t :=
          hd.accesses _ rest _ ht .tail (by simp [PcqCall.accesses, PcqCall.dataFields])
        have hm := (hown _ rest _ ht _).mp htail
        simp [PcqCall.locks, PcqField.lock, PcqCall.body, pcqDequeue] at hm
  · intro hp
    refine ⟨fun c rest l ht f hf => ?_, fun c rest l ht m hm => ?_, fun c rest ht => ?_,
      fun c rest ht s' hs m hm => ?_⟩
    · rw [hown c rest l ht]
      cases l with
      | test =>
        simp only [PcqCall.accesses, List.mem_singleton] at hf
        subst hf
        simp [PcqCall.locks, PcqField.lock]
      | data =>
        cases c with
        | pcqEnqueue elem =>
          simp only [PcqCall.accesses, PcqCall.dataFields, List.mem_cons, List.not_mem_nil,
            or_false] at hf
          rcases hf with rfl | rfl
          · simp [PcqCall.locks, PcqField.lock, PcqCall.body, pcqEnqueue]
          · simp [PcqCall.locks, PcqField.lock]
        | pcqDequeue => exact absurd rfl ((hp _ rest _ ht).2 rfl)
      | _ => cases hf
    · rw [hown c rest l ht]
      cases l with
      | unlockFirst =>
        have hop : c.op ≠ .dequeue := fun hop => (h.dequeue t c rest _ ht hop).1 rfl
        cases hm
        rw [firstUnlock_enqueue c hop]
        simp [PcqCall.locks]
      | unlockEnd =>
        cases hm
        simp [PcqCall.locks]
      | _ => cases hm
    · exact absurd rfl (hp c rest _ ht).1
    · have hs' : s' = s.goto t ⟨rest, .lockSize⟩ s.queue (s.sync.unlock c.body.endLock) := by
        rw [Pcq.step, ht] at hs
        exact (Option.some.inj hs).symm
      rw [hs', Pcq.goto_sync, Sync.unlock_owner_eq, hown c rest _ ht] at hm
      simp [PcqCall.locks] at hm

end

/-- All steps of a run keep to the locks exactly when none of them waits and none is the data step
of `pcq_dequeue`. -/
theorem disciplined_schedule (q : PcQueue) (calls : ι → List PcqCall) (ts : List ι) :
    (Pcq.start q calls).Schedule Disciplined ts ↔ (Pcq.start q calls).Schedule Proper ts := by
  have hrun : ∀ (ts : List ι) (s : Pcq ι), LocksHeld s → (s.Schedule Disciplined ts ↔
      s.Schedule Proper ts) := by
    intro ts
    induction ts with
    | nil => exact fun s _ => Iff.rfl
    | cons t ts ih =>
      intro s h
      simp only [Pcq.Schedule, disciplined_iff h]
      refine and_congr_right fun hp => and_congr_right fun hs => ?_
      obtain ⟨s', hs'⟩ := Option.isSome_iff_exists.mp hs
      rw [hs']
      exact ih s' (locksHeld_step h hp hs')
  exact hrun ts _ (locksHeld_start q calls)

/-- The element is stored and fetched: `pcq_dequeue` reads `pcq_tail` without `pcq_tail_lock`. -/
theorem storeAndFetch_undisciplined :
    ¬ ∀ (ι : Type) (_ : DecidableEq ι) (q : PcQueue) (calls : ι → List PcqCall) (ts : List ι),
      (Pcq.start q calls).Schedule (fun _ _ => True) ts →
      (Pcq.start q calls).Schedule Disciplined ts := by
  intro hall
  have h := hall Bool inferInstance (pcqCreate 1 (some oneElement)).2 storeAndFetch
    [false, false, false, false, false, false, true, true, true, true]
    ⟨trivial, rfl, trivial, rfl, trivial, rfl, trivial, rfl, trivial, rfl, trivial, rfl, trivial, rfl,
      trivial, rfl, trivial, rfl, trivial, rfl, trivial⟩
  obtain ⟨-, -, -, -, -, -, -, -, -, -, -, -, -, -, -, -, -, -, hd, -⟩ := h
  have htail := hd.accesses .pcqDequeue [] .data rfl .tail (by simp [PcqCall.accesses,
    PcqCall.dataFields])
  cases htail

end Mbroker
