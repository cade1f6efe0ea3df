import Mathlib.Logic.Function.Basic

/-!
# Mutexes and condition variables

The state of normal POSIX mutexes `μ` and condition variables `κ` that threads `ι`
share.  `lock` and `resume` are `none` where the thread cannot go on.  A thread is in
`waiting c` from its `pthread_cond_wait` until a signal or a broadcast on `c` takes
it out.
-/

namespace CLib

structure Sync (μ κ ι : Type) where
  owner : μ → Option ι
  waiting : κ → List ι

namespace Sync

section
variable {μ κ ι : Type} [DecidableEq μ]

def init : Sync μ κ ι := ⟨fun _ => none, fun _ => []⟩

def locked (y : Sync μ κ ι) (m : μ) (t : ι) : Sync μ κ ι :=
  { y with owner := fun m' => if m' = m then some t else y.owner m' }

/-- `pthread_mutex_lock`: the owner, too, waits for a mutex that it has. -/
def lock (y : Sync μ κ ι) (m : μ) (t : ι) : Option (Sync μ κ ι) :=
  if y.owner m = none then some (y.locked m t) else none

/-- `pthread_mutex_unlock`, which does not ask who the owner is. -/
def unlock (y : Sync μ κ ι) (m : μ) : Sync μ κ ι :=
  { y with owner := fun m' => if m' = m then none else y.owner m' }

/-- `pthread_cond_wait` up to where the thread sleeps. -/
def sleep [DecidableEq κ] (y : Sync μ κ ι) (c : κ) (m : μ) (t : ι) : Sync μ κ ι :=
  { y.unlock m with waiting := fun c' => if c' = c then t :: y.waiting c else y.waiting c' }

/-- The end of `pthread_cond_wait`: the thread was woken and gets the mutex back. -/
def resume [DecidableEq ι] (y : Sync μ κ ι) (c : κ) (m : μ) (t : ι) : Option (Sync μ κ ι) :=
  if t ∈ y.waiting c then none else y.lock m t

variable {y : Sync μ κ ι}

@[simp] theorem lock_eq_some {m : μ} {t : ι} {y' : Sync μ κ ι} :
    y.lock m t = some y' ↔ y.owner m = none ∧ y.locked m t = y' := by
  unfold lock
  split
  · next h => simp [h]
  · next h => simp [h]

@[simp] theorem lock_eq_none {m : μ} {t : ι} : y.lock m t = none ↔ y.owner m ≠ none := by
  unfold lock
  split
  · next h => simp [h]
  · next h => simp [h]

theorem resume_waiting [DecidableEq ι] {c : κ} {m : μ} {t : ι} (h : t ∈ y.waiting c) :
    y.resume c m t = none :=
  if_pos h

@[simp] theorem locked_owner_self (m : μ) (t : ι) : (y.locked m t).owner m = some t := if_pos rfl

theorem locked_owner_ne {m m' : μ} (t : ι) (h : m' ≠ m) : (y.locked m t).owner m' = y.owner m' :=
  if_neg h

@[simp] theorem unlock_owner_self (m : μ) : (y.unlock m).owner m = none := if_pos rfl

theorem unlock_owner_ne {m m' : μ} (h : m' ≠ m) : (y.unlock m).owner m' = y.owner m' := if_neg h

theorem locked_owner_eq {m m' : μ} {t : ι} (hfree : y.owner m = none) :
    (y.locked m t).owner m' = some t ↔ m' = m ∨ y.owner m' = some t := by
  by_cases hm : m' = m
  · subst hm
    simp [hfree]
  · rw [locked_owner_ne t hm]
    simp [hm]

theorem unlock_owner_eq {m m' : μ} {t : ι} :
    (y.unlock m).owner m' = some t ↔ m' ≠ m ∧ y.owner m' = some t := by
  by_cases hm : m' = m
  · subst hm
    simp
  · rw [unlock_owner_ne hm]
    simp [hm]

/-- To the other threads a free mutex that `t` takes is nobody's. -/
theorem locked_other {m : μ} {t : ι} (hfree : y.owner m = none) (m' : μ) (u : ι) (hu : u ≠ t) :
    (y.locked m t).owner m' = some u ↔ y.owner m' = some u := by
  by_cases hm : m' = m
  · subst hm
    rw [locked_owner_self, hfree]
    simp [Ne.symm hu]
  · rw [locked_owner_ne t hm]

theorem unlock_other {m : μ} {t : ι} (hown : y.owner m = some t) (m' : μ) (u : ι) (hu : u ≠ t) :
    (y.unlock m).owner m' = some u ↔ y.owner m' = some u := by
  by_cases hm : m' = m
  · subst hm
    rw [unlock_owner_self, hown]
    simp [Ne.symm hu]
  · rw [unlock_owner_ne hm]

theorem mem_sleep_waiting [DecidableEq κ] {c c' : κ} {m : μ} {t u : ι} :
    u ∈ (y.sleep c m t).waiting c' ↔ (c' = c ∧ u = t) ∨ u ∈ y.waiting c' := by
  by_cases hc : c' = c
  · subst hc
    simp [sleep]
  · simp [sleep, unlock, hc]

end

end Sync

end CLib
