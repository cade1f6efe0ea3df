import Mathlib.Logic.Relation
import Mbroker.Lib.Outcome

/-!
# Loops without a bound

`Bounded α` is what a function comes to when each of its loops may make a given number
of iterations: an `Outcome`, or `running` when that is too few.  A function ends if it
is `done` for some number.  `Passes body s s'`: the loop gets from `s` to `s'`;
`Stops body s s'`: and no further.

    (∀ s, P s → body s = ok (.inl s') → P s') → loop body fuel s = done (ok b) →
      ∃ s', P s' ∧ body s' = ok (.inr b)                                  (loop_ends)

`More x y`: where `x` is done, so is `y`, with the same outcome.  A function that gets
more iterations comes to more (`More.bind`, `More.loop`), so two numbers that are enough
give one result (`More.unique`).
-/

namespace CLib

open Outcome

inductive Bounded (α : Type) where
  | done (x : Outcome α)
  | running

namespace Bounded

variable {α β : Type}

protected def bind : Bounded α → (α → Bounded β) → Bounded β
  | done (.ok a), f => f a
  | done (.panic msg), _ => done (.panic msg)
  | done .fault, _ => done .fault
  | running, _ => running

instance : Monad Bounded where
  pure a := done (.ok a)
  bind := Bounded.bind

instance : MonadLift Outcome Bounded := ⟨done⟩

@[simp] theorem pure_eq (a : α) : (pure a : Bounded α) = done (.ok a) := rfl

@[simp] theorem lift_eq (x : Outcome α) : (liftM x : Bounded α) = done x := rfl

@[simp] theorem ok_bind (a : α) (f : α → Bounded β) : done (.ok a) >>= f = f a := rfl

@[simp] theorem panic_bind (msg : String) (f : α → Bounded β) :
    done (.panic msg) >>= f = done (.panic msg) := rfl

@[simp] theorem fault_bind (f : α → Bounded β) : done .fault >>= f = done .fault := rfl

@[simp] theorem running_bind (f : α → Bounded β) : running >>= f = running := rfl

theorem bind_eq_ok {x : Bounded α} {f : α → Bounded β} {b : β} :
    x >>= f = done (.ok b) ↔ ∃ a, x = done (.ok a) ∧ f a = done (.ok b) := by
  cases x with
  | done o =>
    cases o with
    | ok a => simp
    | panic msg => simp
    | fault => simp
  | running => simp

end Bounded

open Bounded

section
variable {σ β : Type}

/-- `while (true)`: the body goes on in a new state or leaves with a result. -/
def loop (body : σ → Outcome (σ ⊕ β)) : Nat → σ → Bounded β
  | 0, _ => running
  | fuel + 1, s =>
    match body s with
    | .ok (.inl s') => loop body fuel s'
    | .ok (.inr b) => done (ok b)
    | .panic msg => done (panic msg)
    | .fault => done fault

theorem loop_next {body : σ → Outcome (σ ⊕ β)} {s s' : σ} (h : body s = ok (.inl s'))
    (fuel : Nat) : loop body (fuel + 1) s = loop body fuel s' := by
  simp only [loop, h]

theorem loop_leave {body : σ → Outcome (σ ⊕ β)} {s : σ} {b : β} (h : body s = ok (.inr b))
    (fuel : Nat) : loop body (fuel + 1) s = done (ok b) := by
  simp only [loop, h]

/-- More iterations than it takes make no difference. -/
theorem loop_more {body : σ → Outcome (σ ⊕ β)} {fuel fuel' : Nat} {s : σ} {x : Outcome β}
    (h : loop body fuel s = done x) (hle : fuel ≤ fuel') : loop body fuel' s = done x := by
  induction fuel generalizing s fuel' with
  | zero => cases h
  | succ fuel ih =>
    obtain ⟨fuel', rfl⟩ : ∃ k, fuel' = k + 1 := ⟨fuel' - 1, by omega⟩
    simp only [loop] at h ⊢
    split
    · next s' hs =>
      simp only [hs] at h
      exact ih h (by omega)
    · next b hb => simpa only [hb] using h
    · next msg hmsg => simpa only [hmsg] using h
    · next hfault => simpa only [hfault] using h

/-! ## More iterations -/

def More {α : Type} (x y : Bounded α) : Prop := ∀ o, x = done o → y = done o

theorem More.refl {α : Type} (x : Bounded α) : More x x := fun _ h => h

theorem More.bind {α : Type} {x y : Bounded α} {f g : α → Bounded β} (h : More x y)
    (hf : ∀ a, More (f a) (g a)) : More (x >>= f) (y >>= g) := by
  intro o hx
  cases x with
  | running => cases hx
  | done x =>
    rw [h x rfl]
    cases x with
    | ok a => exact hf a o hx
    | panic msg => exact hx
    | fault => exact hx

theorem More.loop (body : σ → Outcome (σ ⊕ β)) {fuel fuel' : Nat} (h : fuel ≤ fuel') (s : σ) :
    More (loop body fuel s) (CLib.loop body fuel' s) :=
  fun _ hx => loop_more hx h

theorem More.unique {α : Type} {f : Nat → Bounded α} (hf : ∀ m n, m ≤ n → More (f m) (f n))
    {m n : Nat} {x y : Outcome α} (hx : f m = done x) (hy : f n = done y) : x = y := by
  have hx' := hf m (max m n) (Nat.le_max_left m n) x hx
  have hy' := hf n (max m n) (Nat.le_max_right m n) y hy
  rw [hx'] at hy'
  cases hy'
  rfl

/-! ## How a loop ends -/

/-- A loop that comes back to its state does not end. -/
theorem loop_stays {body : σ → Outcome (σ ⊕ β)} {s : σ} (h : body s = ok (.inl s)) (fuel : Nat) :
    loop body fuel s = running := by
  induction fuel with
  | zero => rfl
  | succ fuel ih => exact (loop_next h fuel).trans ih

/-- The first round of a loop that leaves. -/
theorem loop_first {body : σ → Outcome (σ ⊕ β)} {fuel : Nat} {s : σ} {b : β}
    (h : loop body fuel s = done (ok b)) : ∃ k, fuel = k + 1 ∧
      ((∃ s', body s = ok (.inl s') ∧ loop body k s' = done (ok b)) ∨ body s = ok (.inr b)) := by
  cases fuel with
  | zero => cases h
  | succ fuel =>
    refine ⟨fuel, rfl, ?_⟩
    simp only [loop] at h
    split at h
    · next s' hs => exact Or.inl ⟨s', hs, h⟩
    · next b' hb =>
      cases h
      exact Or.inr hb
    · cases h
    · cases h

theorem loop_round {body : σ → Outcome (σ ⊕ β)} {fuel : Nat} {s : σ} {b : β}
    (h : loop body fuel s = done (ok b)) : ∃ r, body s = ok r := by
  obtain ⟨k, -, ⟨s', hs, -⟩ | hs⟩ := loop_first h
  · exact ⟨_, hs⟩
  · exact ⟨_, hs⟩

/-- Invariant rule: the loop leaves from a state in which the invariant holds. -/
theorem loop_ends {body : σ → Outcome (σ ⊕ β)} (P : σ → Prop)
    (hstep : ∀ s s', P s → body s = ok (.inl s') → P s') {fuel : Nat} {s : σ} {b : β} (h0 : P s)
    (h : loop body fuel s = done (ok b)) : ∃ s', P s' ∧ body s' = ok (.inr b) := by
  induction fuel generalizing s with
  | zero => cases h
  | succ fuel ih =>
    obtain ⟨k, hk, hround⟩ := loop_first h
    cases hk
    rcases hround with ⟨s', hs, hrest⟩ | hleave
    · exact ih (hstep s s' h0 hs) hrest
    · exact ⟨s, h0, hleave⟩

/-- From `s` the loop gets to `s'`, in some number of rounds. -/
def Passes (body : σ → Outcome (σ ⊕ β)) (s s' : σ) : Prop :=
  Relation.ReflTransGen (fun s₁ s₂ => body s₁ = ok (.inl s₂)) s s'

theorem passes_keeps {body : σ → Outcome (σ ⊕ β)} (P : σ → Prop)
    (hstep : ∀ s s', P s → body s = ok (.inl s') → P s') {s s' : σ} (h0 : P s)
    (h : Passes body s s') : P s' := by
  induction h with
  | refl => exact h0
  | tail _ hs ih => exact hstep _ _ ih hs

/-- The last state the loop gets to, whether it leaves there or not. -/
def Stops (body : σ → Outcome (σ ⊕ β)) (s s' : σ) : Prop :=
  Passes body s s' ∧ ∀ s'', body s' ≠ ok (.inl s'')

theorem stops_first {body : σ → Outcome (σ ⊕ β)} {s s' : σ} (h : ∀ s'', body s ≠ ok (.inl s'')) :
    Stops body s s' ↔ s' = s := by
  constructor
  · rintro ⟨hpasses, -⟩
    exact passes_keeps (fun s' => s' = s) (fun s₁ s₂ h₁ hs => (h s₂ (h₁ ▸ hs)).elim) rfl hpasses
  · rintro rfl
    exact ⟨.refl, h⟩

end

end CLib
