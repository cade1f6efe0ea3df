import Mathlib.Data.Nat.Find
import Mathlib.Tactic.Common

/-!
# What a C function can end in

`Outcome α` is a result, a failed assertion (with its message) or undefined
behaviour: an access outside an allocated object, a null dereference, a division
by zero.  Code with explicit state passing is written in the `Outcome` monad.

`forFirst n body` is the loop `for (i = 0; i < n; i++) { … return … }`: the body
runs at `0, 1, …` and the first `some` is the returned value.

    i < n → body i = ok (some b) → (∀ j < i, body j = ok none) → forFirst n body = ok (some b)

`forState n body` is the loop whose body updates a state; `forState_inv` is its
invariant rule.
-/

namespace CLib

inductive Outcome (α : Type) where
  | ok (a : α)
  | panic (msg : String)
  | fault
deriving DecidableEq

namespace Outcome

variable {α β : Type}

protected def bind : Outcome α → (α → Outcome β) → Outcome β
  | ok a, f => f a
  | panic msg, _ => panic msg
  | fault, _ => fault

instance : Monad Outcome where
  pure := ok
  bind := Outcome.bind

-- Rewrite rules, not definitional equations: the kernel would compare the two sides
-- by evaluating the conditions in `f a`.
@[simp] theorem pure_eq (a : α) : (pure a : Outcome α) = ok a := by
  simp only [pure]

@[simp] theorem ok_bind (a : α) (f : α → Outcome β) : (ok a >>= f) = f a := by
  simp only [bind, Outcome.bind]

@[simp] theorem panic_bind (msg : String) (f : α → Outcome β) :
    (panic msg >>= f) = panic msg := by
  simp only [bind, Outcome.bind]

@[simp] theorem fault_bind (f : α → Outcome β) : ((fault : Outcome α) >>= f) = fault := by
  simp only [bind, Outcome.bind]

theorem bind_assoc {γ : Type} (x : Outcome α) (f : α → Outcome β) (g : β → Outcome γ) :
    (x >>= f) >>= g = x >>= fun a => f a >>= g := by
  cases x with
  | ok a => simp
  | panic msg => simp
  | fault => simp

/-- Two continuations that agree on the result. -/
theorem bind_congr {x : Outcome α} {f g : α → Outcome β} (h : ∀ a, x = ok a → f a = g a) :
    x >>= f = x >>= g := by
  cases x with
  | ok a => simpa using h a rfl
  | panic msg => simp
  | fault => simp

theorem ite_bind {c : Prop} [Decidable c] (x y : Outcome α) (f : α → Outcome β) :
    (if c then x else y) >>= f = if c then x >>= f else y >>= f := by
  split
  · rfl
  · rfl

theorem bind_eq_ok (x : Outcome α) (f : α → Outcome β) (b : β) :
    (x >>= f) = ok b ↔ ∃ a, x = ok a ∧ f a = ok b := by
  cases x with
  | ok a => simp
  | panic msg => simp
  | fault => simp

/-- A failed assertion, whatever its message. -/
def isPanic : Outcome α → Bool
  | panic _ => true
  | _ => false

/-- The result, or `d` when there is none. -/
def getD (d : α) : Outcome α → α
  | ok a => a
  | _ => d

def isOk : Outcome α → Bool
  | ok _ => true
  | _ => false

theorem eq_ok_getD {x : Outcome α} (d : α) (h : x.isOk = true) : x = ok (x.getD d) := by
  cases x with
  | ok a => rfl
  | panic msg => cases h
  | fault => cases h

@[simp] theorem isPanic_ok (a : α) : (ok a).isPanic = false := rfl
@[simp] theorem isPanic_panic (msg : String) : (panic msg : Outcome α).isPanic = true := rfl
@[simp] theorem isPanic_fault : (fault : Outcome α).isPanic = false := rfl

theorem isPanic_bind {x : Outcome α} {f : α → Outcome β} (hx : x.isPanic = false)
    (hf : ∀ a, x = ok a → (f a).isPanic = false) : (x >>= f).isPanic = false := by
  cases x with
  | ok a => simpa using hf a rfl
  | panic msg => cases hx
  | fault => simp

theorem eq_fault {x : Outcome α} (hpanic : x.isPanic = false) (hok : ∀ a, x ≠ ok a) : x = fault := by
  cases x with
  | ok a => exact absurd rfl (hok a)
  | panic msg => cases hpanic
  | fault => rfl

end Outcome

open Outcome

/-- An array index of type `int`: a negative one lies before the array. -/
def index (i : Int) : Outcome Nat := if 0 ≤ i then ok i.toNat else fault

@[simp] theorem index_natCast (i : Nat) : index (i : Int) = ok i := by
  simp [index]

/-! ## Loops that return at the first hit -/

section
variable {β : Type}

/-- `k` more iterations, the next one at index `i`. -/
def forFrom (body : Nat → Outcome (Option β)) : Nat → Nat → Outcome (Option β)
  | _, 0 => ok none
  | i, k + 1 => do
    match ← body i with
    | some b => return some b
    | none => forFrom body (i + 1) k

def forFirst (n : Nat) (body : Nat → Outcome (Option β)) : Outcome (Option β) :=
  forFrom body 0 n

theorem forFrom_eq_some (body : Nat → Outcome (Option β)) (b : β) (k : Nat) :
    ∀ i d, d < k → body (i + d) = ok (some b) → (∀ j, j < d → body (i + j) = ok none) →
      forFrom body i k = ok (some b) := by
  induction k with
  | zero => intro i d hd; omega
  | succ k ih =>
    intro i d hd hb hn
    cases d with
    | zero =>
      rw [Nat.add_zero] at hb
      simp [forFrom, hb]
    | succ d =>
      have h0 := hn 0 (by omega)
      rw [Nat.add_zero] at h0
      simp only [forFrom, h0, ok_bind]
      refine ih (i + 1) d (by omega) ?_ (fun j hj => ?_)
      · rw [← hb]; congr 1; omega
      · rw [← hn (j + 1) (by omega)]; congr 1; omega

theorem forFrom_eq_none (body : Nat → Outcome (Option β)) (k : Nat) :
    ∀ i, (∀ j, j < k → body (i + j) = ok none) → forFrom body i k = ok none := by
  induction k with
  | zero => intro i _; rfl
  | succ k ih =>
    intro i hn
    have h0 := hn 0 (by omega)
    rw [Nat.add_zero] at h0
    simp only [forFrom, h0, ok_bind]
    refine ih (i + 1) (fun j hj => ?_)
    rw [← hn (j + 1) (by omega)]; congr 1; omega

theorem forFirst_eq_some {n i : Nat} {body : Nat → Outcome (Option β)} {b : β} (hi : i < n)
    (hb : body i = ok (some b)) (hn : ∀ j, j < i → body j = ok none) :
    forFirst n body = ok (some b) :=
  forFrom_eq_some body b n 0 i hi (by simpa using hb) (by simpa using hn)

/-- What the loop returns, an iteration returned. -/
theorem forFirst_body {n : Nat} {body : Nat → Outcome (Option β)} {b : β}
    (h : forFirst n body = ok (some b)) : ∃ i, body i = ok (some b) := by
  have hfrom : ∀ k i, forFrom body i k = ok (some b) → ∃ i, body i = ok (some b) := by
    intro k
    induction k with
    | zero =>
      intro i h
      simp [forFrom] at h
    | succ k ih =>
      intro i h
      obtain ⟨r, hr, h⟩ := (bind_eq_ok _ _ _).mp h
      cases r with
      | none => exact ih (i + 1) h
      | some c => exact ⟨i, hr.trans h⟩
  exact hfrom n 0 h

/-- A search with a default: it is the default or what an iteration returned. -/
theorem forFirst_getD {n : Nat} {body : Nat → Outcome (Option β)} {d r : β}
    (h : (forFirst n body >>= fun found => pure (found.getD d)) = ok r) :
    r = d ∨ ∃ i, body i = ok (some r) := by
  obtain ⟨found, hfound, h⟩ := (bind_eq_ok _ _ _).mp h
  cases h
  cases found with
  | none => exact Or.inl rfl
  | some b => exact Or.inr (forFirst_body hfound)

theorem forFirst_eq_none {n : Nat} {body : Nat → Outcome (Option β)}
    (hn : ∀ i, i < n → body i = ok none) : forFirst n body = ok none :=
  forFrom_eq_none body n 0 (by simpa using hn)

end

/-! ## Loops that update a state -/

section
variable {σ : Type}

/-- `for (i = 0; i < n; i++) s = body(i, s)`. -/
def forState (body : Nat → σ → Outcome σ) : Nat → σ → Outcome σ
  | 0, s => ok s
  | n + 1, s => do
    let s ← forState body n s
    body n s

/-- A loop invariant `P i s`, `i` iterations done, carries through. -/
theorem forState_inv {body : Nat → σ → Outcome σ} (P : Nat → σ → Prop) (n : Nat) (s : σ)
    (h0 : P 0 s) (hstep : ∀ i s, i < n → P i s → ∃ s', body i s = ok s' ∧ P (i + 1) s') :
    ∃ s', forState body n s = ok s' ∧ P n s' := by
  induction n with
  | zero => exact ⟨s, rfl, h0⟩
  | succ n ih =>
    obtain ⟨t, ht, hP⟩ := ih (fun i s hi => hstep i s (by omega))
    obtain ⟨u, hu, hQ⟩ := hstep n t (by omega) hP
    exact ⟨u, by simp only [forState, ht, ok_bind, hu], hQ⟩

end

/-! ## First fit -/

/-- `i` is the least index below `n` with `p`. -/
def FirstAt (p : Nat → Prop) (n i : Nat) : Prop := i < n ∧ p i ∧ ∀ j, j < i → ¬ p j

theorem firstAt_or_none (p : Nat → Prop) (n : Nat) :
    (∃ i, FirstAt p n i) ∨ ∀ i, i < n → ¬ p i := by
  classical
  by_cases h : ∃ i, i < n ∧ p i
  · left
    have hs := Nat.find_spec h
    refine ⟨Nat.find h, hs.1, hs.2, fun j hj hp => ?_⟩
    exact Nat.find_min h hj ⟨by omega, hp⟩
  · right
    intro i hi hp
    exact h ⟨i, hi, hp⟩

end CLib
