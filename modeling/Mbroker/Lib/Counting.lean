import Mathlib.Data.Finset.Card
import Mathlib.Data.Finset.Range
import Mathlib.Data.Nat.Count
import Mathlib.Order.Interval.Finset.Nat

/-!
# Counting the indices with a property

`Nat.count p n` is the number of `i < n` with `p i`.  Two counts are equal when their
indices correspond one to one.
-/

namespace CLib

/-- Distinct numbers strictly between `0` and `n` are fewer than `n`. -/
theorem injOn_lt {f : Nat → Nat} {j n : Nat} (hn : 0 < n) (hf : ∀ k, k < j → 0 < f k ∧ f k < n)
    (hinj : ∀ k l, k < j → l < j → f k = f l → k = l) : j < n := by
  have hcard := Finset.card_le_card_of_injOn (s := Finset.range j) (t := Finset.Ioo 0 n) f
    (fun k hk => by
      have := hf k (by simpa using hk)
      simpa using this)
    (fun k hk l hl h => hinj k l (by simpa using hk) (by simpa using hl) h)
  rw [Finset.card_range, Nat.card_Ioo] at hcard
  omega

/-- `R` relates each element of the one set to just one of the other. -/
theorem card_eq_of_rel {α β : Type} {S : Finset α} {T : Finset β} (R : α → β → Prop)
    (hl : ∀ a ∈ S, ∃ b ∈ T, R a b) (hr : ∀ b ∈ T, ∃ a ∈ S, R a b)
    (hinj : ∀ a a' b, R a b → R a' b → a = a') (hfun : ∀ a b b', R a b → R a b' → b = b') :
    S.card = T.card := by
  refine Finset.card_bij (fun a ha => (hl a ha).choose) ?_ ?_ ?_
  · exact fun a ha => (hl a ha).choose_spec.1
  · intro a ha a' ha' he
    have h' := (hl a' ha').choose_spec.2
    rw [← he] at h'
    exact hinj a a' _ (hl a ha).choose_spec.2 h'
  · intro b hb
    obtain ⟨a, ha, hR⟩ := hr b hb
    exact ⟨a, ha, hfun a _ b (hl a ha).choose_spec.2 hR⟩

section
variable (p : Nat → Prop) [DecidablePred p]

theorem count_add_count_not (n : Nat) : Nat.count p n + Nat.count (fun i => ¬ p i) n = n := by
  induction n with
  | zero => simp
  | succ n ih =>
    rw [Nat.count_succ, Nat.count_succ]
    by_cases h : p n <;> simp only [h, not_true_eq_false, not_false_eq_true, if_true, if_false] <;>
      omega

variable {p} {q : Nat → Prop} [DecidablePred q]

/-- The same with the indices below `n` for one of the sets. -/
theorem card_eq_count_of_rel {α : Type} {S : Finset α} {n : Nat} (R : α → Nat → Prop)
    (hl : ∀ a ∈ S, ∃ i, i < n ∧ p i ∧ R a i) (hr : ∀ i, i < n → p i → ∃ a ∈ S, R a i)
    (hinj : ∀ a a' i, R a i → R a' i → a = a') (hfun : ∀ a i i', R a i → R a i' → i = i') :
    S.card = Nat.count p n := by
  rw [Nat.count_eq_card_filter_range]
  refine card_eq_of_rel R (fun a ha => ?_) (fun i hi => ?_) hinj hfun
  · obtain ⟨i, hi, hp, hR⟩ := hl a ha
    exact ⟨i, Finset.mem_filter.mpr ⟨Finset.mem_range.mpr hi, hp⟩, hR⟩
  · rw [Finset.mem_filter, Finset.mem_range] at hi
    exact hr i hi.1 hi.2

theorem count_eq_of_rel {n m : Nat} (R : Nat → Nat → Prop)
    (hl : ∀ i, i < n → p i → ∃ j, j < m ∧ q j ∧ R i j)
    (hr : ∀ j, j < m → q j → ∃ i, i < n ∧ p i ∧ R i j)
    (hinj : ∀ i i' j, R i j → R i' j → i = i') (hfun : ∀ i j j', R i j → R i j' → j = j') :
    Nat.count p n = Nat.count q m := by
  rw [Nat.count_eq_card_filter_range p]
  refine card_eq_count_of_rel R (fun i hi => ?_) (fun j hj hq => ?_) hinj hfun
  · rw [Finset.mem_filter, Finset.mem_range] at hi
    exact hl i hi.1 hi.2
  · obtain ⟨i, hi, hp, hR⟩ := hr j hj hq
    exact ⟨i, Finset.mem_filter.mpr ⟨Finset.mem_range.mpr hi, hp⟩, hR⟩

end

/-- The occurrence of `a` that has `k` occurrences before it. -/
theorem exists_append_of_lt_count {α : Type} [DecidableEq α] {a : α} {l : List α} {k : Nat}
    (h : k < l.count a) : ∃ pre post, l = pre ++ a :: post ∧ pre.count a = k := by
  induction l generalizing k with
  | nil => simp at h
  | cons b l ih =>
    by_cases hb : b = a
    · subst hb
      rw [List.count_cons_self] at h
      cases k with
      | zero => exact ⟨[], l, rfl, rfl⟩
      | succ k =>
        obtain ⟨pre, post, rfl, hk⟩ := ih (k := k) (by omega)
        exact ⟨b :: pre, post, rfl, by rw [List.count_cons_self, hk]⟩
    · rw [List.count_cons_of_ne hb] at h
      obtain ⟨pre, post, rfl, hk⟩ := ih h
      exact ⟨b :: pre, post, rfl, by rw [List.count_cons_of_ne hb, hk]⟩

end CLib
