import Mathlib.Logic.Function.Basic
import Mbroker.Lib.Outcome

/-!
# Objects on the heap and linked lists

A `Heap α` holds objects of one type at addresses; a pointer is an address or `none`,
the null pointer, and a dereference of a pointer to no object is `fault`.
`Chain next h p l`: from `p` on, following `next`, lie the objects `l`, each with its
address, and then the null pointer.
-/

namespace CLib

open Outcome

abbrev Heap (α : Type) : Type := Nat → Option α

namespace Heap

variable {α : Type}

def empty : Heap α := fun _ => none

/-- `*p` -/
def load (h : Heap α) : Option Nat → Outcome α
  | none => fault
  | some p =>
    match h p with
    | some a => ok a
    | none => fault

/-- `*p = a` -/
def store (h : Heap α) (p : Option Nat) (a : α) : Outcome (Heap α) :=
  match p with
  | none => fault
  | some p => if (h p).isSome then ok (Function.update h p (some a)) else fault

/-- `free(p)` -/
def free (h : Heap α) (p : Option Nat) : Outcome (Heap α) :=
  match p with
  | none => ok h
  | some p => if (h p).isSome then ok (Function.update h p none) else fault

@[simp] theorem load_null (h : Heap α) : h.load none = fault := rfl

theorem load_ok {h : Heap α} {p : Nat} {a : α} (hp : h p = some a) : h.load (some p) = ok a := by
  simp only [load, hp]

theorem load_eq_ok {h : Heap α} {p : Nat} {a : α} (hl : h.load (some p) = ok a) :
    h p = some a := by
  simp only [load] at hl
  split at hl
  · next b hb =>
    cases hl
    exact hb
  · cases hl

theorem store_ok {h : Heap α} {p : Nat} {a : α} (hp : h p = some a) (b : α) :
    h.store (some p) b = ok (Function.update h p (some b)) := by
  simp [store, hp]

end Heap

/-! ## Linked lists -/

section
variable {α : Type} {next : α → Option Nat} {h : Heap α}

def Chain (next : α → Option Nat) (h : Heap α) : Option Nat → List (Nat × α) → Prop
  | p, [] => p = none
  | p, (q, a) :: l => p = some q ∧ h q = some a ∧ Chain next h (next a) l

theorem chain_mem {p : Option Nat} {l : List (Nat × α)} (hl : Chain next h p l) {e : Nat × α}
    (he : e ∈ l) : h e.1 = some e.2 := by
  induction l generalizing p with
  | nil => cases he
  | cons d l ih =>
    cases he with
    | head => exact hl.2.1
    | tail _ he => exact ih hl.2.2 he

/-- A chain only reads its own objects. -/
theorem chain_congr {h' : Heap α} {p : Option Nat} {l : List (Nat × α)} (hl : Chain next h p l)
    (hh : ∀ e ∈ l, h' e.1 = h e.1) : Chain next h' p l := by
  induction l generalizing p with
  | nil => exact hl
  | cons d l ih =>
    obtain ⟨hp, hd, hrest⟩ := hl
    rw [List.forall_mem_cons] at hh
    exact ⟨hp, hh.1.trans hd, ih hrest hh.2⟩

theorem chain_unique {p : Option Nat} {l l' : List (Nat × α)} (hl : Chain next h p l)
    (hl' : Chain next h p l') : l = l' := by
  induction l generalizing p l' with
  | nil =>
    cases l' with
    | nil => rfl
    | cons e l' => exact absurd (hl.symm.trans hl'.1) (by simp)
  | cons d l ih =>
    obtain ⟨hp, hd, hrest⟩ := hl
    cases l' with
    | nil => exact absurd (hl'.symm.trans hp) (by simp)
    | cons e l' =>
      obtain ⟨q, a⟩ := d
      obtain ⟨q', a'⟩ := e
      obtain ⟨hp', hd', hrest'⟩ := hl'
      obtain rfl : q = q' := Option.some.inj (hp.symm.trans hp')
      obtain rfl : a = a' := Option.some.inj (hd.symm.trans hd')
      rw [ih hrest hrest']

theorem chain_suffix {p : Option Nat} {q : Nat} {a : α} {l r : List (Nat × α)}
    (hl : Chain next h p (l ++ (q, a) :: r)) : Chain next h (some q) ((q, a) :: r) := by
  induction l generalizing p with
  | nil => exact ⟨rfl, hl.2⟩
  | cons d l ih => exact ih hl.2.2

/-- No object is twice in a chain: behind both of its places would come the same list. -/
theorem chain_nodup {p : Option Nat} {l : List (Nat × α)} (hl : Chain next h p l) :
    (l.map Prod.fst).Nodup := by
  induction l generalizing p with
  | nil => exact List.nodup_nil
  | cons d l ih =>
    obtain ⟨q, a⟩ := d
    rw [List.map_cons, List.nodup_cons]
    refine ⟨fun hq => ?_, ih hl.2.2⟩
    obtain ⟨⟨q', a'⟩, he, rfl⟩ := List.mem_map.mp hq
    obtain ⟨l₁, l₂, rfl⟩ := List.append_of_mem he
    have hsame := congrArg List.length (chain_unique (chain_suffix (l := []) hl)
      (chain_suffix (l := (q', a) :: l₁) hl))
    simp only [List.length_cons, List.length_append] at hsame
    omega

end

end CLib
