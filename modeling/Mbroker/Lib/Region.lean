import Mbroker.Lib.CInt
import Mbroker.Lib.Outcome

/-!
# Allocated arrays

A `Region α` is an array of cells at the indices `[lo, hi)`; the cell function is
total, so that the contents of fresh memory are arbitrary, but `load`, `store`,
`fill` and `loadN` are `fault` outside `[lo, hi)`.  A null pointer is the region
`null` without cells.

    lo ≤ a → a + n ≤ hi → r.fill a n f = ok (r.put a n f)                     (fill_ok)
    (r.put a n f).cell x = if a ≤ x ∧ x < a + n then f (x - a) else r.cell x  (put_cell)
-/

namespace CLib

open Outcome

/-- A block that `malloc(bytes)` returned: at least `bytes` bytes can be accessed from its address
on, and all of them have an address. -/
structure Allocation (bytes : Nat) (α : Type) where
  usable : Nat
  content : Nat → α
  enough : bytes ≤ usable
  addressable : usable < 2 ^ 64

structure Region (α : Type) where
  isNull : Bool
  lo : Nat
  hi : Nat
  cell : Nat → α

namespace Region

variable {α : Type}

/-- The null pointer. -/
def null (d : α) : Region α := ⟨true, 0, 0, fun _ => d⟩

/-- What `malloc(bytes)` returns for cells of `width` bytes: `none` is a failed
allocation, else the cells that lie wholly inside the block hold `junk`. -/
def malloc (bytes width : Nat) (d : α) : Option (Nat → α) → Region α
  | none => null d
  | some junk => ⟨false, 0, bytes / width, junk⟩

/-- The same with what `malloc` really returned. -/
def allocated {bytes : Nat} (width : Nat) (d : α) : Option (Allocation bytes α) → Region α
  | none => null d
  | some block => ⟨false, 0, block.usable / width, block.content⟩

def set (r : Region α) (i : Nat) (v : α) : Region α :=
  { r with cell := fun j => if j = i then v else r.cell j }

/-- `n` cells from `a` on, the `k`-th one `f k`. -/
def put (r : Region α) (a n : Nat) (f : Nat → α) : Region α :=
  { r with cell := fun x => if a ≤ x ∧ x < a + n then f (x - a) else r.cell x }

/-- The cells at `[a, a + n)`. -/
def cells (r : Region α) : Nat → Nat → List α
  | _, 0 => []
  | a, n + 1 => r.cell a :: cells r (a + 1) n

def load (r : Region α) (i : Nat) : Outcome α :=
  if r.lo ≤ i ∧ i < r.hi then ok (r.cell i) else fault

def store (r : Region α) (i : Nat) (v : α) : Outcome (Region α) :=
  if r.lo ≤ i ∧ i < r.hi then ok (r.set i v) else fault

def fill (r : Region α) (a n : Nat) (f : Nat → α) : Outcome (Region α) :=
  if n = 0 ∨ r.lo ≤ a ∧ a + n ≤ r.hi then ok (r.put a n f) else fault

def loadN (r : Region α) (a n : Nat) : Outcome (List α) :=
  if n = 0 ∨ r.lo ≤ a ∧ a + n ≤ r.hi then ok (r.cells a n) else fault

/-! ## Projections -/

@[simp] theorem set_isNull (r : Region α) (i : Nat) (v : α) : (r.set i v).isNull = r.isNull := rfl
@[simp] theorem set_lo (r : Region α) (i : Nat) (v : α) : (r.set i v).lo = r.lo := rfl
@[simp] theorem set_hi (r : Region α) (i : Nat) (v : α) : (r.set i v).hi = r.hi := rfl
@[simp] theorem put_isNull (r : Region α) (a n : Nat) (f : Nat → α) :
    (r.put a n f).isNull = r.isNull := rfl
@[simp] theorem put_lo (r : Region α) (a n : Nat) (f : Nat → α) : (r.put a n f).lo = r.lo := rfl
@[simp] theorem put_hi (r : Region α) (a n : Nat) (f : Nat → α) : (r.put a n f).hi = r.hi := rfl

theorem set_cell (r : Region α) (i : Nat) (v : α) (j : Nat) :
    (r.set i v).cell j = if j = i then v else r.cell j := rfl

@[simp] theorem set_cell_self (r : Region α) (i : Nat) (v : α) : (r.set i v).cell i = v := by
  simp [set]

theorem set_cell_ne (r : Region α) {i j : Nat} (v : α) (h : j ≠ i) :
    (r.set i v).cell j = r.cell j := by
  simp [set, h]

theorem put_cell (r : Region α) (a n : Nat) (f : Nat → α) (x : Nat) :
    (r.put a n f).cell x = if a ≤ x ∧ x < a + n then f (x - a) else r.cell x := rfl

theorem put_cell_in (r : Region α) {a n x : Nat} (f : Nat → α) (h : a ≤ x ∧ x < a + n) :
    (r.put a n f).cell x = f (x - a) := by
  rw [put_cell, if_pos h]

theorem put_cell_out (r : Region α) {a n x : Nat} (f : Nat → α) (h : x < a ∨ a + n ≤ x) :
    (r.put a n f).cell x = r.cell x := by
  rw [put_cell, if_neg (by omega)]

@[ext] theorem ext' {r r' : Region α} (h1 : r.isNull = r'.isNull) (h2 : r.lo = r'.lo)
    (h3 : r.hi = r'.hi) (h4 : ∀ x, r.cell x = r'.cell x) : r = r' := by
  cases r; cases r'
  simp only [mk.injEq]
  exact ⟨h1, h2, h3, funext h4⟩

/-- Writing back what a cell held before leaves no trace of a write in between. -/
theorem set_set_self (r : Region α) (i : Nat) (v w : α) (h : r.cell i = w) :
    (r.set i v).set i w = r := by
  refine ext' rfl rfl rfl (fun x => ?_)
  by_cases hx : x = i
  · subst hx; rw [set_cell_self, h]
  · rw [set_cell_ne _ _ hx, set_cell_ne _ _ hx]

theorem set_self (r : Region α) (i : Nat) : r.set i (r.cell i) = r := by
  refine ext' rfl rfl rfl (fun k => ?_)
  by_cases hk : k = i
  · rw [hk, set_cell_self]
  · exact set_cell_ne _ _ hk

theorem set_set (r : Region α) (i : Nat) (v w : α) : (r.set i v).set i w = r.set i w := by
  refine ext' rfl rfl rfl (fun x => ?_)
  simp only [set_cell]
  split
  · rfl
  · rfl

/-! ## Accesses inside the region -/

theorem load_ok {r : Region α} {i : Nat} (h : r.lo ≤ i ∧ i < r.hi) : r.load i = ok (r.cell i) :=
  if_pos h

theorem store_ok {r : Region α} {i : Nat} (v : α) (h : r.lo ≤ i ∧ i < r.hi) :
    r.store i v = ok (r.set i v) :=
  if_pos h

theorem load_eq_ok {r : Region α} {i : Nat} {v : α} (h : r.load i = ok v) :
    (r.lo ≤ i ∧ i < r.hi) ∧ v = r.cell i := by
  unfold load at h
  split at h
  · next hb =>
    cases h
    exact ⟨hb, rfl⟩
  · cases h

theorem store_eq_ok {r r' : Region α} {i : Nat} {v : α} (h : r.store i v = ok r') :
    (r.lo ≤ i ∧ i < r.hi) ∧ r' = r.set i v := by
  unfold store at h
  split at h
  · next hb =>
    cases h
    exact ⟨hb, rfl⟩
  · cases h

theorem load_after_store {r r' : Region α} {i : Nat} {v : α} (h : r.store i v = ok r') :
    r'.load i = ok v := by
  obtain ⟨hb, rfl⟩ := store_eq_ok h
  rw [load_ok (r := r.set i v) hb, set_cell_self]

/-- A load and a store of one cell, as one step on the cell. -/
theorem store_after_load {β : Type} (r : Region α) (i : Nat) (v : α) (f : Region α → Outcome β) :
    (r.load i >>= fun _ => r.store i v >>= f) = r.store i v >>= f := by
  unfold load store
  split
  · simp
  · simp

/-- Two updates of one cell are one. -/
theorem update_update {β : Type} (r : Region α) (i : Nat) (f g : α → α)
    (k : Region α → Outcome β) :
    (r.load i >>= fun a => r.store i (f a) >>= fun r' => r'.load i >>= fun b =>
      r'.store i (g b) >>= k) = r.load i >>= fun a => r.store i (g (f a)) >>= k := by
  refine bind_congr fun a ha => ?_
  obtain ⟨hb, rfl⟩ := load_eq_ok ha
  rw [store_ok _ hb, store_ok _ hb, ok_bind, ok_bind, load_ok (r := r.set i _) hb, ok_bind,
    store_ok (r := r.set i _) _ hb, ok_bind, set_set, set_cell_self]

theorem fill_ok {r : Region α} {a n : Nat} (f : Nat → α) (h : r.lo ≤ a ∧ a + n ≤ r.hi) :
    r.fill a n f = ok (r.put a n f) :=
  if_pos (Or.inr h)

theorem loadN_ok {r : Region α} {a n : Nat} (h : r.lo ≤ a ∧ a + n ≤ r.hi) :
    r.loadN a n = ok (r.cells a n) :=
  if_pos (Or.inr h)

theorem fill_eq_ok {r r' : Region α} {a n : Nat} {f : Nat → α} (hn : 0 < n)
    (h : r.fill a n f = ok r') : (r.lo ≤ a ∧ a + n ≤ r.hi) ∧ r' = r.put a n f := by
  unfold fill at h
  split at h
  · next hc =>
    cases h
    exact ⟨by omega, rfl⟩
  · cases h

/-! ## Lists of cells -/

@[simp] theorem cells_length (r : Region α) (a n : Nat) : (r.cells a n).length = n := by
  induction n generalizing a with
  | zero => rfl
  | succ n ih => simp [cells, ih]

theorem loadN_length {r : Region α} {a n : Nat} {values : List α} (h : r.loadN a n = ok values) :
    values.length = n := by
  unfold loadN at h
  split at h
  · cases h
    exact cells_length _ _ _
  · cases h

theorem cells_getElem? (r : Region α) (a n k : Nat) :
    (r.cells a n)[k]? = if k < n then some (r.cell (a + k)) else none := by
  induction n generalizing a k with
  | zero => simp [cells]
  | succ n ih =>
    cases k with
    | zero => simp [cells]
    | succ k =>
      simp only [cells, List.getElem?_cons_succ, ih]
      rw [show a + 1 + k = a + (k + 1) by omega]
      split <;> split <;> first | rfl | omega

theorem cells_congr {r r' : Region α} {a a' n : Nat}
    (h : ∀ k, k < n → r.cell (a + k) = r'.cell (a' + k)) : r.cells a n = r'.cells a' n := by
  apply List.ext_getElem?
  intro k
  rw [cells_getElem?, cells_getElem?]
  split
  · next hk => rw [h k hk]
  · rfl

/-- Cells away from a write are as before. -/
theorem cells_put_out (r : Region α) {a n b m : Nat} (f : Nat → α) (h : b + m ≤ a ∨ a + n ≤ b) :
    (r.put a n f).cells b m = r.cells b m :=
  cells_congr (fun k hk => put_cell_out r f (by omega))

/-- The cells just written. -/
theorem cells_put_self (r : Region α) (a n : Nat) (f : Nat → α) :
    (r.put a n f).cells a n = (List.range n).map f := by
  apply List.ext_getElem?
  intro k
  rw [cells_getElem?]
  split
  · next hk =>
    rw [put_cell_in r f (by omega)]
    simp [hk]
  · next hk => simp [hk]

theorem cells_add (r : Region α) (a n m : Nat) :
    r.cells a (n + m) = r.cells a n ++ r.cells (a + n) m := by
  induction n generalizing a with
  | zero => simp [cells]
  | succ n ih =>
    rw [show n + 1 + m = (n + m) + 1 by omega]
    simp only [cells, ih, List.cons_append]
    rw [show a + 1 + n = a + (n + 1) by omega]

theorem cells_take (r : Region α) (a n k : Nat) : (r.cells a n).take k = r.cells a (min k n) := by
  apply List.ext_getElem?
  intro j
  rw [List.getElem?_take, cells_getElem?, cells_getElem?]
  split <;> split <;> first | rfl | omega | (split <;> first | rfl | omega)

theorem cells_drop (r : Region α) (a n k : Nat) :
    (r.cells a n).drop k = r.cells (a + k) (n - k) := by
  apply List.ext_getElem?
  intro j
  rw [List.getElem?_drop, cells_getElem?, cells_getElem?]
  rw [show a + (k + j) = a + k + j by omega]
  split <;> split <;> first | rfl | omega

/-! ## Overwriting a part of a list -/

end Region

/-- `d` in place of the elements of `l` from `offset` on. -/
def overwrite {α : Type} (l : List α) (offset : Nat) (d : List α) : List α :=
  l.take offset ++ d ++ l.drop (offset + d.length)

@[simp] theorem overwrite_nil {α : Type} (l : List α) (offset : Nat) :
    overwrite l offset [] = l := by
  simp [overwrite]

/-- At the end of the list, that is an append. -/
theorem overwrite_append {α : Type} (l d : List α) : overwrite l l.length d = l ++ d := by
  simp [overwrite]

namespace Region

variable {α : Type}

/-- A write inside or at the end of `n` cells at `a`. -/
theorem cells_put_overwrite (r : Region α) {a n offset k : Nat} (f : Nat → α) (h : offset ≤ n) :
    (r.put (a + offset) k f).cells a (max n (offset + k)) =
      overwrite (r.cells a n) offset ((List.range k).map f) := by
  have hsplit : max n (offset + k) = offset + (k + (n - (offset + k))) := by omega
  rw [hsplit, cells_add, cells_add, cells_put_self, cells_put_out _ _ (by omega),
    cells_put_out _ _ (by omega)]
  simp only [overwrite, List.length_map, List.length_range]
  rw [cells_take, cells_drop, Nat.min_eq_left h, Nat.add_assoc, List.append_assoc]

end Region

end CLib
