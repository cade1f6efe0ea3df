import Mathlib.Data.List.TakeWhile
import Mathlib.Tactic.NormNum
import Mbroker.Lib.Region

/-!
# C strings and integers in memory

`CStr` is a string value: bytes without NUL.  In memory a string ends at its
first NUL; `cstr r a n` are its bytes if it ends within the `n` bytes at `a`.

    (cstr r a n).length < n → strcmpEq r a s = ok (decide (cstr r a n = s.toList))
    (cstr r a n).length < n → strncmpEq r a s n = ok (decide (cstr r a n = s.toList))

`int`s are four bytes, least significant first, in two's complement.
-/

namespace CLib

open Outcome

/-- A string value: its bytes, without the terminating NUL. -/
structure CStr where
  toList : List UInt8
  nonul : ∀ c ∈ toList, c ≠ 0

namespace CStr

instance : DecidableEq CStr := fun a b =>
  decidable_of_iff (a.toList = b.toList) ⟨fun h => by cases a; cases b; simp_all, fun h => by rw [h]⟩

@[ext] theorem ext' {a b : CStr} (h : a.toList = b.toList) : a = b := by
  cases a; cases b; simp_all

def strlen (s : CStr) : Nat := s.toList.length

/-- `s + 1`: the string behind the first character. -/
def tail (s : CStr) : CStr := ⟨s.toList.tail, fun c hc => s.nonul c (List.mem_of_mem_tail hc)⟩

/-- The string cut off behind `n` bytes. -/
def first (s : CStr) (n : Nat) : CStr :=
  ⟨s.toList.take n, fun c hc => s.nonul c (List.mem_of_mem_take hc)⟩

end CStr

/-! ## Strings in memory -/

/-- `strcmp(a, s) == 0`. -/
def strcmpGo (r : Region UInt8) : Nat → List UInt8 → Outcome Bool
  | a, [] => do
    let c ← r.load a
    return c == 0
  | a, x :: xs => do
    let c ← r.load a
    if c = x then strcmpGo r (a + 1) xs else return false

def strcmpEq (r : Region UInt8) (a : Nat) (s : CStr) : Outcome Bool := strcmpGo r a s.toList

/-- `strncmp(a, s, n) == 0`. -/
def strncmpGo (r : Region UInt8) : Nat → List UInt8 → Nat → Outcome Bool
  | _, _, 0 => return true
  | a, [], _ + 1 => do
    let c ← r.load a
    return c == 0
  | a, x :: xs, n + 1 => do
    let c ← r.load a
    if c = x then strncmpGo r (a + 1) xs n else return false

def strncmpEq (r : Region UInt8) (a : Nat) (s : CStr) (n : Nat) : Outcome Bool :=
  strncmpGo r a s.toList n

/-- `strncpy(a, s, n)`: at most `n` bytes of `s`, the rest of the `n` bytes zero. -/
def strncpy (r : Region UInt8) (a : Nat) (s : CStr) (n : Nat) : Outcome (Region UInt8) :=
  r.fill a n (fun k => s.toList.getD k 0)

def memset (r : Region UInt8) (a : Nat) (c : UInt8) (n : Nat) : Outcome (Region UInt8) :=
  r.fill a n (fun _ => c)

/-- The string at `a`, cut at `n` bytes. -/
def cstr (r : Region UInt8) (a n : Nat) : List UInt8 := (r.cells a n).takeWhile (· ≠ 0)

theorem cstr_congr {r r' : Region UInt8} {a n : Nat}
    (h : ∀ k, k < n → r.cell (a + k) = r'.cell (a + k)) : cstr r a n = cstr r' a n := by
  unfold cstr
  rw [Region.cells_congr h]

theorem cstr_succ (r : Region UInt8) (a n : Nat) :
    cstr r a (n + 1) = if r.cell a = 0 then [] else r.cell a :: cstr r (a + 1) n := by
  unfold cstr
  by_cases h : r.cell a = 0 <;> simp [Region.cells, h]

theorem cstr_nonul (r : Region UInt8) (a n : Nat) : ∀ c ∈ cstr r a n, c ≠ 0 := by
  intro c hc
  simpa using List.mem_takeWhile_imp hc

theorem strcmpGo_eq (r : Region UInt8) (xs : List UInt8) (hx : ∀ c ∈ xs, c ≠ 0) :
    ∀ n a, r.lo ≤ a → a + n ≤ r.hi → (cstr r a n).length < n →
      strcmpGo r a xs = ok (decide (cstr r a n = xs)) := by
  induction xs with
  | nil =>
    intro n a hlo hhi hlen
    obtain ⟨n, rfl⟩ : ∃ m, n = m + 1 := ⟨n - 1, by omega⟩
    rw [cstr_succ]
    simp only [strcmpGo, Region.load_ok (r := r) (i := a) ⟨hlo, by omega⟩, ok_bind, pure_eq]
    by_cases h : r.cell a = 0 <;> simp [h]
  | cons x xs ih =>
    intro n a hlo hhi hlen
    obtain ⟨n, rfl⟩ : ∃ m, n = m + 1 := ⟨n - 1, by omega⟩
    have hx0 : x ≠ 0 := hx x List.mem_cons_self
    rw [cstr_succ] at hlen ⊢
    simp only [strcmpGo, Region.load_ok (r := r) (i := a) ⟨hlo, by omega⟩, ok_bind, pure_eq]
    by_cases h0 : r.cell a = 0
    · have hne : ¬ r.cell a = x := fun e => hx0 (e ▸ h0)
      simp [h0, Ne.symm hx0]
    · rw [if_neg h0] at hlen ⊢
      simp only [List.length_cons] at hlen
      by_cases hc : r.cell a = x
      · rw [if_pos hc, ih (fun c hc => hx c (List.mem_cons_of_mem _ hc)) n (a + 1) (by omega)
          (by omega) (by omega)]
        simp [hc]
      · simp [hc]

/-- Two strings compare equal iff they are. -/
theorem strcmpEq_eq {r : Region UInt8} {a n : Nat} (s : CStr) (hlo : r.lo ≤ a) (hhi : a + n ≤ r.hi)
    (hlen : (cstr r a n).length < n) : strcmpEq r a s = ok (decide (cstr r a n = s.toList)) :=
  strcmpGo_eq r s.toList s.nonul n a hlo hhi hlen

theorem strncmpGo_eq (r : Region UInt8) (xs : List UInt8) (hx : ∀ c ∈ xs, c ≠ 0) :
    ∀ n a, r.lo ≤ a → a + n ≤ r.hi → (cstr r a n).length < n →
      strncmpGo r a xs n = ok (decide (cstr r a n = xs)) := by
  induction xs with
  | nil =>
    intro n a hlo hhi hlen
    obtain ⟨n, rfl⟩ : ∃ m, n = m + 1 := ⟨n - 1, by omega⟩
    rw [cstr_succ]
    simp only [strncmpGo, Region.load_ok (r := r) (i := a) ⟨hlo, by omega⟩, ok_bind, pure_eq]
    by_cases h : r.cell a = 0 <;> simp [h]
  | cons x xs ih =>
    intro n a hlo hhi hlen
    obtain ⟨n, rfl⟩ : ∃ m, n = m + 1 := ⟨n - 1, by omega⟩
    have hx0 : x ≠ 0 := hx x List.mem_cons_self
    rw [cstr_succ] at hlen ⊢
    simp only [strncmpGo, Region.load_ok (r := r) (i := a) ⟨hlo, by omega⟩, ok_bind, pure_eq]
    by_cases h0 : r.cell a = 0
    · simp [h0, Ne.symm hx0]
    · rw [if_neg h0] at hlen ⊢
      simp only [List.length_cons] at hlen
      by_cases hc : r.cell a = x
      · rw [if_pos hc, ih (fun c hc => hx c (List.mem_cons_of_mem _ hc)) n (a + 1) (by omega)
          (by omega) (by omega)]
        simp [hc]
      · simp [hc]

theorem strncmpEq_eq {r : Region UInt8} {a n : Nat} (s : CStr) (hlo : r.lo ≤ a)
    (hhi : a + n ≤ r.hi) (hlen : (cstr r a n).length < n) :
    strncmpEq r a s n = ok (decide (cstr r a n = s.toList)) :=
  strncmpGo_eq r s.toList s.nonul n a hlo hhi hlen

theorem takeWhile_pad (xs : List UInt8) (hx : ∀ c ∈ xs, c ≠ 0) (n : Nat) (hn : xs.length < n) :
    ((List.range n).map fun k => xs.getD k 0).takeWhile (fun c => decide (c ≠ 0)) = xs := by
  have hsplit : ((List.range n).map fun k => xs.getD k 0) =
      xs ++ List.replicate (n - xs.length) 0 := by
    apply List.ext_getElem?
    intro k
    rw [List.getElem?_append, List.getElem?_map, List.getElem?_replicate]
    by_cases hk : k < xs.length
    · rw [if_pos hk, List.getElem?_range (by omega)]
      simp [List.getD, hk]
    · rw [if_neg hk]
      by_cases hkn : k < n
      · rw [List.getElem?_range hkn, if_pos (by omega)]
        simp [List.getD, hk]
      · rw [if_neg (by omega)]
        simp [hkn]
  obtain ⟨m, hm⟩ : ∃ m, n - xs.length = m + 1 := ⟨n - xs.length - 1, by omega⟩
  rw [hsplit, hm, List.replicate_succ, List.takeWhile_append_of_pos (by simpa using hx)]
  simp

/-- A name shorter than its field reads back from the padded field. -/
theorem cstr_put_pad (r : Region UInt8) (a n : Nat) (s : CStr) (hn : s.strlen < n) :
    cstr (r.put a n (fun k => s.toList.getD k 0)) a n = s.toList := by
  unfold cstr
  rw [Region.cells_put_self]
  exact takeWhile_pad s.toList s.nonul n hn

theorem cstr_eq_nil {r : Region UInt8} {a n : Nat} (h : r.cell a = 0) : cstr r a n = [] := by
  cases n with
  | zero => rfl
  | succ n => rw [cstr_succ, if_pos h]

/-- A string that ends within `n` bytes is the one found in more of them. -/
theorem cstr_of_le {r : Region UInt8} {a n m : Nat} (hn : (cstr r a n).length < n) (hm : n ≤ m) :
    cstr r a m = cstr r a n := by
  induction n generalizing a m with
  | zero => exact absurd hn (Nat.not_lt_zero _)
  | succ n ih =>
    obtain ⟨m, rfl⟩ : ∃ k, m = k + 1 := ⟨m - 1, by omega⟩
    rw [cstr_succ] at hn
    rw [cstr_succ, cstr_succ]
    split
    · rfl
    · next hc =>
      rw [if_neg hc, List.length_cons] at hn
      rw [ih (by omega) (by omega)]

theorem cstr_length_lt (r : Region UInt8) (a n : Nat) :
    (cstr r a n).length < n ↔ ∃ k, k < n ∧ r.cell (a + k) = 0 := by
  induction n generalizing a with
  | zero =>
    refine iff_of_false (Nat.not_lt_zero _) ?_
    rintro ⟨k, hk, -⟩
    exact Nat.not_lt_zero k hk
  | succ n ih =>
    rw [cstr_succ]
    split
    · next hc => exact iff_of_true (Nat.succ_pos n) ⟨0, Nat.succ_pos n, hc⟩
    · next hc =>
      rw [List.length_cons, Nat.add_lt_add_iff_right, ih]
      constructor
      · rintro ⟨k, hk, hz⟩
        exact ⟨k + 1, by omega, by rw [← hz]; congr 1; omega⟩
      · rintro ⟨k, hk, hz⟩
        cases k with
        | zero => exact absurd hz hc
        | succ k => exact ⟨k, by omega, by rw [← hz]; congr 1; omega⟩

/-! ## A string at an address -/

/-- The bytes of `s` and its NUL are at `a`. -/
def HasString (r : Region UInt8) (a : Nat) (s : CStr) : Prop :=
  r.lo ≤ a ∧ a + s.strlen < r.hi ∧ r.cells a (s.strlen + 1) = s.toList ++ [0]

def strlenFrom (r : Region UInt8) : Nat → Nat → Outcome Nat
  | 0, _ => fault
  | k + 1, a => do
    let c ← r.load a
    if c = 0 then return 0
    else
      let n ← strlenFrom r k (a + 1)
      return n + 1

/-- `strlen(a)`, which reads up to the first NUL. -/
def strlen (r : Region UInt8) (a : Nat) : Outcome Nat := strlenFrom r (r.hi - a) a

/-- The string at `a`, up to the first NUL. -/
def strAt (r : Region UInt8) (a : Nat) : Outcome CStr :=
  if r.lo ≤ a ∧ (cstr r a (r.hi - a)).length < r.hi - a then
    ok ⟨cstr r a (r.hi - a), cstr_nonul r a (r.hi - a)⟩
  else fault

/-- The `n` bytes that `strncpy(dest, a, n)` stores. -/
def strncpyFrom (r : Region UInt8) : Nat → Nat → Outcome (List UInt8)
  | _, 0 => return []
  | a, n + 1 => do
    let c ← r.load a
    if c = 0 then return List.replicate (n + 1) 0
    else
      let rest ← strncpyFrom r (a + 1) n
      return c :: rest

section
variable {r : Region UInt8} {a : Nat} {s : CStr}

theorem strlenFrom_eq {xs : List UInt8} (hx : ∀ c ∈ xs, c ≠ 0) {k a : Nat} (hk : xs.length < k)
    (hlo : r.lo ≤ a) (hhi : a + xs.length < r.hi) (hxs : r.cells a (xs.length + 1) = xs ++ [0]) :
    strlenFrom r k a = ok xs.length := by
  induction xs generalizing k a with
  | nil =>
    obtain ⟨k, rfl⟩ : ∃ j, k = j + 1 := ⟨k - 1, by omega⟩
    have hc : r.cell a = 0 := (List.cons.inj hxs).1
    simp [strlenFrom, Region.load_ok (r := r) (i := a) ⟨hlo, by simpa using hhi⟩, hc]
  | cons x xs ih =>
    simp only [List.length_cons] at hk hhi
    obtain ⟨k, rfl⟩ : ∃ j, k = j + 1 := ⟨k - 1, by omega⟩
    obtain ⟨hc, hxs⟩ := List.cons.inj hxs
    have hne : r.cell a ≠ 0 := hc ▸ hx x List.mem_cons_self
    have hrest := ih (fun c hc => hx c (List.mem_cons_of_mem _ hc)) (k := k) (a := a + 1) (by omega)
      (by omega) (by omega) hxs
    simp [strlenFrom, Region.load_ok (r := r) (i := a) ⟨hlo, by omega⟩, hne, hrest]

theorem HasString.strlen (h : HasString r a s) : CLib.strlen r a = ok s.strlen := by
  obtain ⟨hlo, hhi, hs⟩ := h
  exact strlenFrom_eq s.nonul (by unfold CStr.strlen at hhi; omega) hlo hhi hs

theorem HasString.cell {k : Nat} (h : HasString r a s) (hk : k ≤ s.strlen) :
    r.cell (a + k) = (s.toList ++ [0]).getD k 0 := by
  have hget := Region.cells_getElem? r a (s.strlen + 1) k
  rw [if_pos (by omega), h.2.2] at hget
  rw [List.getD_eq_getElem?_getD, hget]
  rfl

theorem HasString.cstr {n : Nat} (h : HasString r a s) (hn : s.strlen < n) :
    CLib.cstr r a n = s.toList := by
  obtain ⟨k, rfl⟩ := Nat.exists_eq_add_of_lt hn
  rw [show s.strlen + k + 1 = s.strlen + 1 + k by omega]
  unfold CLib.cstr
  rw [Region.cells_add, h.2.2, List.append_assoc,
    List.takeWhile_append_of_pos (fun c hc => by simpa using s.nonul c hc)]
  simp

theorem HasString.strAt (h : HasString r a s) : CLib.strAt r a = ok s := by
  have hcstr := h.cstr (n := r.hi - a) (by have := h.2.1; omega)
  have hlen : (CLib.cstr r a (r.hi - a)).length < r.hi - a := by
    rw [hcstr]
    have := h.2.1
    unfold CStr.strlen at this
    omega
  unfold CLib.strAt
  rw [if_pos ⟨h.1, hlen⟩]
  exact congrArg ok (CStr.ext' hcstr)

theorem HasString.strcmpEq (h : HasString r a s) (t : CStr) :
    CLib.strcmpEq r a t = ok (decide (s = t)) := by
  have hcstr := h.cstr (Nat.lt_succ_self s.strlen)
  rw [strcmpEq_eq t h.1 (n := s.strlen + 1) (by have := h.2.1; omega)
    (by rw [hcstr]; exact Nat.lt_succ_self _), hcstr]
  congr 1
  rw [decide_eq_decide]
  exact ⟨fun e => CStr.ext' e, fun e => congrArg CStr.toList e⟩

/-- `strncpy` stores the string, cut off or with zeros behind it. -/
theorem strncpyFrom_eq {xs : List UInt8} (hx : ∀ c ∈ xs, c ≠ 0) {a n : Nat} (hlo : r.lo ≤ a)
    (hhi : a + xs.length < r.hi) (hxs : r.cells a (xs.length + 1) = xs ++ [0]) :
    strncpyFrom r a n = ok ((xs ++ List.replicate n 0).take n) := by
  induction n generalizing xs a with
  | zero => simp [strncpyFrom]
  | succ n ih =>
    have hload : r.load a = ok (r.cell a) := Region.load_ok ⟨hlo, by omega⟩
    cases xs with
    | nil =>
      have hnul : r.cell a = 0 := (List.cons.inj hxs).1
      simp [strncpyFrom, hload, hnul]
    | cons x xs =>
      obtain ⟨hcell, hrest⟩ := List.cons.inj hxs
      rw [List.length_cons] at hhi
      have hne : r.cell a ≠ 0 := by
        rw [hcell]
        exact hx x List.mem_cons_self
      have hcopy := ih (fun c hc => hx c (List.mem_cons_of_mem _ hc)) (a := a + 1) (by omega)
        (by omega) hrest
      have hpad : (xs ++ List.replicate (n + 1) 0).take n =
          (xs ++ List.replicate n (0 : UInt8)).take n := by
        rw [List.replicate_succ', ← List.append_assoc]
        exact List.take_append_of_le_length (by simp)
      simp only [strncpyFrom, hload, ok_bind, if_neg hne, hcopy, pure_eq, List.cons_append,
        List.take_succ_cons]
      rw [hpad, hcell]

theorem HasString.strncpyFrom {n : Nat} (h : HasString r a s) :
    CLib.strncpyFrom r a n = ok ((s.toList ++ List.replicate n 0).take n) :=
  strncpyFrom_eq s.nonul h.1 h.2.1 h.2.2

end

/-- A string that ends in its `n` bytes is there. -/
theorem hasString_cstr {n : Nat} (hlo : r.lo ≤ a) (hhi : a + n ≤ r.hi)
    (hlen : (CLib.cstr r a n).length < n) :
    HasString r a ⟨CLib.cstr r a n, cstr_nonul r a n⟩ := by
  refine ⟨hlo, show a + (CLib.cstr r a n).length < r.hi by omega, ?_⟩
  show r.cells a ((CLib.cstr r a n).length + 1) = CLib.cstr r a n ++ [0]
  clear hlo hhi
  induction n generalizing a with
  | zero => exact absurd hlen (Nat.not_lt_zero _)
  | succ n ih =>
    rw [cstr_succ] at hlen ⊢
    split
    · next hc => simp [Region.cells, hc]
    · next hc =>
      rw [if_neg hc, List.length_cons] at hlen
      rw [List.length_cons, Region.cells, ih (by omega)]
      rfl

theorem strAt_eq_ok : CLib.strAt r a = ok s ↔ HasString r a s := by
  constructor
  · intro h
    unfold CLib.strAt at h
    split at h
    · next hend =>
      cases h
      exact hasString_cstr hend.1 (by omega) hend.2
    · cases h
  · exact HasString.strAt

theorem strlenFrom_nul {k n : Nat} (h : strlenFrom r k a = ok n) :
    r.lo ≤ a ∧ a + n < r.hi ∧ r.cell (a + n) = 0 := by
  induction k generalizing a n with
  | zero => cases h
  | succ k ih =>
    obtain ⟨c, hload, h⟩ := (bind_eq_ok _ _ _).mp h
    obtain ⟨⟨hlo, hhi⟩, rfl⟩ := Region.load_eq_ok hload
    split at h
    · next hc =>
      cases h
      exact ⟨hlo, hhi, hc⟩
    · obtain ⟨m, hm, h⟩ := (bind_eq_ok _ _ _).mp h
      obtain ⟨-, hhi', hc⟩ := ih hm
      cases h
      refine ⟨hlo, by omega, ?_⟩
      rw [← hc]
      congr 1
      omega

/-- `strlen` returns exactly where there is a string. -/
theorem strlen_eq_ok {n : Nat} :
    CLib.strlen r a = ok n ↔ ∃ s, HasString r a s ∧ s.strlen = n := by
  constructor
  · intro h
    obtain ⟨hlo, hhi, hnul⟩ := strlenFrom_nul h
    have hlen := (cstr_length_lt r a (n + 1)).mpr ⟨n, Nat.lt_succ_self n, hnul⟩
    have hs := hasString_cstr hlo (by omega) hlen
    have hn := hs.strlen
    rw [h, ok.injEq] at hn
    exact ⟨_, hs, hn.symm⟩
  · rintro ⟨s, hs, rfl⟩
    exact hs.strlen

/-! ## Assertions

None of these functions has one. -/

section
variable (r : Region UInt8) (a n : Nat)

theorem load_isPanic : (r.load a).isPanic = false := by
  unfold Region.load
  split
  · rfl
  · rfl

theorem memset_isPanic (c : UInt8) : (memset r a c n).isPanic = false := by
  unfold memset Region.fill
  split
  · rfl
  · rfl

theorem strlenFrom_isPanic (k : Nat) : (strlenFrom r k a).isPanic = false := by
  induction k generalizing a with
  | zero => rfl
  | succ k ih =>
    refine isPanic_bind (load_isPanic r a) fun c _ => ?_
    split
    · simp
    · exact isPanic_bind (ih (a + 1)) fun n _ => by simp

theorem strlen_isPanic : (CLib.strlen r a).isPanic = false := strlenFrom_isPanic r a _

theorem strncpyFrom_isPanic : (strncpyFrom r a n).isPanic = false := by
  induction n generalizing a with
  | zero => simp [strncpyFrom]
  | succ n ih =>
    refine isPanic_bind (load_isPanic r a) fun c _ => ?_
    split
    · simp
    · exact isPanic_bind (ih (a + 1)) fun rest _ => by simp

theorem strcmpEq_isPanic (s : CStr) : (CLib.strcmpEq r a s).isPanic = false := by
  have hgo : ∀ (xs : List UInt8) (a : Nat), (strcmpGo r a xs).isPanic = false := by
    intro xs
    induction xs with
    | nil => exact fun a => isPanic_bind (load_isPanic r a) fun c _ => by simp
    | cons x xs ih =>
      intro a
      refine isPanic_bind (load_isPanic r a) fun c _ => ?_
      split
      · exact ih (a + 1)
      · simp
  exact hgo s.toList a

end

/-! ## Integers in memory -/

/-- Byte `k` of an `int`. -/
def intByte (v : Int) (k : Nat) : UInt8 := UInt8.ofNat ((v % 2 ^ 32).toNat / 256 ^ k % 256)

def intOfBytes (b0 b1 b2 b3 : UInt8) : Int :=
  Int.bmod (b0.toNat + 256 * b1.toNat + 65536 * b2.toNat + 16777216 * b3.toNat : Nat) (2 ^ 32)

/-- The `int` at `a`. -/
def intAt (r : Region UInt8) (a : Nat) : Int :=
  intOfBytes (r.cell a) (r.cell (a + 1)) (r.cell (a + 2)) (r.cell (a + 3))

def loadInt (r : Region UInt8) (a : Nat) : Outcome Int :=
  if r.lo ≤ a ∧ a + 4 ≤ r.hi then ok (intAt r a) else fault

def storeInt (r : Region UInt8) (a : Nat) (v : Int) : Outcome (Region UInt8) :=
  r.fill a 4 (intByte v)

theorem loadInt_ok {r : Region UInt8} {a : Nat} (h : r.lo ≤ a ∧ a + 4 ≤ r.hi) :
    loadInt r a = ok (intAt r a) :=
  if_pos h

theorem intAt_congr {r r' : Region UInt8} {a : Nat}
    (h : ∀ k, k < 4 → r.cell (a + k) = r'.cell (a + k)) : intAt r a = intAt r' a := by
  have h0 := h 0 (by omega)
  rw [Nat.add_zero] at h0
  unfold intAt
  rw [h0, h 1 (by omega), h 2 (by omega), h 3 (by omega)]

theorem intAt_put_out (r : Region UInt8) {a n b : Nat} (f : Nat → UInt8)
    (h : b + 4 ≤ a ∨ a + n ≤ b) : intAt (r.put a n f) b = intAt r b :=
  intAt_congr (fun k hk => Region.put_cell_out r f (by omega))

theorem intByte_toNat (v : Int) (k : Nat) :
    (intByte v k).toNat = (v % 2 ^ 32).toNat / 256 ^ k % 256 := by
  unfold intByte
  rw [UInt8.toNat_ofNat']
  omega

/-- An `int` reads back. -/
theorem intAt_put_self (r : Region UInt8) (a : Nat) (v : Int) (h : -2 ^ 31 ≤ v ∧ v < 2 ^ 31) :
    intAt (r.put a 4 (intByte v)) a = v := by
  have hb : ∀ k, k < 4 → ((r.put a 4 (intByte v)).cell (a + k)).toNat =
      (v % 2 ^ 32).toNat / 256 ^ k % 256 := by
    intro k hk
    rw [Region.put_cell_in r _ (by omega), show a + k - a = k by omega, intByte_toNat]
  have h0 := hb 0 (by omega)
  rw [Nat.add_zero] at h0
  unfold intAt intOfBytes
  rw [h0, hb 1 (by omega), hb 2 (by omega), hb 3 (by omega)]
  have hsum : (v % 2 ^ 32).toNat / 256 ^ 0 % 256 + 256 * ((v % 2 ^ 32).toNat / 256 ^ 1 % 256) +
      65536 * ((v % 2 ^ 32).toNat / 256 ^ 2 % 256) +
      16777216 * ((v % 2 ^ 32).toNat / 256 ^ 3 % 256) = (v % 2 ^ 32).toNat := by
    norm_num
    omega
  rw [hsum, Int.bmod_def]
  push_cast
  split_ifs <;> omega

end CLib
