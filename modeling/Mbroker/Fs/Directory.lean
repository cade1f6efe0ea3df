import Mbroker.Fs.State

/-!
# The root directory as a table of slots

A directory block at `a` with `N` entries is read as slots: `slotInum` and
`slotName` (the name up to its NUL).  A slot is live when `d_inumber != -1`.
`DirWf` is what every directory keeps, whatever the bytes of fresh memory are:
live slots have distinct names of 1..39 bytes, and every slot before a live one is
live or has an empty name.  So `clear_dir_entry`, which ignores `d_inumber`, stops
at the slot that `find_in_dir` finds and reads no slot that was never filled.

    dirWf_addEntry, dirWf_clearEntry : the two updates keep `DirWf`
-/

namespace Mbroker

open CLib

section
variable (m : Region UInt8) (a : Nat)

def slotInum (i : Nat) : Int := intAt m (dInumber a i)

def slotName (i : Nat) : List UInt8 := cstr m (dName a i) maxFileName

def Live (i : Nat) : Prop := slotInum m a i ≠ -1

instance (i : Nat) : Decidable (Live m a i) := inferInstanceAs (Decidable (_ ≠ _))

/-- What `add_dir_entry` writes into slot `i`. -/
def addEntry (i : Nat) (name : CStr) (inumber : Int) : Region UInt8 :=
  (((m.put (dInumber a i) 4 (intByte inumber)).put (dName a i) (maxFileName - 1)
    (fun k => name.toList.getD k 0))).set (dName a i + (maxFileName - 1)) 0

/-- What `clear_dir_entry` writes into slot `i`. -/
def clearEntry (i : Nat) : Region UInt8 :=
  (m.put (dInumber a i) 4 (intByte (-1))).put (dName a i) maxFileName (fun _ => 0)

structure DirWf (N : Nat) : Prop where
  lo : m.lo ≤ a
  hi : a + sizeofDirEntry * N ≤ m.hi
  nameLen : ∀ i, i < N → Live m a i → 1 ≤ (slotName m a i).length ∧ (slotName m a i).length ≤ 39
  before : ∀ i j, i < j → j < N → Live m a j → Live m a i ∨ slotName m a i = []
  names : ∀ i j, i < N → j < N → Live m a i → Live m a j → slotName m a i = slotName m a j → i = j

end

section
variable {m m' : Region UInt8} {a N : Nat}

theorem slot_bounds (h : DirWf m a N) {i : Nat} (hi : i < N) :
    m.lo ≤ dName a i ∧ dName a i + maxFileName ≤ m.hi ∧
      m.lo ≤ dInumber a i ∧ dInumber a i + 4 ≤ m.hi := by
  have h1 := h.lo
  have h2 := h.hi
  simp only [dName, dInumber, sizeofDirEntry, maxFileName] at h2 ⊢
  omega

/-- What the loops over the entries load at entry `i`. -/
theorem loadInt_slot (h : DirWf m a N) {i : Nat} (hi : i < N) :
    loadInt m (dInumber a i) = .ok (slotInum m a i) :=
  loadInt_ok (slot_bounds h hi).2.2

theorem strncmpEq_slot (h : DirWf m a N) {i : Nat} (hi : i < N) (hl : Live m a i) (name : CStr) :
    strncmpEq m (dName a i) name maxFileName = .ok (decide (slotName m a i = name.toList)) := by
  obtain ⟨h1, h2, -, -⟩ := slot_bounds h hi
  refine strncmpEq_eq name h1 h2 ?_
  exact Nat.lt_of_le_of_lt (h.nameLen i hi hl).2 (by decide)

/-- `strcmp` on an entry that was filled at some time. -/
theorem strcmpEq_slot (h : DirWf m a N) {i : Nat} (hi : i < N)
    (hl : Live m a i ∨ slotName m a i = []) (name : CStr) :
    strcmpEq m (dName a i) name = .ok (decide (slotName m a i = name.toList)) := by
  obtain ⟨h1, h2, -, -⟩ := slot_bounds h hi
  refine strcmpEq_eq name h1 h2 ?_
  rcases hl with hl | he
  · exact Nat.lt_of_le_of_lt (h.nameLen i hi hl).2 (by decide)
  · change (slotName m a i).length < maxFileName
    rw [he]; decide

theorem slot_congr {i : Nat}
    (h : ∀ x, dName a i ≤ x → x < dName a i + sizeofDirEntry → m'.cell x = m.cell x) :
    slotInum m' a i = slotInum m a i ∧ slotName m' a i = slotName m a i := by
  refine ⟨intAt_congr (fun k hk => h _ ?_ ?_), cstr_congr (fun k hk => h _ ?_ ?_)⟩ <;>
    simp only [dName, dInumber, sizeofDirEntry, maxFileName] at hk ⊢ <;> omega

theorem live_congr {i : Nat} (h : slotInum m' a i = slotInum m a i) : Live m' a i ↔ Live m a i := by
  unfold Live; rw [h]

/-- `DirWf` only reads the slots. -/
theorem dirWf_congr (h : DirWf m a N) (hlo : m'.lo = m.lo) (hhi : m'.hi = m.hi)
    (hs : ∀ i, i < N → slotInum m' a i = slotInum m a i ∧ slotName m' a i = slotName m a i) :
    DirWf m' a N where
  lo := by rw [hlo]; exact h.lo
  hi := by rw [hhi]; exact h.hi
  nameLen i hi hl := by
    rw [(hs i hi).2]
    exact h.nameLen i hi ((live_congr (hs i hi).1).mp hl)
  before i j hij hj hl := by
    rw [live_congr (hs i (by omega)).1, (hs i (by omega)).2]
    exact h.before i j hij hj ((live_congr (hs j hj).1).mp hl)
  names i j hi hj hli hlj he := by
    rw [(hs i hi).2, (hs j hj).2] at he
    exact h.names i j hi hj ((live_congr (hs i hi).1).mp hli) ((live_congr (hs j hj).1).mp hlj) he

/-- Bytes behind the entries are not the directory's. -/
theorem slot_put_out {i b n : Nat} (f : Nat → UInt8) (hi : i < N) (hb : a + sizeofDirEntry * N ≤ b) :
    slotInum (m.put b n f) a i = slotInum m a i ∧ slotName (m.put b n f) a i = slotName m a i := by
  refine slot_congr (fun x h1 h2 => Region.put_cell_out m f (Or.inl ?_))
  simp only [dName, sizeofDirEntry] at h1 h2 hb
  omega

/-! ## `add_dir_entry` -/

theorem addEntry_cell_out {i x : Nat} {name : CStr} {v : Int}
    (hx : x < dName a i ∨ dName a i + sizeofDirEntry ≤ x) :
    (addEntry m a i name v).cell x = m.cell x := by
  simp only [dName, sizeofDirEntry] at hx
  simp only [addEntry, dName, dInumber, sizeofDirEntry, maxFileName]
  rw [Region.set_cell_ne _ _ (by omega), Region.put_cell_out _ _ (by omega),
    Region.put_cell_out _ _ (by omega)]

theorem addEntry_ne {i j : Nat} {name : CStr} {v : Int} (hj : j ≠ i) :
    slotInum (addEntry m a i name v) a j = slotInum m a j ∧
      slotName (addEntry m a i name v) a j = slotName m a j := by
  refine slot_congr (fun x h1 h2 => addEntry_cell_out ?_)
  simp only [dName, sizeofDirEntry] at h1 h2 ⊢
  omega

theorem addEntry_inum {i : Nat} {name : CStr} {v : Int} (hv : -2 ^ 31 ≤ v ∧ v < 2 ^ 31) :
    slotInum (addEntry m a i name v) a i = v := by
  refine (intAt_congr (fun k hk => ?_)).trans (intAt_put_self m (dInumber a i) v hv)
  simp only [addEntry, dName, dInumber, sizeofDirEntry, maxFileName]
  rw [Region.set_cell_ne _ _ (by omega), Region.put_cell_out _ _ (by omega)]

theorem addEntry_name {i : Nat} {name : CStr} {v : Int} (hn : name.strlen ≤ 39) :
    slotName (addEntry m a i name v) a i = name.toList := by
  rw [← cstr_put_pad m (dName a i) maxFileName name (by unfold maxFileName; omega)]
  refine cstr_congr (fun k hk => ?_)
  simp only [maxFileName] at hk
  rw [Region.put_cell_in _ _ (by simp only [maxFileName]; omega)]
  simp only [addEntry, maxFileName]
  rcases Nat.lt_or_ge k 39 with h | h
  · rw [Region.set_cell_ne _ _ (by omega), Region.put_cell_in _ _ (by omega)]
  · rw [show k = 39 by omega, Region.set_cell_self]
    unfold CStr.strlen at hn
    simp [List.getD, show ¬ 39 < name.toList.length by omega]

/-- A fresh name in the first free slot. -/
theorem dirWf_addEntry (h : DirWf m a N) {i : Nat} {name : CStr} {v : Int}
    (hi : FirstAt (fun j => ¬ Live m a j) N i) (hn : 1 ≤ name.strlen ∧ name.strlen ≤ 39)
    (hfresh : ∀ j, j < N → Live m a j → slotName m a j ≠ name.toList)
    (hv : 0 ≤ v ∧ v < 2 ^ 31) : DirWf (addEntry m a i name v) a N := by
  have hname := addEntry_name (m := m) (a := a) (i := i) (v := v) hn.2
  have hinum : slotInum (addEntry m a i name v) a i = v := addEntry_inum (by omega)
  have hlive : Live (addEntry m a i name v) a i := by
    unfold Live; rw [hinum]; omega
  have hne : ∀ j, j ≠ i → (Live (addEntry m a i name v) a j ↔ Live m a j) ∧
      slotName (addEntry m a i name v) a j = slotName m a j :=
    fun j hj => ⟨live_congr (addEntry_ne hj).1, (addEntry_ne hj).2⟩
  refine ⟨h.lo, h.hi, ?_, ?_, ?_⟩
  · intro j hj hl
    by_cases hji : j = i
    · subst hji; rw [hname]; exact hn
    · rw [(hne j hji).2]; exact h.nameLen j hj ((hne j hji).1.mp hl)
  · intro j k hjk hk hl
    by_cases hji : j = i
    · subst hji; exact Or.inl hlive
    · rw [(hne j hji).1, (hne j hji).2]
      by_cases hki : k = i
      · subst hki
        exact Or.inl (Classical.not_not.mp (hi.2.2 j hjk))
      · exact h.before j k hjk hk ((hne k hki).1.mp hl)
  · intro j k hj hk hlj hlk he
    by_cases hji : j = i
    · by_cases hki : k = i
      · rw [hji, hki]
      · subst hji
        rw [hname, (hne k hki).2] at he
        exact absurd he.symm (hfresh k hk ((hne k hki).1.mp hlk))
    · by_cases hki : k = i
      · subst hki
        rw [hname, (hne j hji).2] at he
        exact absurd he (hfresh j hj ((hne j hji).1.mp hlj))
      · rw [(hne j hji).2, (hne k hki).2] at he
        exact h.names j k hj hk ((hne j hji).1.mp hlj) ((hne k hki).1.mp hlk) he

/-! ## `clear_dir_entry` -/

theorem clearEntry_cell_out {i x : Nat} (hx : x < dName a i ∨ dName a i + sizeofDirEntry ≤ x) :
    (clearEntry m a i).cell x = m.cell x := by
  simp only [dName, sizeofDirEntry] at hx
  simp only [clearEntry, dName, dInumber, sizeofDirEntry, maxFileName]
  rw [Region.put_cell_out _ _ (by omega), Region.put_cell_out _ _ (by omega)]

theorem clearEntry_ne {i j : Nat} (hj : j ≠ i) :
    slotInum (clearEntry m a i) a j = slotInum m a j ∧
      slotName (clearEntry m a i) a j = slotName m a j := by
  refine slot_congr (fun x h1 h2 => clearEntry_cell_out ?_)
  simp only [dName, sizeofDirEntry] at h1 h2 ⊢
  omega

theorem clearEntry_inum (i : Nat) : slotInum (clearEntry m a i) a i = -1 := by
  refine (intAt_congr (fun k hk => ?_)).trans (intAt_put_self m (dInumber a i) (-1) (by omega))
  simp only [clearEntry, dName, dInumber, sizeofDirEntry, maxFileName]
  rw [Region.put_cell_out _ _ (by omega)]

theorem clearEntry_name (i : Nat) : slotName (clearEntry m a i) a i = [] := by
  refine cstr_eq_nil ?_
  simp only [clearEntry]
  rw [Region.put_cell_in _ _ (by simp only [maxFileName]; omega)]

theorem clearEntry_not_live (i : Nat) : ¬ Live (clearEntry m a i) a i := by
  unfold Live; rw [clearEntry_inum]; simp

theorem dirWf_clearEntry (h : DirWf m a N) (i : Nat) : DirWf (clearEntry m a i) a N := by
  have hne : ∀ j, Live (clearEntry m a i) a j → j ≠ i ∧ Live m a j ∧
      slotName (clearEntry m a i) a j = slotName m a j := by
    intro j hl
    have hj : j ≠ i := fun e => clearEntry_not_live i (e ▸ hl)
    exact ⟨hj, (live_congr (clearEntry_ne hj).1).mp hl, (clearEntry_ne hj).2⟩
  refine ⟨h.lo, h.hi, ?_, ?_, ?_⟩
  · intro j hj hl
    obtain ⟨-, hl', hs⟩ := hne j hl
    rw [hs]; exact h.nameLen j hj hl'
  · intro j k hjk hk hl
    by_cases hji : j = i
    · subst hji; exact Or.inr (clearEntry_name j)
    · rw [live_congr (clearEntry_ne hji).1, (clearEntry_ne hji).2]
      exact h.before j k hjk hk (hne k hl).2.1
  · intro j k hj hk hlj hlk he
    rw [(hne j hlj).2.2, (hne k hlk).2.2] at he
    exact h.names j k hj hk (hne j hlj).2.1 (hne k hlk).2.1 he

end

end Mbroker
