import Mbroker.Fs.Content

/-!
# Which file a handle was opened on

A handle holds an inumber, so what it refers to is a matter of history.  `History`
numbers the files by the call that created them: `file i` is the file that last got
inode `i`, `opened h` the one that slot `h` was opened on.  `displaced h` records that
since then `inode_create` handed out the inode again, or that `data_block_alloc`
handed out a block that the inode still names.

    hist_run : in every run, a handle that is not displaced was opened on the file of its
      inode, and the inodes in use have distinct blocks
-/

namespace Mbroker

open CLib CLib.Outcome

structure History where
  clock : Nat
  file : Nat → Nat
  opened : Nat → Nat
  displaced : Nat → Bool

def Call.isOpen : Call → Bool
  | .tfsOpen _ _ => true
  | _ => false

/-- `inode_create` handed out inode `i`, whether or not it got a directory entry. -/
def HandedOut (c : Call) (s s' : Tfs) (i : Nat) : Prop :=
  c.isOpen = true ∧ s.freeinodeTs.cell i = .free ∧
    (s'.freeinodeTs.cell i = .taken ∨ s'.inodeTable.cell i ≠ s.inodeTable.cell i)

/-- `data_block_alloc` handed out block `b`. -/
def Allocated (s s' : Tfs) (b : Nat) : Prop :=
  s.freeBlocks.cell b = .free ∧ s'.freeBlocks.cell b = .taken

/-- `add_to_open_file_table` returned slot `h`. -/
def NewHandle (s s' : Tfs) (h : Nat) : Prop :=
  s.freeOpenFileEntries.cell h = .free ∧ s'.freeOpenFileEntries.cell h = .taken

instance (c : Call) (s s' : Tfs) (i : Nat) : Decidable (HandedOut c s s' i) :=
  inferInstanceAs (Decidable (_ ∧ _ ∧ _))

instance (s s' : Tfs) (b : Nat) : Decidable (Allocated s s' b) :=
  inferInstanceAs (Decidable (_ ∧ _))

instance (s s' : Tfs) (h : Nat) : Decidable (NewHandle s s' h) :=
  inferInstanceAs (Decidable (_ ∧ _))

/-- Inode `i`, or the block that it names, was handed out. -/
def Displaces (c : Call) (s s' : Tfs) (i : Nat) : Prop :=
  HandedOut c s s' i ∨
    0 < (s.inodeTable.cell i).iSize ∧ Allocated s s' (s.inodeTable.cell i).iDataBlock.toNat

instance (c : Call) (s s' : Tfs) (i : Nat) : Decidable (Displaces c s s' i) :=
  inferInstanceAs (Decidable (_ ∨ _ ∧ _))

namespace History

def init : History := ⟨0, fun _ => 0, fun _ => 0, fun _ => false⟩

def nextFile (g : History) (c : Call) (s s' : Tfs) (i : Nat) : Nat :=
  if HandedOut c s s' i then g.clock + 1 else g.file i

def step (g : History) (c : Call) (_ : Ret) (s s' : Tfs) : History where
  clock := g.clock + 1
  file := g.nextFile c s s'
  opened h := if NewHandle s s' h then
      g.nextFile c s s' (s'.openFileTable.cell h).ofInumber.toNat
    else g.opened h
  displaced h := if NewHandle s s' h then false
    else g.displaced h || decide (Displaces c s s' (s.openFileTable.cell h).ofInumber.toNat)

end History

/-- Inode `i` is TAKEN, or a handle on it is not displaced. -/
def Held (s : Tfs) (g : History) (i : Nat) : Prop :=
  FileIndex s i ∧ (s.freeinodeTs.cell i = .taken ∨
    ∃ fhandle h, OpenOn s fhandle h i ∧ g.displaced h = false)

structure Hist (s : Tfs) (g : History) : Prop where
  owner : ∀ fhandle h i, OpenOn s fhandle h i → g.displaced h = false → g.opened h = g.file i
  apart : ∀ i k, Held s g i → Held s g k → i ≠ k → 0 < (s.inodeTable.cell i).iSize →
    0 < (s.inodeTable.cell k).iSize →
    (s.inodeTable.cell i).iDataBlock ≠ (s.inodeTable.cell k).iDataBlock

/-! ## What a call does to handles, inodes and blocks -/

/-- At most one inode gets a new block, at most one inode is handed out, and a new handle is
on a TAKEN inode. -/
structure StepShape (c : Call) (s s' : Tfs) : Prop where
  size : s'.fsParams = s.fsParams
  handles : ∀ fhandle h i, OpenOn s' fhandle h i → OpenOn s fhandle h i ∨ NewHandle s s' h
  newTaken : ∀ fhandle h i, OpenOn s' fhandle h i → NewHandle s s' h →
    s'.freeinodeTs.cell i = .taken
  taken : ∀ i, s'.freeinodeTs.cell i = .taken → s.freeinodeTs.cell i = .taken ∨ HandedOut c s s' i
  emptied : ∀ i, HandedOut c s s' i → (s'.inodeTable.cell i).iSize = 0
  blocks : ∃ w b : Nat, ∀ i, ¬ HandedOut c s s' i → 0 < (s'.inodeTable.cell i).iSize →
    (0 < (s.inodeTable.cell i).iSize ∧
      (s'.inodeTable.cell i).iDataBlock = (s.inodeTable.cell i).iDataBlock) ∨
    (i = w ∧ (s'.inodeTable.cell i).iDataBlock = (b : Int) ∧ Allocated s s' b)

section
variable {s s' : Tfs} {g : History} {c : Call} {r : Ret}

theorem handedOut_taken {i : Nat} (h : HandedOut c s s' i) : s.freeinodeTs.cell i ≠ .taken := by
  rw [h.2.1]
  exact fun e => by cases e

theorem newHandle_taken {h : Nat} (hn : NewHandle s s' h) :
    s.freeOpenFileEntries.cell h ≠ .taken := by
  rw [hn.1]
  exact fun e => by cases e

/-- A handle that is still not displaced was not before, and its inode was not handed out. -/
theorem step_displaced {fhandle : Int} {h i : Nat} (hh : OpenOn s fhandle h i)
    (hd : (g.step c r s s').displaced h = false) :
    g.displaced h = false ∧ ¬ Displaces c s s' i := by
  have hnew : ¬ NewHandle s s' h := fun hn => newHandle_taken hn hh.1.2.2
  simp only [History.step, hnew, if_false, hh.2, Int.toNat_natCast, Bool.or_eq_false_iff,
    decide_eq_false_iff_not] at hd
  exact hd

theorem held_step (hI : Inv s) (hS : StepShape c s s') {i : Nat}
    (hi : Held s' (g.step c r s s') i) (hout : ¬ HandedOut c s s' i) :
    Held s g i ∧ (0 < (s.inodeTable.cell i).iSize →
      ¬ Allocated s s' (s.inodeTable.cell i).iDataBlock.toNat) := by
  obtain ⟨hf, hheld⟩ := hi
  have hf' : FileIndex s i := by
    unfold FileIndex Tfs.inodeTableSize at hf ⊢
    rwa [hS.size] at hf
  have htaken : s'.freeinodeTs.cell i = .taken → Held s g i ∧ (0 < (s.inodeTable.cell i).iSize →
      ¬ Allocated s s' (s.inodeTable.cell i).iDataBlock.toNat) := by
    intro ht
    rcases hS.taken i ht with ht | ho
    · refine ⟨⟨hf', Or.inl ht⟩, fun hz ha => ?_⟩
      have hfree := ha.1
      rw [hI.owned i hf' ht hz] at hfree
      cases hfree
    · exact absurd ho hout
  rcases hheld with ht | ⟨fhandle, h, hh, hd⟩
  · exact htaken ht
  · rcases hS.handles fhandle h i hh with hold | hnew
    · obtain ⟨hd', hdis⟩ := step_displaced hold hd
      exact ⟨⟨hf', Or.inr ⟨fhandle, h, hold, hd'⟩⟩, fun hz ha => hdis (Or.inr ⟨hz, ha⟩)⟩
    · exact htaken (hS.newTaken fhandle h i hh hnew)

theorem hist_step (hI : Inv s) (hH : Hist s g) (hS : StepShape c s s') :
    Hist s' (g.step c r s s') := by
  constructor
  case owner =>
    intro fhandle h i hh hd
    by_cases hnew : NewHandle s s' h
    · simp only [History.step, hnew, if_true, hh.2, Int.toNat_natCast]
    · rcases hS.handles fhandle h i hh with hold | hn
      swap
      · exact absurd hn hnew
      obtain ⟨hd', hdis⟩ := step_displaced hold hd
      have hout : ¬ HandedOut c s s' i := fun ho => hdis (Or.inl ho)
      simp only [History.step, hnew, if_false, History.nextFile, hout]
      exact hH.owner fhandle h i hold hd'
  case apart =>
    intro i k hi hk hne hzi hzk
    have houti : ¬ HandedOut c s s' i := fun ho => by have := hS.emptied i ho; omega
    have houtk : ¬ HandedOut c s s' k := fun ho => by have := hS.emptied k ho; omega
    obtain ⟨hi', hai⟩ := held_step hI hS hi houti
    obtain ⟨hk', hak⟩ := held_step hI hS hk houtk
    obtain ⟨w, b, hb⟩ := hS.blocks
    rcases hb i houti hzi with ⟨hzi', hbi⟩ | ⟨rfl, hbi, hal⟩ <;>
      rcases hb k houtk hzk with ⟨hzk', hbk⟩ | ⟨rfl, hbk, hal'⟩
    · rw [hbi, hbk]
      exact hH.apart i k hi' hk' hne hzi' hzk'
    · -- a new block is none that an inode in use names
      intro e
      rw [← hbi, e, hbk] at hai
      exact hai hzi' hal'
    · intro e
      rw [← hbk, ← e, hbi] at hak
      exact hak hzk' hal
    · exact absurd rfl hne

end

/-! ## Every call has that shape -/

section
variable {s : Tfs}

theorem shape_self (c : Call) : StepShape c s s where
  size := rfl
  handles _ _ _ hh := Or.inl hh
  newTaken _ h _ hh hn := absurd hh.1.2.2 (newHandle_taken hn)
  taken _ ht := Or.inl ht
  emptied i ho := by
    rcases ho.2.2 with ht | hne
    · rw [ho.2.1] at ht; cases ht
    · exact absurd rfl hne
  blocks := ⟨0, 0, fun _ _ hz => Or.inl ⟨hz, rfl⟩⟩

theorem shape_inodeReset (c : Call) {i : Nat} (hi : s.freeinodeTs.cell i = .free) :
    StepShape c s (inodeReset s i) where
  size := rfl
  handles _ _ _ hh := Or.inl hh
  newTaken _ h _ hh hn := absurd hh.1.2.2 (newHandle_taken hn)
  taken _ ht := Or.inl ht
  emptied k ho := by
    by_cases hk : k = i
    · subst hk; simp [inodeReset]
    · rcases ho.2.2 with ht | hne
      · have ht' : s.freeinodeTs.cell k = .taken := ht
        rw [ho.2.1] at ht'; cases ht'
      · exact absurd (Region.set_cell_ne _ _ hk) hne
  blocks := by
    refine ⟨0, 0, fun k _ hz => Or.inl ?_⟩
    have hk : k ≠ i := by
      rintro rfl
      simp [inodeReset] at hz
    simp only [inodeReset, Region.set_cell_ne _ _ hk] at hz ⊢
    exact ⟨hz, trivial⟩

theorem shape_created {c : Call} (hc : c.isOpen = true) {i j : Nat} {name : CStr}
    (hi : s.freeinodeTs.cell i = .free) : StepShape c s (created s i j name) where
  size := rfl
  handles _ _ _ hh := Or.inl hh
  newTaken _ h _ hh hn := absurd hh.1.2.2 (newHandle_taken hn)
  taken k ht := by
    by_cases hk : k = i
    · subst hk
      exact Or.inr ⟨hc, hi, Or.inl ht⟩
    · simp only [created, inodeCreated, Region.set_cell_ne _ _ hk] at ht
      exact Or.inl ht
  emptied k ho := by
    by_cases hk : k = i
    · subst hk; simp [created, inodeCreated]
    · rcases ho.2.2 with ht | hne
      · simp only [created, inodeCreated, Region.set_cell_ne _ _ hk] at ht
        rw [ho.2.1] at ht; cases ht
      · exact absurd (Region.set_cell_ne _ _ hk) hne
  blocks := by
    refine ⟨0, 0, fun k _ hz => Or.inl ?_⟩
    have hk : k ≠ i := by
      rintro rfl
      simp [created, inodeCreated] at hz
    simp only [created, inodeCreated, Region.set_cell_ne _ _ hk] at hz ⊢
    exact ⟨hz, trivial⟩

theorem shape_truncated (c : Call) {i : Nat} (ht : s.freeinodeTs.cell i = .taken) :
    StepShape c s (truncated s i) := by
  unfold truncated
  split
  swap
  · exact shape_self c
  have hout : ∀ k, HandedOut c s { s with
      freeBlocks := s.freeBlocks.set (s.inodeTable.cell i).iDataBlock.toNat .free
      inodeTable := s.inodeTable.set i { s.inodeTable.cell i with iSize := 0 } } k → False := by
    intro k ho
    have hk : k ≠ i := fun e => handedOut_taken ho (e ▸ ht)
    rcases ho.2.2 with ht' | hne
    · have ht'' : s.freeinodeTs.cell k = .taken := ht'
      rw [ho.2.1] at ht''; cases ht''
    · exact hne (Region.set_cell_ne _ _ hk)
  constructor
  case size => rfl
  case handles => exact fun _ _ _ hh => Or.inl hh
  case newTaken => exact fun _ h _ hh hn => absurd hh.1.2.2 (newHandle_taken hn)
  case taken => exact fun _ ht => Or.inl ht
  case emptied => exact fun k ho => (hout k ho).elim
  case blocks =>
    refine ⟨0, 0, fun k _ hz => Or.inl ?_⟩
    have hk : k ≠ i := by
      rintro rfl
      simp at hz
    simp only [Region.set_cell_ne _ _ hk] at hz ⊢
    exact ⟨hz, trivial⟩

/-- When no inode changes, none is handed out. -/
theorem shape_tables {s' : Tfs} (c : Call) (hp : s'.fsParams = s.fsParams)
    (ht : ∀ k, s'.freeinodeTs.cell k = .taken → s.freeinodeTs.cell k = .taken)
    (hi : s'.inodeTable = s.inodeTable)
    (hh : ∀ fhandle h i, OpenOn s' fhandle h i → OpenOn s fhandle h i) : StepShape c s s' where
  size := hp
  handles fhandle h i ho := Or.inl (hh fhandle h i ho)
  newTaken fhandle h i ho hn := absurd (hh fhandle h i ho).1.2.2 (newHandle_taken hn)
  taken k hk := Or.inl (ht k hk)
  emptied k ho := by
    rcases ho.2.2 with ht' | hne
    · exact absurd (ht k ht') (handedOut_taken ho)
    · rw [hi] at hne
      exact absurd rfl hne
  blocks := ⟨0, 0, fun k _ hz => Or.inl (by rw [hi] at hz ⊢; exact ⟨hz, rfl⟩)⟩

theorem shape_unlinked (c : Call) (i j : Nat) : StepShape c s (unlinked s i j) := by
  refine shape_tables c rfl (fun k hk => ?_) rfl (fun _ _ _ hh => hh)
  by_cases hki : k = i
  · subst hki
    simp [unlinked, inodeFreed] at hk
  · simp only [unlinked, inodeFreed, Region.set_cell_ne _ _ hki] at hk
    exact hk

theorem shape_handleFreed (c : Call) (h : Nat) : StepShape c s (handleFreed s h) := by
  refine shape_tables c rfl (fun _ hk => hk) rfl (fun fhandle k i hh => ?_)
  have hkh : k ≠ h := by
    rintro rfl
    have := hh.1.2.2
    simp [handleFreed] at this
  have ht := hh.1.2.2
  simp only [handleFreed, Region.set_cell_ne _ _ hkh] at ht
  exact ⟨⟨hh.1.1, hh.1.2.1, ht⟩, hh.2⟩

theorem shape_readAdvanced (c : Call) (h n : Nat) : StepShape c s (readAdvanced s h n) := by
  refine shape_tables c rfl (fun _ hk => hk) rfl (fun fhandle k i hh => ⟨hh.1, ?_⟩)
  have hi := hh.2
  by_cases hkh : k = h
  · subst hkh
    simpa [readAdvanced] using hi
  · simpa only [readAdvanced, Region.set_cell_ne _ _ hkh] using hi

theorem shape_written {fhandle : Int} {buffer : Nat → UInt8} {toWrite h i b n : Nat}
    (hnew : (s.inodeTable.cell i).iSize = 0 → s.freeBlocks.cell b = .free)
    (hold : 0 < (s.inodeTable.cell i).iSize → (s.inodeTable.cell i).iDataBlock = b) :
    StepShape (.tfsWrite fhandle buffer toWrite) s (written s h i b buffer n) where
  size := rfl
  handles fh k l hh := by
    refine Or.inl ⟨hh.1, ?_⟩
    have hi := hh.2
    by_cases hkh : k = h
    · subst hkh
      simpa [written] using hi
    · simpa only [written, Region.set_cell_ne _ _ hkh] using hi
  newTaken _ k _ hh hn := absurd hh.1.2.2 (newHandle_taken hn)
  taken _ ht := Or.inl ht
  emptied _ ho := by cases ho.1
  blocks := by
    refine ⟨i, b, fun k _ hz => ?_⟩
    by_cases hki : k = i
    · subst hki
      rcases Nat.eq_zero_or_pos (s.inodeTable.cell k).iSize with hz0 | hz0
      · refine Or.inr ⟨rfl, by simp [written], hnew hz0, ?_⟩
        simp [written, hz0]
      · refine Or.inl ⟨hz0, ?_⟩
        simp [written, hold hz0]
    · simp only [written, Region.set_cell_ne _ _ hki] at hz ⊢
      exact Or.inl ⟨hz, trivial⟩

theorem shape_addHandle {c : Call} {s₁ s' : Tfs} {i offset : Nat} {r : Int}
    (hS : StepShape c s s₁) (hentries : s₁.freeOpenFileEntries = s.freeOpenFileEntries)
    (ht : s₁.freeinodeTs.cell i = .taken) (hr : AddHandle s₁ i offset r s') :
    StepShape c s s' := by
  cases hr with
  | full hh => exact hS
  | slot h hh =>
    have hnew : NewHandle s (handleAdded s₁ h i offset) h := by
      refine ⟨?_, by simp [handleAdded]⟩
      rw [← hentries]
      exact hh.2.1
    have hother : ∀ fhandle k l, k ≠ h → OpenOn (handleAdded s₁ h i offset) fhandle k l →
        OpenOn s₁ fhandle k l := by
      rintro fhandle k l hkh ⟨⟨h1, h2, h3⟩, h4⟩
      simp only [handleAdded, Region.set_cell_ne _ _ hkh] at h3 h4
      exact ⟨⟨h1, h2, h3⟩, h4⟩
    constructor
    case size => exact hS.size
    case taken => exact hS.taken
    case emptied => exact hS.emptied
    case blocks => exact hS.blocks
    case handles =>
      intro fhandle k l hkl
      by_cases hkh : k = h
      · subst hkh
        exact Or.inr hnew
      · refine (hS.handles fhandle k l (hother fhandle k l hkh hkl)).imp_right (fun hn => ?_)
        refine ⟨hn.1, ?_⟩
        simp only [handleAdded, Region.set_cell_ne _ _ hkh]
        exact hn.2
    case newTaken =>
      intro fhandle k l hkl hn
      by_cases hkh : k = h
      · subst hkh
        have hl := hkl.2
        simp only [handleAdded, Region.set_cell_self] at hl
        have : i = l := by omega
        subst this
        exact ht
      · have htaken := hkl.1.2.2
        simp only [handleAdded, Region.set_cell_ne _ _ hkh, hentries] at htaken
        exact absurd htaken (newHandle_taken hn)

theorem effect_shape (hI : Inv s) {c : Call} {r : Ret} {s' : Tfs} (h : Effect s c r s') :
    StepShape c s s' := by
  cases h with
  | openBad hv => exact shape_self _
  | openAbsent hv ha hm => exact shape_self _
  | openNoInode hv ha hm hi => exact shape_self _
  | openNoEntry i hv ha hm hi hn => exact shape_inodeReset _ hi.2.1
  | openCreate i j hv ha hm hi hn hj hr =>
    exact shape_addHandle (shape_created rfl hi.2.1) rfl (by simp [created, inodeCreated]) hr
  | openFound j i hv hn h₁ hr =>
    obtain ⟨hf, ht⟩ := hI.named_file hn
    subst h₁
    split at hr
    · have hentries : (truncated s i).freeOpenFileEntries = s.freeOpenFileEntries := by
        unfold truncated; split <;> rfl
      have htaken : (truncated s i).freeinodeTs.cell i = .taken := by
        unfold truncated; split <;> exact ht
      exact shape_addHandle (shape_truncated _ ht) hentries htaken hr
    · exact shape_addHandle (shape_self _) rfl ht hr
  | closeBad hh => exact shape_self _
  | close h hh => exact shape_handleFreed _ h
  | writeBad hh => exact shape_self _
  | writeZero h i hh hn => exact shape_self _
  | writeNoBlock h i hh hn hz hb => exact shape_self _
  | write h i b n hh hn hclamp hmin hb hnew hold =>
    exact shape_written (fun hz => (hnew hz).2.1) hold
  | readBad hh => exact shape_self _
  | readZero h i hh hn => exact shape_self _
  | read h i b n hh hn hlen hb hin => exact shape_readAdvanced _ h n
  | unlinkBad hv => exact shape_self _
  | unlinkAbsent hv ha => exact shape_self _
  | unlink j i hv hn => exact shape_unlinked _ i j

end

/-! ## Runs -/

/-- The parameters stay. -/
theorem run_fsParams {s₁ s : Tfs} {cs : List Call} {rs : List Ret} (hI : Inv s₁)
    (hrun : run exec s₁ cs = ok (rs, s)) : s.fsParams = s₁.fsParams := by
  refine (run_inv (I := fun t => Inv t ∧ t.fsParams = s₁.fsParams) ?_ ⟨hI, rfl⟩ hrun).2
  intro t c r t' ht hc
  exact ⟨exec_inv ht.1 hc, (effect_shape ht.1 (exec_effect ht.1 hc)).size.trans ht.2⟩

theorem Initial.not_openOn {s : Tfs} (hi : Initial s) {fhandle : Int} {h i : Nat} :
    ¬ OpenOn s fhandle h i := by
  intro hh
  have := hh.1.2.2
  rw [hi.handles h hh.1.2.1] at this
  cases this

theorem Initial.not_held {s : Tfs} (hi : Initial s) {g : History} {i : Nat} : ¬ Held s g i := by
  rintro ⟨hf, ht | ⟨fhandle, h, hh, -⟩⟩
  · rw [hi.inodes i hf] at ht
    cases ht
  · exact hi.not_openOn hh

theorem hist_initial {s : Tfs} (hi : Initial s) : Hist s .init :=
  ⟨fun _ _ _ hh => absurd hh hi.not_openOn, fun _ _ h => absurd h hi.not_held⟩

theorem hist_exec {sg sg' : Tfs × History} {c : Call} {r : Ret} (hI : Inv sg.1)
    (hH : Hist sg.1 sg.2) (h : withHistory exec History.step sg c = ok (r, sg')) :
    Inv sg'.1 ∧ Hist sg'.1 sg'.2 := by
  obtain ⟨s, g⟩ := sg
  obtain ⟨s', g'⟩ := sg'
  obtain ⟨hex, rfl⟩ := withHistory_eq_ok.mp h
  exact ⟨exec_inv hI hex, hist_step (r := r) hI hH (effect_shape hI (exec_effect hI hex))⟩

theorem hist_run {s s' : Tfs} {g g' : History} {cs : List Call} {rs : List Ret} (hI : Inv s)
    (hH : Hist s g) (h : run (withHistory exec History.step) (s, g) cs = ok (rs, (s', g'))) :
    Inv s' ∧ Hist s' g' :=
  run_inv (I := fun sg : Tfs × History => Inv sg.1 ∧ Hist sg.1 sg.2)
    (fun _ _ _ _ hs hc => hist_exec hs.1 hs.2 hc) ⟨hI, hH⟩ h

end Mbroker
