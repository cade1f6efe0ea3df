import Mbroker.Fs.Effect
import Mbroker.Lib.Counting

/-!
# The invariant is kept

Every update of a returning call keeps `Inv`, hence every returning call does.  No
bound on the length of a write is needed: a copy whose length wrapped around leaves
`fs_data`, and such a call does not return.

    exec_inv : Inv s → exec s c = ok (r, s') → Inv s'
-/

namespace Mbroker

open CLib CLib.Outcome

/-! ## Parts of the invariant -/

/-- What it says of the taken inodes and their blocks. -/
structure FilesOk (s : Tfs) : Prop where
  file : ∀ i, FileIndex s i → s.freeinodeTs.cell i = .taken →
    FileOk s.fsParams (s.inodeTable.cell i)
  owned : ∀ i, FileIndex s i → s.freeinodeTs.cell i = .taken → 0 < (s.inodeTable.cell i).iSize →
    s.freeBlocks.cell (s.inodeTable.cell i).iDataBlock.toNat = .taken
  uniq : ∀ i k, FileIndex s i → FileIndex s k → i ≠ k → s.freeinodeTs.cell i = .taken →
    s.freeinodeTs.cell k = .taken → 0 < (s.inodeTable.cell i).iSize →
    0 < (s.inodeTable.cell k).iSize →
    (s.inodeTable.cell i).iDataBlock ≠ (s.inodeTable.cell k).iDataBlock

/-- What it says of the directory and the inode allocation table. -/
structure DirectoryOk (s : Tfs) : Prop where
  liveInode : ∀ j, j < s.maxDirEntries → Live s.fsData 0 j →
    ∃ i : Nat, slotInum s.fsData 0 j = i ∧ FileIndex s i ∧ s.freeinodeTs.cell i = .taken
  inums : ∀ j k, j < s.maxDirEntries → k < s.maxDirEntries → Live s.fsData 0 j →
    slotInum s.fsData 0 j = slotInum s.fsData 0 k → j = k
  takenLive : ∀ i, FileIndex s i → s.freeinodeTs.cell i = .taken →
    ∃ j, j < s.maxDirEntries ∧ slotInum s.fsData 0 j = (i : Int)

theorem fileOk_empty (p : TfsParams) : FileOk p ⟨.tFile, 0, -1⟩ :=
  ⟨rfl, Nat.zero_le _, fun h => absurd h (Nat.lt_irrefl 0)⟩

theorem fileOk_set {p : TfsParams} {t : Region Inode} {i k : Nat} {inode : Inode}
    (hnew : FileOk p inode) (hk : FileOk p (t.cell k)) : FileOk p ((t.set i inode).cell k) := by
  by_cases hki : k = i
  · subst hki
    rw [Region.set_cell_self]
    exact hnew
  · rw [Region.set_cell_ne _ _ hki]
    exact hk

section
variable {s : Tfs} (hI : Inv s)

include hI

theorem Inv.blockSize_lt : s.blockSize < 2 ^ 64 := by
  have h1 := hI.sane.bytes
  have h2 := blockEnd_le (s := s) hI.root.blockPos
  omega

/-! ## Handles -/

theorem inv_handleAdded {i offset : Nat} (h : Nat) (hf : FileIndex s i)
    (hok : FileOk s.fsParams (s.inodeTable.cell i)) (hoff : offset < 2 ^ 64) :
    Inv (handleAdded s h i offset) where
  sane := { hI.sane with
    openFileTable := hI.sane.openFileTable.set h _
    freeOpenFileEntries := hI.sane.freeOpenFileEntries.set h _ }
  root := { hI.root with }
  rootTaken := hI.rootTaken
  rootBlock := hI.rootBlock
  liveInode := hI.liveInode
  inums := hI.inums
  takenLive := hI.takenLive
  file := hI.file
  owned := hI.owned
  uniq := hI.uniq
  handle k hk ht := by
    by_cases hkh : k = h
    · subst hkh
      refine ⟨i, ?_, hf, hok⟩
      simp [handleAdded]
    · simp only [handleAdded, Region.set_cell_ne _ _ hkh] at ht ⊢
      exact hI.handle k hk ht
  offsetLt k hk ht := by
    by_cases hkh : k = h
    · subst hkh; simpa [handleAdded] using hoff
    · simp only [handleAdded, Region.set_cell_ne _ _ hkh] at ht ⊢
      exact hI.offsetLt k hk ht

theorem inv_handleFreed (h : Nat) : Inv (handleFreed s h) where
  sane := { hI.sane with freeOpenFileEntries := hI.sane.freeOpenFileEntries.set h _ }
  root := { hI.root with }
  rootTaken := hI.rootTaken
  rootBlock := hI.rootBlock
  liveInode := hI.liveInode
  inums := hI.inums
  takenLive := hI.takenLive
  file := hI.file
  owned := hI.owned
  uniq := hI.uniq
  handle k hk ht := by
    by_cases hkh : k = h
    · subst hkh; simp [handleFreed] at ht
    · simp only [handleFreed, Region.set_cell_ne _ _ hkh] at ht ⊢
      exact hI.handle k hk ht
  offsetLt k hk ht := by
    by_cases hkh : k = h
    · subst hkh; simp [handleFreed] at ht
    · simp only [handleFreed, Region.set_cell_ne _ _ hkh] at ht ⊢
      exact hI.offsetLt k hk ht

theorem inv_readAdvanced {h n : Nat} (hoff : (s.openFileTable.cell h).ofOffset + n < 2 ^ 64) :
    Inv (readAdvanced s h n) where
  sane := { hI.sane with openFileTable := hI.sane.openFileTable.set h _ }
  root := { hI.root with }
  rootTaken := hI.rootTaken
  rootBlock := hI.rootBlock
  liveInode := hI.liveInode
  inums := hI.inums
  takenLive := hI.takenLive
  file := hI.file
  owned := hI.owned
  uniq := hI.uniq
  handle k hk ht := by
    obtain ⟨i, hi, hrest⟩ := hI.handle k hk ht
    refine ⟨i, ?_, hrest⟩
    by_cases hkh : k = h
    · subst hkh; simpa [readAdvanced] using hi
    · simpa only [readAdvanced, Region.set_cell_ne _ _ hkh] using hi
  offsetLt k hk ht := by
    by_cases hkh : k = h
    · subst hkh; simpa [readAdvanced] using hoff
    · simpa only [readAdvanced, Region.set_cell_ne _ _ hkh] using hI.offsetLt k hk ht

/-! ## Inodes -/

/-- Only inode `i` changes, and if it is taken it is an empty file; the other files keep their
blocks. -/
theorem filesOk_emptied {s' : Tfs} {i : Nat} (hp : s'.fsParams = s.fsParams)
    (hcell : ∀ k, k ≠ i → s'.inodeTable.cell k = s.inodeTable.cell k)
    (hts : ∀ k, k ≠ i → s'.freeinodeTs.cell k = s.freeinodeTs.cell k)
    (hempty : s'.freeinodeTs.cell i = .taken → FileOk s.fsParams (s'.inodeTable.cell i) ∧
      (s'.inodeTable.cell i).iSize = 0)
    (hblocks : ∀ k, FileIndex s k → k ≠ i → s.freeinodeTs.cell k = .taken →
      0 < (s.inodeTable.cell k).iSize →
      s'.freeBlocks.cell (s.inodeTable.cell k).iDataBlock.toNat = .taken) : FilesOk s' := by
  have hindex : ∀ k, FileIndex s' k → FileIndex s k := by
    intro k hk
    refine ⟨hk.1, ?_⟩
    simpa only [Tfs.inodeTableSize, hp] using hk.2
  have hother : ∀ k, s'.freeinodeTs.cell k = .taken → 0 < (s'.inodeTable.cell k).iSize →
      k ≠ i := by
    rintro k htk hz rfl
    rw [(hempty htk).2] at hz
    exact absurd hz (Nat.lt_irrefl 0)
  constructor
  case file =>
    intro k hk htk
    rw [hp]
    by_cases hki : k = i
    · subst hki
      exact (hempty htk).1
    · rw [hts k hki] at htk
      rw [hcell k hki]
      exact hI.file k (hindex k hk) htk
  case owned =>
    intro k hk htk hz
    have hki := hother k htk hz
    rw [hts k hki] at htk
    rw [hcell k hki] at hz ⊢
    exact hblocks k (hindex k hk) hki htk hz
  case uniq =>
    intro k l hk hl hkl htk htl hzk hzl
    have hki := hother k htk hzk
    have hli := hother l htl hzl
    rw [hts k hki] at htk
    rw [hts l hli] at htl
    rw [hcell k hki] at hzk ⊢
    rw [hcell l hli] at hzl ⊢
    exact hI.uniq k l (hindex k hk) (hindex l hl) hkl htk htl hzk hzl

/-- The block of `i` belongs to no other file. -/
theorem other_block {i k : Nat} (hf : FileIndex s i) (ht : s.freeinodeTs.cell i = .taken)
    (hz : 0 < (s.inodeTable.cell i).iSize) (hk : FileIndex s k) (hki : k ≠ i)
    (htk : s.freeinodeTs.cell k = .taken) (hzk : 0 < (s.inodeTable.cell k).iSize) :
    (s.inodeTable.cell k).iDataBlock.toNat ≠ (s.inodeTable.cell i).iDataBlock.toNat := by
  obtain ⟨b, hb, -, -⟩ := (hI.file i hf ht).block hz
  obtain ⟨b', hb', -, -⟩ := (hI.file k hk htk).block hzk
  have hne := hI.uniq k i hk hf hki htk ht hzk hz
  rw [hb, hb'] at hne ⊢
  simp only [Int.toNat_natCast]
  omega

theorem inv_truncated {i : Nat} (hf : FileIndex s i) (ht : s.freeinodeTs.cell i = .taken) :
    Inv (truncated s i) := by
  unfold truncated
  split
  swap
  · exact hI
  next hz =>
  have hne0 : (0 : Nat) ≠ i := by have := hf.1; omega
  obtain ⟨b, hb, hb0, hblt⟩ := (hI.file i hf ht).block hz
  have hok : FileOk s.fsParams { s.inodeTable.cell i with iSize := 0 } :=
    ⟨(hI.file i hf ht).type, Nat.zero_le _, fun h => absurd h (Nat.lt_irrefl 0)⟩
  have hcell : ∀ k, k ≠ i → (s.inodeTable.set i { s.inodeTable.cell i with iSize := 0 }).cell k =
      s.inodeTable.cell k := fun k hk => Region.set_cell_ne _ _ hk
  have hfiles : FilesOk { s with
      freeBlocks := s.freeBlocks.set (s.inodeTable.cell i).iDataBlock.toNat .free
      inodeTable := s.inodeTable.set i { s.inodeTable.cell i with iSize := 0 } } := by
    refine filesOk_emptied hI rfl hcell (fun _ _ => rfl) (fun _ => ?_) (fun k hk hki htk hzk => ?_)
    · rw [Region.set_cell_self]
      exact ⟨hok, rfl⟩
    · exact (Region.set_cell_ne _ _ (other_block hI hf ht hz hk hki htk hzk)).trans
        (hI.owned k hk htk hzk)
  constructor
  case sane =>
    exact { hI.sane with
      inodeTable := hI.sane.inodeTable.set i _
      freeBlocks := hI.sane.freeBlocks.set _ _ }
  case root => exact { hI.root with inode := (hcell 0 hne0).trans hI.root.inode }
  case rootTaken => exact hI.rootTaken
  case rootBlock =>
    simp only
    rw [Region.set_cell_ne _ _ (by rw [hb]; simp; omega)]
    exact hI.rootBlock
  case liveInode => exact hI.liveInode
  case inums => exact hI.inums
  case takenLive => exact hI.takenLive
  case file => exact hfiles.file
  case owned => exact hfiles.owned
  case uniq => exact hfiles.uniq
  case handle =>
    intro h hh hth
    obtain ⟨k, hk, hfk, hokk⟩ := hI.handle h hh hth
    exact ⟨k, hk, hfk, fileOk_set hok hokk⟩
  case offsetLt => exact hI.offsetLt

/-- The inode of a failed creation is free again; stale handles see an empty file. -/
theorem inv_inodeReset {i : Nat} (hi : FirstAt (fun i => s.freeinodeTs.cell i = .free)
    s.inodeTableSize i) : Inv (inodeReset s i) := by
  have hfree : s.freeinodeTs.cell i = .free := hi.2.1
  have hcell : ∀ k, k ≠ i → (inodeReset s i).inodeTable.cell k = s.inodeTable.cell k :=
    fun k hk => Region.set_cell_ne _ _ hk
  have hne0 : (0 : Nat) ≠ i := by
    rintro rfl
    rw [hI.rootTaken] at hfree
    cases hfree
  have hfiles : FilesOk (inodeReset s i) := by
    refine filesOk_emptied hI rfl hcell (fun _ _ => rfl) (fun ht => ?_)
      (fun k hk _ htk hzk => hI.owned k hk htk hzk)
    rw [show s.freeinodeTs.cell i = .taken from ht] at hfree
    cases hfree
  constructor
  case sane => exact { hI.sane with inodeTable := hI.sane.inodeTable.set i _ }
  case root => exact { hI.root with inode := (hcell 0 hne0).trans hI.root.inode }
  case rootTaken => exact hI.rootTaken
  case rootBlock => exact hI.rootBlock
  case liveInode => exact hI.liveInode
  case inums => exact hI.inums
  case takenLive => exact hI.takenLive
  case file => exact hfiles.file
  case owned => exact hfiles.owned
  case uniq => exact hfiles.uniq
  case handle =>
    intro h hh hth
    obtain ⟨k, hk, hfk, hokk⟩ := hI.handle h hh hth
    exact ⟨k, hk, hfk, fileOk_set (fileOk_empty _) hokk⟩
  case offsetLt => exact hI.offsetLt

/-! ## Creation and removal -/

/-- The first free slot lies before the end of the inode table: the slots before it
hold distinct inumbers of files. -/
theorem firstFree_lt {j : Nat} (hj : FirstAt (fun j => ¬ Live s.fsData 0 j) s.maxDirEntries j) :
    j < s.inodeTableSize := by
  have hlive : ∀ k, k < j → k < s.maxDirEntries ∧ Live s.fsData 0 k :=
    fun k hk => ⟨by have := hj.1; omega, Classical.not_not.mp (hj.2.2 k hk)⟩
  have hinum : ∀ k, k < j → ∃ i : Nat, slotInum s.fsData 0 k = i ∧ FileIndex s i := by
    intro k hk
    obtain ⟨i, hi, hf, -⟩ := hI.liveInode k (hlive k hk).1 (hlive k hk).2
    exact ⟨i, hi, hf⟩
  refine injOn_lt (f := fun k => (slotInum s.fsData 0 k).toNat) hI.root.inodePos ?_ ?_
  · intro k hk
    obtain ⟨i, hi, hf⟩ := hinum k hk
    simp only [hi, Int.toNat_natCast]
    exact hf
  · intro k l hk hl he
    obtain ⟨i, hi, -⟩ := hinum k hk
    obtain ⟨i', hi', -⟩ := hinum l hl
    simp only [hi, hi', Int.toNat_natCast] at he
    exact hI.inums k l (hlive k hk).1 (hlive l hl).1 (hlive k hk).2 (by rw [hi, hi', he])

omit hI in
theorem live_created {i j k : Nat} {name : CStr} (hk : k ≠ j) :
    Live (created s i j name).fsData 0 k ↔ Live s.fsData 0 k :=
  live_congr (addEntry_ne hk).1

omit hI in
theorem live_unlinked {i j k : Nat} (h : Live (unlinked s i j).fsData 0 k) :
    k ≠ j ∧ Live s.fsData 0 k := by
  have hkj : k ≠ j := fun e => clearEntry_not_live j (e ▸ h)
  exact ⟨hkj, (live_congr (clearEntry_ne hkj).1).mp h⟩

/-- Slot `j`, which was not live, has the number of inode `i`, which was FREE. -/
theorem directoryOk_created {i j : Nat} (name : CStr) (hf : FileIndex s i)
    (hfree : s.freeinodeTs.cell i = .free) (hj : j < s.maxDirEntries)
    (hdead : ¬ Live s.fsData 0 j) : DirectoryOk (created s i j name) := by
  have hiint := hI.sane.inodeInt
  have hlt := hf.2
  have hne : ∀ k, s.freeinodeTs.cell k = .taken → k ≠ i := by
    rintro k hk rfl
    rw [hfree] at hk
    cases hk
  have hts : ∀ k, k ≠ i → (created s i j name).freeinodeTs.cell k = s.freeinodeTs.cell k :=
    fun k hk => Region.set_cell_ne _ _ hk
  have hinum : slotInum (created s i j name).fsData 0 j = i := addEntry_inum (by omega)
  have hslot : ∀ k, k ≠ j → slotInum (created s i j name).fsData 0 k = slotInum s.fsData 0 k :=
    fun k hk => (addEntry_ne hk).1
  -- no live slot holds the new inumber
  have hfresh : ∀ k, k < s.maxDirEntries → Live s.fsData 0 k → slotInum s.fsData 0 k ≠ i := by
    intro k hk hl he
    obtain ⟨i', hi', -, ht⟩ := hI.liveInode k hk hl
    exact hne i' ht (by omega)
  constructor
  case liveInode =>
    intro k hk hl
    by_cases hkj : k = j
    · subst hkj
      exact ⟨i, hinum, hf, Region.set_cell_self _ _ _⟩
    · obtain ⟨i', hi', hf', ht'⟩ := hI.liveInode k hk ((live_created hkj).mp hl)
      exact ⟨i', (hslot k hkj).trans hi', hf', (hts i' (hne i' ht')).trans ht'⟩
  case inums =>
    intro k l hk hl hlk he
    by_cases hkj : k = j
    · by_cases hlj : l = j
      · rw [hkj, hlj]
      · subst hkj
        rw [hinum, hslot l hlj] at he
        have hll : Live s.fsData 0 l := by unfold Live; omega
        exact absurd he.symm (hfresh l hl hll)
    · by_cases hlj : l = j
      · subst hlj
        rw [hinum, hslot k hkj] at he
        exact absurd he (hfresh k hk ((live_created hkj).mp hlk))
      · rw [hslot k hkj, hslot l hlj] at he
        exact hI.inums k l hk hl ((live_created hkj).mp hlk) he
  case takenLive =>
    intro k hk htk
    by_cases hki : k = i
    · subst hki
      exact ⟨j, hj, hinum⟩
    · rw [hts k hki] at htk
      obtain ⟨l, hl, he⟩ := hI.takenLive k hk htk
      have hlj : l ≠ j := by
        rintro rfl
        exact hdead (by unfold Live; omega)
      exact ⟨l, hl, (hslot l hlj).trans he⟩

theorem inv_created {i j : Nat} {name : CStr}
    (hi : FirstAt (fun i => s.freeinodeTs.cell i = .free) s.inodeTableSize i)
    (hn : 1 ≤ name.strlen ∧ name.strlen ≤ 39) (ha : Absent s name)
    (hj : FirstAt (fun j => ¬ Live s.fsData 0 j) s.maxDirEntries j) :
    Inv (created s i j name) := by
  have hfree : s.freeinodeTs.cell i = .free := hi.2.1
  have hiint := hI.sane.inodeInt
  have hne0 : (0 : Nat) ≠ i := by
    rintro rfl
    rw [hI.rootTaken] at hfree
    cases hfree
  have hfi : FileIndex s i := ⟨by omega, hi.1⟩
  have hcell : ∀ k, k ≠ i → (created s i j name).inodeTable.cell k = s.inodeTable.cell k :=
    fun k hk => Region.set_cell_ne _ _ hk
  have hts : ∀ k, k ≠ i → (created s i j name).freeinodeTs.cell k = s.freeinodeTs.cell k :=
    fun k hk => Region.set_cell_ne _ _ hk
  have hself : (created s i j name).inodeTable.cell i = ⟨.tFile, 0, -1⟩ := Region.set_cell_self _ _ _
  have hdirectory := directoryOk_created hI name hfi hfree hj.1 hj.2.1
  have hfiles : FilesOk (created s i j name) := by
    refine filesOk_emptied hI rfl hcell hts (fun _ => ?_)
      (fun k hk _ htk hzk => hI.owned k hk htk hzk)
    rw [hself]
    exact ⟨fileOk_empty _, rfl⟩
  constructor
  case sane =>
    exact { sane_inodeCreated hI.sane i with
      fsData := ⟨hI.sane.fsData.nonNull, hI.sane.fsData.lo, hI.sane.fsData.hi⟩ }
  case root =>
    refine ⟨hI.root.inodePos, hI.root.blockPos, (hcell 0 hne0).trans hI.root.inode,
      dirWf_addEntry hI.root.dir hj hn ha ⟨by omega, by have := hi.1; omega⟩, ?_⟩
    intro k hk hl
    by_cases hkj : k = j
    · subst hkj
      exact firstFree_lt hI hj
    · exact hI.root.liveLt k hk ((live_created hkj).mp hl)
  case rootTaken => exact (hts 0 hne0).trans hI.rootTaken
  case rootBlock => exact hI.rootBlock
  case liveInode => exact hdirectory.liveInode
  case inums => exact hdirectory.inums
  case takenLive => exact hdirectory.takenLive
  case file => exact hfiles.file
  case owned => exact hfiles.owned
  case uniq => exact hfiles.uniq
  case handle =>
    intro h hh hth
    obtain ⟨k, hk, hfk, hokk⟩ := hI.handle h hh hth
    exact ⟨k, hk, hfk, fileOk_set (fileOk_empty _) hokk⟩
  case offsetLt => exact hI.offsetLt

/-- Inode `i` is FREE again and its slot `j` is cleared. -/
theorem directoryOk_unlinked {name : CStr} {i j : Nat} (hn : Named s name j i) :
    DirectoryOk (unlinked s i j) := by
  have hts : ∀ k, k ≠ i → (unlinked s i j).freeinodeTs.cell k = s.freeinodeTs.cell k :=
    fun k hk => Region.set_cell_ne _ _ hk
  have hslot : ∀ k, k ≠ j → slotInum (unlinked s i j).fsData 0 k = slotInum s.fsData 0 k :=
    fun k hk => (clearEntry_ne hk).1
  constructor
  case liveInode =>
    intro k hk hl
    obtain ⟨hkj, hl'⟩ := live_unlinked hl
    obtain ⟨i', hi', hf', ht'⟩ := hI.liveInode k hk hl'
    have hii : i' ≠ i := by
      rintro rfl
      exact hkj (hI.inums k j hk hn.1 hl' (hi'.trans hn.2.1.symm))
    exact ⟨i', (hslot k hkj).trans hi', hf', (hts i' hii).trans ht'⟩
  case inums =>
    intro k l hk hl hlk he
    obtain ⟨hkj, hlk'⟩ := live_unlinked hlk
    have hlj : l ≠ j := by
      rintro rfl
      rw [show slotInum (unlinked s i l).fsData 0 l = -1 from clearEntry_inum l, hslot k hkj] at he
      exact hlk' he
    rw [hslot k hkj, hslot l hlj] at he
    exact hI.inums k l hk hl hlk' he
  case takenLive =>
    intro k hk htk
    have hki : k ≠ i := by
      rintro rfl
      simp [unlinked, inodeFreed] at htk
    obtain ⟨l, hl, he⟩ := hI.takenLive k hk ((hts k hki).symm.trans htk)
    have hlj : l ≠ j := by
      rintro rfl
      have := hn.2.1
      omega
    exact ⟨l, hl, (hslot l hlj).trans he⟩

theorem inv_unlinked {name : CStr} {i j : Nat} (hn : Named s name j i) : Inv (unlinked s i j) := by
  obtain ⟨hf, ht⟩ := hI.named_file hn
  have hts : ∀ k, k ≠ i → (unlinked s i j).freeinodeTs.cell k = s.freeinodeTs.cell k :=
    fun k hk => Region.set_cell_ne _ _ hk
  -- a block other than that of `i` keeps its allocation state
  have hblock : ∀ b : Nat, (0 < (s.inodeTable.cell i).iSize →
      b ≠ (s.inodeTable.cell i).iDataBlock.toNat) →
      (unlinked s i j).freeBlocks.cell b = s.freeBlocks.cell b := by
    intro b hb
    simp only [unlinked, inodeFreed]
    split
    · next hz => exact Region.set_cell_ne _ _ (hb hz)
    · rfl
  have hdirectory := directoryOk_unlinked hI hn
  have hfiles : FilesOk (unlinked s i j) := by
    refine filesOk_emptied hI rfl (fun _ _ => rfl) hts (fun hti => ?_) (fun k hk hki htk hzk => ?_)
    · simp [unlinked, inodeFreed] at hti
    · rw [hblock _ (fun hz => other_block hI hf ht hz hk hki htk hzk)]
      exact hI.owned k hk htk hzk
  constructor
  case sane =>
    exact { hI.sane with
      freeinodeTs := hI.sane.freeinodeTs.set i _
      fsData := ⟨hI.sane.fsData.nonNull, hI.sane.fsData.lo, hI.sane.fsData.hi⟩
      freeBlocks := by
        simp only [unlinked, inodeFreed]
        split
        · exact hI.sane.freeBlocks.set _ _
        · exact hI.sane.freeBlocks }
  case root =>
    refine ⟨hI.root.inodePos, hI.root.blockPos, hI.root.inode, dirWf_clearEntry hI.root.dir j, ?_⟩
    intro k hk hl
    exact hI.root.liveLt k hk (live_unlinked hl).2
  case rootTaken => exact (hts 0 (by have := hf.1; omega)).trans hI.rootTaken
  case rootBlock =>
    rw [hblock 0]
    · exact hI.rootBlock
    · intro hz
      obtain ⟨b, hb, hb0, -⟩ := (hI.file i hf ht).block hz
      rw [hb, Int.toNat_natCast]
      omega
  case liveInode => exact hdirectory.liveInode
  case inums => exact hdirectory.inums
  case takenLive => exact hdirectory.takenLive
  case file => exact hfiles.file
  case owned => exact hfiles.owned
  case uniq => exact hfiles.uniq
  case handle => exact hI.handle
  case offsetLt => exact hI.offsetLt

/-! ## Writes -/

omit hI in
/-- Block `b` is taken afterwards, and no taken block becomes free. -/
theorem written_taken {h i b n : Nat} (buffer : Nat → UInt8) {b' : Nat}
    (hb' : s.freeBlocks.cell b' = .taken) :
    (written s h i b buffer n).freeBlocks.cell b' = .taken := by
  simp only [written]
  split
  · rw [Region.set_cell]
    split
    · rfl
    · exact hb'
  · exact hb'

omit hI in
theorem written_fileOk {h i b n : Nat} (buffer : Nat → UInt8)
    (hok : FileOk s.fsParams (s.inodeTable.cell i))
    (hfit : (s.openFileTable.cell h).ofOffset + n ≤ s.blockSize)
    (hb : 0 < b ∧ b < s.dataBlocks) :
    FileOk s.fsParams ((written s h i b buffer n).inodeTable.cell i) := by
  have hself : (written s h i b buffer n).inodeTable.cell i = { s.inodeTable.cell i with
      iDataBlock := (b : Int)
      iSize := max (s.inodeTable.cell i).iSize ((s.openFileTable.cell h).ofOffset + n) } :=
    Region.set_cell_self _ _ _
  rw [hself]
  exact ⟨hok.type, Nat.max_le.mpr ⟨hok.sizeLe, hfit⟩, fun _ => ⟨b, rfl, hb⟩⟩

/-- The block of a write belongs to no other inode: a fresh one was free, an old one is that of
`i` alone. -/
theorem written_other {i b k : Nat} (hf : FileIndex s i)
    (hnew : (s.inodeTable.cell i).iSize = 0 → s.freeBlocks.cell b = .free)
    (hold : 0 < (s.inodeTable.cell i).iSize → (s.inodeTable.cell i).iDataBlock = b)
    (hk : FileIndex s k) (hki : k ≠ i) (htk : s.freeinodeTs.cell k = .taken)
    (hti : s.freeinodeTs.cell i = .taken) (hzk : 0 < (s.inodeTable.cell k).iSize) :
    (s.inodeTable.cell k).iDataBlock ≠ b := by
  intro he
  rcases Nat.eq_zero_or_pos (s.inodeTable.cell i).iSize with hz | hz
  · have hown := hI.owned k hk htk hzk
    rw [he, Int.toNat_natCast, hnew hz] at hown
    cases hown
  · exact hI.uniq k i hk hf hki htk hti hzk hz (he.trans (hold hz).symm)

/-- Inode `i` has block `b` afterwards, which no other file has. -/
theorem filesOk_written {h i b n : Nat} (buffer : Nat → UInt8) (hf : FileIndex s i)
    (hfile : FileOk s.fsParams ((written s h i b buffer n).inodeTable.cell i))
    (hnew : (s.inodeTable.cell i).iSize = 0 → s.freeBlocks.cell b = .free)
    (hold : 0 < (s.inodeTable.cell i).iSize → (s.inodeTable.cell i).iDataBlock = b) :
    FilesOk (written s h i b buffer n) := by
  have hcell : ∀ k, k ≠ i → (written s h i b buffer n).inodeTable.cell k = s.inodeTable.cell k :=
    fun k hk => Region.set_cell_ne _ _ hk
  have hself : ((written s h i b buffer n).inodeTable.cell i).iDataBlock = b := by
    simp [written]
  constructor
  case file =>
    intro k hk htk
    by_cases hki : k = i
    · subst hki
      exact hfile
    · rw [hcell k hki]
      exact hI.file k hk htk
  case owned =>
    intro k hk htk hz
    by_cases hki : k = i
    · subst hki
      rw [hself, Int.toNat_natCast]
      rcases Nat.eq_zero_or_pos (s.inodeTable.cell k).iSize with hz' | hz'
      · simp [written, hz']
      · have hown := hI.owned k hk htk hz'
        rw [hold hz', Int.toNat_natCast] at hown
        exact written_taken buffer hown
    · rw [hcell k hki] at hz ⊢
      exact written_taken buffer (hI.owned k hk htk hz)
  case uniq =>
    intro k l hk hl hkl htk htl hzk hzl
    by_cases hki : k = i
    · subst hki
      rw [hcell l (Ne.symm hkl)] at hzl ⊢
      rw [hself]
      exact Ne.symm (written_other hI hf hnew hold hl (Ne.symm hkl) htl htk hzl)
    · rw [hcell k hki] at hzk ⊢
      by_cases hli : l = i
      · subst hli
        rw [hself]
        exact written_other hI hf hnew hold hk hki htk htl hzk
      · rw [hcell l hli] at hzl ⊢
        exact hI.uniq k l hk hl hkl htk htl hzk hzl

theorem inv_written {fhandle : Int} {h i b n : Nat} (buffer : Nat → UInt8)
    (hh : OpenOn s fhandle h i)
    (hfit : (s.openFileTable.cell h).ofOffset + n ≤ s.blockSize)
    (hb : 0 < b ∧ b < s.dataBlocks)
    (hnew : (s.inodeTable.cell i).iSize = 0 →
      FirstAt (fun b => s.freeBlocks.cell b = .free) s.dataBlocks b)
    (hold : 0 < (s.inodeTable.cell i).iSize → (s.inodeTable.cell i).iDataBlock = b) :
    Inv (written s h i b buffer n) := by
  obtain ⟨hf, hok⟩ := hI.openOn_file hh
  have hbs := hI.blockSize_lt
  have hcell : ∀ k, k ≠ i → (written s h i b buffer n).inodeTable.cell k = s.inodeTable.cell k :=
    fun k hk => Region.set_cell_ne _ _ hk
  have hfile := written_fileOk buffer hok hfit hb
  have hfiles := filesOk_written hI buffer hf hfile (fun hz => (hnew hz).2.1) hold
  -- the root's block lies before block `b`
  have hdir : s.blockSize ≤ b * s.blockSize := Nat.le_mul_of_pos_left _ hb.1
  have hentries := rootEntries_le s
  have hslot : ∀ k, k < s.maxDirEntries →
      slotInum (written s h i b buffer n).fsData 0 k = slotInum s.fsData 0 k ∧
        slotName (written s h i b buffer n).fsData 0 k = slotName s.fsData 0 k :=
    fun k hk => slot_put_out _ hk (by omega)
  have hlive : ∀ k, k < s.maxDirEntries →
      (Live (written s h i b buffer n).fsData 0 k ↔ Live s.fsData 0 k) :=
    fun k hk => live_congr (hslot k hk).1
  constructor
  case sane =>
    exact { hI.sane with
      inodeTable := hI.sane.inodeTable.set i _
      fsData := hI.sane.fsData.put _ _ _
      openFileTable := hI.sane.openFileTable.set h _
      freeBlocks := by
        simp only [written]
        split
        · exact hI.sane.freeBlocks.set _ _
        · exact hI.sane.freeBlocks }
  case root =>
    refine ⟨hI.root.inodePos, hI.root.blockPos, (hcell 0 (by have := hf.1; omega)).trans hI.root.inode,
      dirWf_congr hI.root.dir rfl rfl hslot, ?_⟩
    intro k hk hl
    exact hI.root.liveLt k hk ((hlive k hk).mp hl)
  case rootTaken => exact hI.rootTaken
  case rootBlock => exact written_taken buffer hI.rootBlock
  case liveInode =>
    intro k hk hl
    rw [(hslot k hk).1]
    exact hI.liveInode k hk ((hlive k hk).mp hl)
  case inums =>
    intro k l hk hl hlk he
    rw [(hslot k hk).1, (hslot l hl).1] at he
    exact hI.inums k l hk hl ((hlive k hk).mp hlk) he
  case takenLive =>
    intro k hk htk
    obtain ⟨l, hl, he⟩ := hI.takenLive k hk htk
    exact ⟨l, hl, (hslot l hl).1.trans he⟩
  case file => exact hfiles.file
  case owned => exact hfiles.owned
  case uniq => exact hfiles.uniq
  case handle =>
    intro k hk htk
    obtain ⟨i', hi', hf', hok'⟩ := hI.handle k hk htk
    refine ⟨i', ?_, hf', ?_⟩
    · by_cases hkh : k = h
      · subst hkh; simpa [written] using hi'
      · simpa only [written, Region.set_cell_ne _ _ hkh] using hi'
    · by_cases hii : i' = i
      · subst hii; exact hfile
      · rw [hcell i' hii]; exact hok'
  case offsetLt =>
    intro k hk htk
    by_cases hkh : k = h
    · subst hkh; simp only [written, Region.set_cell_self]; omega
    · simpa only [written, Region.set_cell_ne _ _ hkh] using hI.offsetLt k hk htk

/-! ## Calls -/

theorem inv_addHandle {i offset : Nat} {r : Int} {s' : Tfs} (hf : FileIndex s i)
    (hok : FileOk s.fsParams (s.inodeTable.cell i)) (hoff : offset < 2 ^ 64)
    (h : AddHandle s i offset r s') : Inv s' := by
  cases h with
  | full hh => exact hI
  | slot h hh => exact inv_handleAdded hI h hf hok hoff

theorem effect_inv {c : Call} {r : Ret} {s' : Tfs} (h : Effect s c r s') : Inv s' := by
  cases h with
  | openBad hv => exact hI
  | openAbsent hv ha hm => exact hI
  | openNoInode hv ha hm hi => exact hI
  | openNoEntry i hv ha hm hi hn => exact inv_inodeReset hI hi
  | openCreate i j hv ha hm hi hn hj hr =>
    have hI' := inv_created hI hi hn ha hj
    have hi0 : 0 < i := by
      rcases Nat.eq_zero_or_pos i with rfl | h
      · have hfree : s.freeinodeTs.cell 0 = .free := hi.2.1
        rw [hI.rootTaken] at hfree; cases hfree
      · exact h
    refine inv_addHandle hI' ⟨hi0, hi.1⟩ ?_ (by omega) hr
    exact hI'.file i ⟨hi0, hi.1⟩ (Region.set_cell_self _ _ _)
  | @openFound path mode r s₁ _ j i hv hn h₁ hr =>
    obtain ⟨hf, ht⟩ := hI.named_file hn
    have key : ∀ s₁ : Tfs, Inv s₁ → FileIndex s₁ i → s₁.freeinodeTs.cell i = .taken →
        AddHandle s₁ i (if hasFlag mode tfsOAppend then (s₁.inodeTable.cell i).iSize else 0) r s' →
        Inv s' := by
      intro s₁ hI₁ hf₁ ht₁ hr₁
      have hle := hI₁.sizeLe hf₁ ht₁
      have hbs := hI₁.blockSize_lt
      exact inv_addHandle hI₁ hf₁ (hI₁.file i hf₁ ht₁) (by split <;> omega) hr₁
    subst h₁
    cases hm : hasFlag mode tfsOTrunc with
    | false =>
      rw [hm] at hr
      exact key s hI hf ht hr
    | true =>
      rw [hm] at hr
      refine key (truncated s i) (inv_truncated hI hf ht) ?_ ?_ hr
      · exact ⟨hf.1, by rw [truncated_inodeTableSize]; exact hf.2⟩
      · unfold truncated; split <;> exact ht
  | closeBad hh => exact hI
  | close h hh => exact inv_handleFreed hI h
  | writeBad hh => exact hI
  | writeZero h i hh hn => exact hI
  | writeNoBlock h i hh hn hz hb => exact hI
  | write h i b n hh hn hclamp hmin hb hnew hold =>
    exact inv_written hI _ hh (by omega) hb hnew hold
  | readBad hh => exact hI
  | readZero h i hh hn => exact hI
  | read h i b n hh hn hlen hb hin =>
    have hbytes := hI.sane.bytes
    exact inv_readAdvanced hI (by omega)
  | unlinkBad hv => exact hI
  | unlinkAbsent hv ha => exact hI
  | unlink j i hv hn => exact inv_unlinked hI hn

theorem exec_inv {c : Call} {r : Ret} {s' : Tfs} (h : exec s c = ok (r, s')) : Inv s' :=
  effect_inv hI (exec_effect hI h)

end

end Mbroker
