import Mbroker.Fs.Preserve
import Mbroker.Lib.Run

/-!
# `tfs_init` establishes the invariant

`GoodParams` is the domain in which no count exceeds `INT_MAX` and no product of
`state_init` wraps (the other products are below `2 ^ 36`).  A successful `tfs_init`
then leaves `Inv`, no open handle, no file, and one taken block and inode.

    tfsInit_fresh : GoodParams p → tfsInit s m p = ok (0, s') → Initial s'
    run_exec_inv  : Inv s → run exec s cs = ok (rs, s') → Inv s'
-/

namespace Mbroker

open CLib CLib.Outcome

structure GoodParams (p : TfsParams) : Prop where
  blockPos : 1 ≤ p.blockSize
  inodes : p.maxInodeCount ≤ 2 ^ 31 - 1
  blocks : p.maxBlockCount ≤ 2 ^ 31 - 1
  handles : p.maxOpenFilesCount ≤ 2 ^ 31 - 1
  noWrap : p.maxBlockCount * p.blockSize < 2 ^ 64

/-- The state behind `state_init`. -/
structure Fresh (s : Tfs) : Prop where
  sane : Sane s
  inodes : ∀ i, i < s.inodeTableSize → s.freeinodeTs.cell i = .free
  blocks : ∀ b, b < s.dataBlocks → s.freeBlocks.cell b = .free
  handles : ∀ h, h < s.maxOpenFiles → s.freeOpenFileEntries.cell h = .free

/-- The state behind a successful `tfs_init`. -/
structure Initial (s : Tfs) : Prop where
  inv : Inv s
  noFile : ∀ j, j < s.maxDirEntries → ¬ Live s.fsData 0 j
  inodes : ∀ i, FileIndex s i → s.freeinodeTs.cell i = .free
  blocks : ∀ b, 0 < b → b < s.dataBlocks → s.freeBlocks.cell b = .free
  handles : ∀ h, h < s.maxOpenFiles → s.freeOpenFileEntries.cell h = .free

theorem full_malloc {α : Type} {count width : Nat} {d : α} {o : Option (Nat → α)}
    (hw : 0 < width) (hlt : count * width < 2 ^ 64)
    (hn : (Region.malloc (sizeMul count width) width d o).isNull = false) :
    Full (Region.malloc (sizeMul count width) width d o) count := by
  cases o with
  | none => cases hn
  | some junk =>
    refine ⟨rfl, rfl, ?_⟩
    simp only [Region.malloc, sizeMul_of_lt hlt]
    exact Nat.mul_div_cancel _ hw

theorem full_fill {α : Type} {r : Region α} {n : Nat} (h : Full r n) (v : α) :
    r.fill 0 n (fun _ => v) = ok (r.put 0 n (fun _ => v)) :=
  Region.fill_ok _ ⟨by rw [h.lo], by rw [h.hi]; omega⟩

theorem put_zero_cell {α : Type} (r : Region α) (v : α) {n i : Nat} (hi : i < n) :
    (r.put 0 n (fun _ => v)).cell i = v :=
  Region.put_cell_in r (fun _ => v) ⟨Nat.zero_le i, by rwa [Nat.zero_add]⟩

/-- The state behind `state_init`, with `data` in `fs_data`. -/
def stateTables (p : TfsParams) (m : Mallocs) (data : Region UInt8) : Tfs where
  fsParams := p
  inodeTable := .malloc (sizeMul p.maxInodeCount sizeofInode) sizeofInode .zero m.inodeTable
  freeinodeTs := (Region.malloc (sizeMul p.maxInodeCount sizeofAllocationState)
    sizeofAllocationState .free m.freeinodeTs).put 0 p.maxInodeCount (fun _ => .free)
  fsData := data
  freeBlocks := (Region.malloc (sizeMul p.maxBlockCount sizeofAllocationState)
    sizeofAllocationState .free m.freeBlocks).put 0 p.maxBlockCount (fun _ => .free)
  openFileTable := .malloc (sizeMul p.maxOpenFilesCount sizeofOpenFileEntry) sizeofOpenFileEntry
    .zero m.openFileTable
  freeOpenFileEntries := (Region.malloc (sizeMul p.maxOpenFilesCount sizeofAllocationState)
    sizeofAllocationState .free m.freeOpenFileEntries).put 0 p.maxOpenFilesCount (fun _ => .free)

/-- The state with the root directory, `data` in `fs_data`. -/
def rootCreated (s : Tfs) (data : Region UInt8) : Tfs :=
  { s with
    freeinodeTs := s.freeinodeTs.set 0 .taken
    inodeTable :=
      (s.inodeTable.set 0 { s.inodeTable.cell 0 with iNodeType := .tDirectory }).set 0
        ⟨.tDirectory, s.blockSize, 0⟩
    freeBlocks := s.freeBlocks.set 0 .taken
    fsData := data }

theorem stateInit_fresh {s s' : Tfs} {m : Mallocs} {p : TfsParams} (hp : GoodParams p)
    (h : stateInit s m p = ok (0, s')) :
    Fresh s' ∧ s'.fsParams = p ∧ s' = stateTables p m s'.fsData := by
  have hi := hp.inodes
  have hb := hp.blocks
  have hh := hp.handles
  have hbp := hp.blockPos
  unfold stateInit at h
  simp only [] at h
  split at h
  · cases h
  · split at h
    · cases h
    · next hnull =>
      simp only [Bool.or_eq_true, not_or, Bool.not_eq_true, Tfs.inodeTableSize, Tfs.dataBlocks,
        Tfs.blockSize, Tfs.maxOpenFiles] at hnull
      obtain ⟨⟨⟨⟨⟨n1, n2⟩, n3⟩, n4⟩, n5⟩, n6⟩ := hnull
      have f1 := full_malloc (by decide) (by unfold sizeofInode; omega) n1
      have f2 := full_malloc (by decide) (by unfold sizeofAllocationState; omega) n2
      have f4 := full_malloc (by decide) (by unfold sizeofAllocationState; omega) n4
      have f5 := full_malloc (by decide) (by unfold sizeofOpenFileEntry; omega) n5
      have f6 := full_malloc (by decide) (by unfold sizeofAllocationState; omega) n6
      have f3 : Full (Region.malloc (sizeMul p.maxBlockCount p.blockSize) 1 0 m.fsData)
          (p.maxBlockCount * p.blockSize) := by
        have hone : sizeMul (p.maxBlockCount * p.blockSize) 1 =
            sizeMul p.maxBlockCount p.blockSize := by simp [sizeMul]
        rw [← hone] at n3 ⊢
        exact full_malloc (by decide) (by simpa using hp.noWrap) n3
      simp only [Tfs.inodeTableSize, Tfs.dataBlocks, Tfs.blockSize, Tfs.maxOpenFiles, full_fill f2,
        full_fill f4, full_fill f6, ok_bind, pure_eq, ok.injEq, Prod.mk.injEq, true_and] at h
      subst h
      refine ⟨⟨⟨hbp, ?_, ?_, ?_, hp.noWrap, f1,
        f2.put 0 p.maxInodeCount (fun _ => .free), f3, f4.put 0 p.maxBlockCount (fun _ => .free), f5,
        f6.put 0 p.maxOpenFilesCount (fun _ => .free)⟩, ?_, ?_, ?_⟩, rfl, rfl⟩
      · simp only [Tfs.inodeTableSize]; omega
      · simp only [Tfs.dataBlocks]; omega
      · simp only [Tfs.maxOpenFiles]; omega
      · exact fun i hi' => put_zero_cell _ _ hi'
      · exact fun b hb' => put_zero_cell _ _ hb'
      · exact fun k hk => put_zero_cell _ _ hk

/-- No allocation fails. -/
structure Mallocs.Succeed (m : Mallocs) : Prop where
  inodeTable : m.inodeTable.isSome = true
  freeinodeTs : m.freeinodeTs.isSome = true
  fsData : m.fsData.isSome = true
  freeBlocks : m.freeBlocks.isSome = true
  openFileTable : m.openFileTable.isSome = true
  freeOpenFileEntries : m.freeOpenFileEntries.isSome = true

theorem malloc_nonNull {α : Type} (bytes width : Nat) (d : α) {o : Option (Nat → α)}
    (ho : o.isSome = true) : (Region.malloc bytes width d o).isNull = false := by
  obtain ⟨junk, rfl⟩ := Option.isSome_iff_exists.mp ho
  rfl

theorem stateInit_succeeds {s : Tfs} {m : Mallocs} {p : TfsParams} (hp : GoodParams p)
    (hnull : s.inodeTable.isNull = true) (hm : m.Succeed) :
    ∃ s', stateInit s m p = ok (0, s') := by
  have hi := hp.inodes
  have hb := hp.blocks
  have hh := hp.handles
  have n1 := malloc_nonNull (sizeMul p.maxInodeCount sizeofInode) sizeofInode .zero hm.inodeTable
  have n2 := malloc_nonNull (sizeMul p.maxInodeCount sizeofAllocationState) sizeofAllocationState
    .free hm.freeinodeTs
  have n3 := malloc_nonNull (sizeMul p.maxBlockCount p.blockSize) 1 0 hm.fsData
  have n4 := malloc_nonNull (sizeMul p.maxBlockCount sizeofAllocationState) sizeofAllocationState
    .free hm.freeBlocks
  have n5 := malloc_nonNull (sizeMul p.maxOpenFilesCount sizeofOpenFileEntry) sizeofOpenFileEntry
    .zero hm.openFileTable
  have n6 := malloc_nonNull (sizeMul p.maxOpenFilesCount sizeofAllocationState)
    sizeofAllocationState .free hm.freeOpenFileEntries
  have f2 := full_malloc (by decide) (by unfold sizeofAllocationState; omega) n2
  have f4 := full_malloc (by decide) (by unfold sizeofAllocationState; omega) n4
  have f6 := full_malloc (by decide) (by unfold sizeofAllocationState; omega) n6
  unfold stateInit
  simp only [Tfs.inodeTableSize, Tfs.dataBlocks, Tfs.blockSize, Tfs.maxOpenFiles, hnull, n1, n2, n3,
    n4, n5, n6, Bool.not_true, Bool.or_self, Bool.false_eq_true, if_false, full_fill f2,
    full_fill f4, full_fill f6, ok_bind, pure_eq]
  exact ⟨_, rfl⟩

/-- The loop of `inode_create` that labels every entry empty. -/
theorem clearEntries_ok {m : Region UInt8} {N : Nat} (hlo : m.lo = 0)
    (hhi : sizeofDirEntry * N ≤ m.hi) :
    ∃ m', forState (fun i m => storeInt m (dInumber 0 i) (-1)) N m = ok m' ∧
      m'.isNull = m.isNull ∧ m'.lo = m.lo ∧ m'.hi = m.hi ∧
      ∀ i, i < N → slotInum m' 0 i = -1 := by
  obtain ⟨m', h1, h2⟩ := @forState_inv _ (fun i m => storeInt m (dInumber 0 i) (-1))
    (fun k m' => m'.isNull = m.isNull ∧ m'.lo = m.lo ∧ m'.hi = m.hi ∧
      ∀ i, i < k → slotInum m' 0 i = -1) N m
    ⟨rfl, rfl, rfl, fun i hi => absurd hi (Nat.not_lt_zero i)⟩
    (by
      rintro k m₁ hk ⟨hn, hl, hh, hslots⟩
      refine ⟨m₁.put (dInumber 0 k) 4 (intByte (-1)), ?_, hn, hl, hh, ?_⟩
      · refine Region.fill_ok _ ⟨by omega, ?_⟩
        simp only [dInumber, sizeofDirEntry, maxFileName] at hhi ⊢
        omega
      · intro i hi
        by_cases hik : i = k
        · subst hik
          exact intAt_put_self m₁ _ (-1) (by omega)
        · rw [show slotInum (m₁.put (dInumber 0 k) 4 (intByte (-1))) 0 i = slotInum m₁ 0 i from
            intAt_put_out m₁ _ (by simp only [dInumber, sizeofDirEntry, maxFileName]; omega)]
          exact hslots i (by omega))
  exact ⟨m', h1, h2⟩

/-- The root directory in a fresh state: no live slot, no other inode and no handle. -/
theorem rootCreated_initial {s : Tfs} (hs : Fresh s) (hpos : 0 < s.inodeTableSize)
    (hdpos : 0 < s.dataBlocks) {data : Region UInt8} (hdata : Full data (s.dataBlocks * s.blockSize))
    (hslots : ∀ j, j < s.maxDirEntries → slotInum data 0 j = -1) :
    Initial (rootCreated s data) := by
  have hsane := hs.sane
  have hentries := rootEntries_le s
  have hmul := Nat.le_mul_of_pos_left s.blockSize hdpos
  have hdead : ∀ j, j < s.maxDirEntries → ¬ Live data 0 j := fun j hj hl => hl (hslots j hj)
  have hnotaken : ∀ i, FileIndex s i → (rootCreated s data).freeinodeTs.cell i = .free := by
    intro i hi
    show (s.freeinodeTs.set 0 .taken).cell i = .free
    rw [Region.set_cell_ne _ _ (by have := hi.1; omega)]
    exact hs.inodes i hi.2
  have hcontra : ∀ {i}, FileIndex s i → (rootCreated s data).freeinodeTs.cell i = .taken →
      False := by
    intro i hi ht
    rw [hnotaken i hi] at ht
    cases ht
  have hcontra' : ∀ {k}, k < s.maxOpenFiles → s.freeOpenFileEntries.cell k = .taken → False := by
    intro k hk ht
    rw [hs.handles k hk] at ht
    cases ht
  refine ⟨?_, hdead, hnotaken, ?_, hs.handles⟩
  · constructor
    case sane =>
      exact { hsane with
        inodeTable := (hsane.inodeTable.set 0 _).set 0 _
        freeinodeTs := hsane.freeinodeTs.set 0 _
        freeBlocks := hsane.freeBlocks.set 0 _
        fsData := hdata }
    case root =>
      refine ⟨hpos, hdpos, Region.set_cell_self _ _ _, ?_, fun j hj hl => absurd hl (hdead j hj)⟩
      refine ⟨?_, ?_, fun j hj hl => absurd hl (hdead j hj),
        fun i j _ hj hl => absurd hl (hdead j hj), fun i j hi _ hl => absurd hl (hdead i hi)⟩
      · show data.lo ≤ 0
        rw [hdata.lo]
      · show 0 + sizeofDirEntry * s.maxDirEntries ≤ data.hi
        rw [hdata.hi, Nat.zero_add]
        exact Nat.le_trans hentries hmul
    case rootTaken => exact Region.set_cell_self _ _ _
    case rootBlock => exact Region.set_cell_self _ _ _
    case liveInode => exact fun j hj hl => absurd hl (hdead j hj)
    case inums => exact fun j k hj _ hl => absurd hl (hdead j hj)
    case takenLive => exact fun i hi ht => (hcontra hi ht).elim
    case file => exact fun i hi ht => (hcontra hi ht).elim
    case owned => exact fun i hi ht => (hcontra hi ht).elim
    case uniq => exact fun i k hi _ _ ht => (hcontra hi ht).elim
    case handle => exact fun k hk ht => (hcontra' hk ht).elim
    case offsetLt => exact fun k hk ht => (hcontra' hk ht).elim
  · intro b hb0 hb
    show (s.freeBlocks.set 0 .taken).cell b = .free
    rw [Region.set_cell_ne _ _ (by omega)]
    exact hs.blocks b hb

/-- There is room for the root directory, in inode 0 and block 0. -/
structure RootFits (s : Tfs) : Prop where
  blockPos : 0 < s.blockSize
  inode : 0 < s.inodeTableSize ∧ s.freeinodeTs.cell 0 = .free
  block : 0 < s.dataBlocks ∧ s.freeBlocks.cell 0 = .free
  inodeTable : s.inodeTable.lo ≤ 0 ∧ 0 < s.inodeTable.hi
  freeinodeTs : s.freeinodeTs.lo ≤ 0 ∧ 0 < s.freeinodeTs.hi
  freeBlocks : s.freeBlocks.lo ≤ 0 ∧ 0 < s.freeBlocks.hi
  fsData : s.fsData.isNull = false ∧ s.fsData.lo = 0 ∧ s.blockSize ≤ s.fsData.hi

theorem rootFits_fresh {s : Tfs} (hs : Fresh s) (hpos : 0 < s.inodeTableSize)
    (hdpos : 0 < s.dataBlocks) : RootFits s where
  blockPos := hs.sane.blockPos
  inode := ⟨hpos, hs.inodes 0 hpos⟩
  block := ⟨hdpos, hs.blocks 0 hdpos⟩
  inodeTable := hs.sane.inodeTable.bounds hpos
  freeinodeTs := hs.sane.freeinodeTs.bounds hpos
  freeBlocks := hs.sane.freeBlocks.bounds hdpos
  fsData := by
    refine ⟨hs.sane.fsData.nonNull, hs.sane.fsData.lo, ?_⟩
    rw [hs.sane.fsData.hi]
    exact Nat.le_mul_of_pos_left _ hdpos

section
variable {s : Tfs}

theorem inodeAlloc_first (h : RootFits s) :
    inodeAlloc s = ok (0, { s with freeinodeTs := s.freeinodeTs.set 0 .taken }) := by
  have hdelay : storageDelay s = ok () := if_neg (Nat.ne_of_gt h.blockPos)
  unfold inodeAlloc
  rw [forFirst_eq_some h.inode.1 (b := (0, { s with freeinodeTs := s.freeinodeTs.set 0 .taken }))]
  · rfl
  · simp [hdelay, Region.load_ok h.freeinodeTs, h.inode.2, Region.store_ok _ h.freeinodeTs,
      castInt_of_lt]
  · exact fun j hj => absurd hj (Nat.not_lt_zero j)

theorem dataBlockAlloc_first (hpos : 0 < s.blockSize) (hblocks : 0 < s.dataBlocks)
    (hfree : s.freeBlocks.cell 0 = .free) (hb : s.freeBlocks.lo ≤ 0 ∧ 0 < s.freeBlocks.hi) :
    dataBlockAlloc s = ok (0, { s with freeBlocks := s.freeBlocks.set 0 .taken }) := by
  have hdelay : storageDelay s = ok () := if_neg (Nat.ne_of_gt hpos)
  unfold dataBlockAlloc
  rw [forFirst_eq_some hblocks (b := (0, { s with freeBlocks := s.freeBlocks.set 0 .taken }))]
  · rfl
  · simp [hdelay, Region.load_ok hb, hfree, Region.store_ok _ hb, castInt_of_lt]
  · exact fun j hj => absurd hj (Nat.not_lt_zero j)

/-- The root directory is created, all of its entries empty. -/
theorem rootCreate_ok (h : RootFits s) : ∃ data,
    inodeCreate s .tDirectory = ok (rootDirInum, rootCreated s data) ∧
      (data.isNull = s.fsData.isNull ∧ data.lo = s.fsData.lo ∧ data.hi = s.fsData.hi) ∧
      ∀ j, j < s.maxDirEntries → slotInum data 0 j = -1 := by
  obtain ⟨hnull, hlo, hhi⟩ := h.fsData
  have hib := h.inodeTable
  have hne : ¬ (0 : Int) = -1 := by omega
  have hindex : index 0 = ok 0 := rfl
  have hentries := rootEntries_le s
  obtain ⟨data, hclear, hnull', hlo', hhi', hslots⟩ := clearEntries_ok (N := s.maxDirEntries) hlo
    (hentries.trans hhi)
  refine ⟨data, ?_, ⟨hnull', hlo', hhi'⟩, hslots⟩
  have hget : ∀ t : Tfs, t.fsParams = s.fsParams → dataBlockGet t 0 = ok 0 := by
    intro t ht
    have hvalid : t.validBlockNumber 0 = true := by
      have hdpos := h.block.1
      simpa [Tfs.validBlockNumber, Tfs.dataBlocks, ht] using hdpos
    simp [dataBlockGet, hvalid, sizeMul]
  have hassert : ∀ data : Region UInt8, data.isNull = false → nonNull data 0 = true :=
    fun data hdata => by simp [nonNull, hdata]
  unfold inodeCreate
  rw [inodeAlloc_first h]
  simp only [ok_bind, hne, if_false, hindex, Region.load_ok hib, Region.store_ok _ hib]
  -- the inode is taken before the block is allocated
  rw [dataBlockAlloc_first (s := { s with
      freeinodeTs := s.freeinodeTs.set 0 .taken
      inodeTable := s.inodeTable.set 0 { s.inodeTable.cell 0 with iNodeType := .tDirectory } })
    h.blockPos h.block.1 h.block.2 h.freeBlocks]
  simp only [ok_bind, hne, if_false, Region.load_ok (r := s.inodeTable.set 0 _) hib,
    Region.store_ok (r := s.inodeTable.set 0 _) _ hib, hget, alwaysAssert_ok _ (hassert _ hnull)]
  show (forState (fun i m => storeInt m (dInumber 0 i) (-1)) s.maxDirEntries s.fsData >>= _) = _
  rw [hclear, ok_bind, pure_eq]
  simp only [rootCreated, Region.set_cell_self]
  rfl

end

/-- A root directory takes an inode and a block. -/
theorem rootCreate_room {s s' : Tfs} (h : inodeCreate s .tDirectory = ok (rootDirInum, s')) :
    0 < s.inodeTableSize ∧ 0 < s.dataBlocks := by
  constructor
  · by_contra hz
    have hnone : inodeAlloc s = ok (-1, s) := by
      rw [inodeAlloc, Nat.eq_zero_of_not_pos hz]
      rfl
    simp only [inodeCreate, hnone, ok_bind, if_true, pure_eq] at h
    cases h
  · by_contra hz
    simp only [inodeCreate, bind_eq_ok] at h
    obtain ⟨⟨inumber, s₁⟩, halloc, h⟩ := h
    obtain ⟨ts, rfl⟩ := inodeAlloc_frame halloc
    split at h
    · cases h
    · simp only [bind_eq_ok] at h
      obtain ⟨i, -, inode, -, table, -, ⟨b, s₂⟩, hblock, h⟩ := h
      have hnone : ∀ t : Tfs, t.fsParams = s.fsParams → dataBlockAlloc t = ok (-1, t) := by
        intro t ht
        rw [dataBlockAlloc, Tfs.dataBlocks, ht]
        rw [Tfs.dataBlocks, Nat.not_lt, Nat.le_zero] at hz
        rw [hz]
        rfl
      have hb := hblock.symm.trans (hnone _ rfl)
      rw [ok.injEq, Prod.mk.injEq] at hb
      rw [if_pos hb.1] at h
      simp only [bind_eq_ok, pure_eq, ok.injEq, Prod.mk.injEq] at h
      obtain ⟨_, -, _, -, _, -, h, -⟩ := h
      exact absurd h (by decide)

theorem rootCreate_initial {s s' : Tfs} (hs : Fresh s)
    (h : inodeCreate s .tDirectory = ok (rootDirInum, s')) :
    Initial s' ∧ s'.fsParams = s.fsParams ∧ s' = rootCreated s s'.fsData := by
  have hsane := hs.sane
  obtain ⟨hpos, hdpos⟩ := rootCreate_room h
  obtain ⟨data, hcreate, ⟨hnull, hlo, hhi⟩, hslots⟩ := rootCreate_ok (rootFits_fresh hs hpos hdpos)
  have hdata : Full data (s.dataBlocks * s.blockSize) :=
    ⟨hnull.trans hsane.fsData.nonNull, hlo.trans hsane.fsData.lo, hhi.trans hsane.fsData.hi⟩
  rw [hcreate] at h
  simp only [ok.injEq, Prod.mk.injEq, true_and] at h
  rw [← h]
  exact ⟨rootCreated_initial hs hpos hdpos hdata hslots, rfl, rfl⟩

theorem tfsInit_initial {s s' : Tfs} {m : Mallocs} {p : Option TfsParams}
    (hp : GoodParams (p.getD tfsDefaultParams)) (h : tfsInit s m p = ok (0, s')) :
    Initial s' ∧ s'.fsParams = p.getD tfsDefaultParams ∧
      s' = rootCreated (stateTables (p.getD tfsDefaultParams) m s'.fsData) s'.fsData := by
  simp only [tfsInit, bind_eq_ok] at h
  obtain ⟨⟨ret, s1⟩, h1, h⟩ := h
  simp only at h
  split at h
  · simp [pure_eq] at h
  · next hret =>
    rw [Classical.not_not.mp hret] at h1
    obtain ⟨hfresh, hp1, he1⟩ := stateInit_fresh hp h1
    simp only [bind_eq_ok] at h
    obtain ⟨⟨root, s2⟩, h2, h⟩ := h
    simp only at h
    split at h
    · simp [pure_eq] at h
    · next hroot =>
      rw [Classical.not_not.mp hroot] at h2
      obtain ⟨hini, hp2, he2⟩ := rootCreate_initial hfresh h2
      simp only [pure_eq, ok.injEq, Prod.mk.injEq, true_and] at h
      subst h
      refine ⟨hini, hp2.trans hp1, he2.trans ?_⟩
      rw [he1]
      rfl

/-- A file system that is not initialised can be. -/
theorem tfsInit_succeeds {s : Tfs} {m : Mallocs} {p : Option TfsParams}
    (hp : GoodParams (p.getD tfsDefaultParams)) (hnull : s.inodeTable.isNull = true)
    (hm : m.Succeed) (hinodes : 0 < (p.getD tfsDefaultParams).maxInodeCount)
    (hblocks : 0 < (p.getD tfsDefaultParams).maxBlockCount) : ∃ s', tfsInit s m p = ok (0, s') := by
  obtain ⟨s1, hstate⟩ := stateInit_succeeds hp hnull hm
  obtain ⟨hfresh, hparams, -⟩ := stateInit_fresh hp hstate
  obtain ⟨data, hroot, -⟩ := rootCreate_ok (rootFits_fresh hfresh
    (by rw [Tfs.inodeTableSize, hparams]; exact hinodes)
    (by rw [Tfs.dataBlocks, hparams]; exact hblocks))
  refine ⟨rootCreated s1 data, ?_⟩
  simp only [tfsInit, hstate, hroot, ok_bind, ne_eq, not_true_eq_false, if_false, pure_eq]

/-! ## A small disk

Three inodes, three blocks with two directory entries each, two handles; every byte
that `malloc` returns is zero. -/

def smallParams : TfsParams := ⟨3, 3, 2, 88⟩

def zeroMallocs : Mallocs where
  inodeTable := some fun _ => .zero
  freeinodeTs := some fun _ => .free
  fsData := some fun _ => 0
  freeBlocks := some fun _ => .free
  openFileTable := some fun _ => .zero
  freeOpenFileEntries := some fun _ => .free

def smallDisk : Tfs := ((tfsInit .zero zeroMallocs (some smallParams)).getD (0, .zero)).2

theorem smallParams_good : GoodParams smallParams := by
  constructor <;> decide

theorem smallDisk_init : tfsInit .zero zeroMallocs (some smallParams) = ok (0, smallDisk) := by
  rw [eq_ok_getD (0, .zero) (by decide +kernel : (tfsInit .zero zeroMallocs _).isOk = true)]
  rfl

/-! ## Runs -/

/-- The state behind the calls `cs`. -/
def stateAfter (s : Tfs) (cs : List Call) : Tfs := ((run exec s cs).getD ([], s)).2

def answers (s : Tfs) (cs : List Call) : List Ret := ((run exec s cs).getD ([], s)).1

theorem run_eq_answers {s : Tfs} {cs : List Call} (h : (run exec s cs).isOk = true) :
    run exec s cs = ok (answers s cs, stateAfter s cs) :=
  eq_ok_getD _ h

theorem exec_eq_answers {s : Tfs} {c : Call} {r : Ret} (h : (run exec s [c]).isOk = true)
    (hr : answers s [c] = [r]) : exec s c = ok (r, stateAfter s [c]) := by
  obtain ⟨r', s', rs, h1, h2, h3⟩ := run_cons_eq_ok (run_eq_answers h)
  rw [hr] at h3
  simp only [run, ok.injEq, Prod.mk.injEq] at h2
  obtain ⟨rfl, rfl⟩ := h2
  cases h3
  exact h1

theorem run_exec_inv {s s' : Tfs} {cs : List Call} {rs : List Ret} (hI : Inv s)
    (h : run exec s cs = ok (rs, s')) : Inv s' :=
  run_inv (fun _ _ _ _ hI hc => exec_inv hI hc) hI h

end Mbroker
