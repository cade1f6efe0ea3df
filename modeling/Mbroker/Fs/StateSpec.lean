import Mbroker.Fs.Directory

/-!
# What the functions of `state.c` do

`Sane s` is what a successful `tfs_init` leaves of the parameters and the tables
(it holds in every later state: no operation resizes a table).  Under it each
function of `state.c` is one update of `Tfs`, given by an equation; the callers'
proofs cite these equations and never unfold the functions.
-/

namespace Mbroker

open CLib CLib.Outcome

/-- A non-null table of exactly `n` elements. -/
structure Full {α : Type} (r : Region α) (n : Nat) : Prop where
  nonNull : r.isNull = false
  lo : r.lo = 0
  hi : r.hi = n

theorem Full.bounds {α : Type} {r : Region α} {n i : Nat} (h : Full r n) (hi : i < n) :
    r.lo ≤ i ∧ i < r.hi := by
  rw [h.lo, h.hi]; omega

theorem Full.set {α : Type} {r : Region α} {n : Nat} (h : Full r n) (i : Nat) (v : α) :
    Full (r.set i v) n :=
  ⟨h.nonNull, h.lo, h.hi⟩

theorem Full.put {α : Type} {r : Region α} {n : Nat} (h : Full r n) (a k : Nat) (f : Nat → α) :
    Full (r.put a k f) n :=
  ⟨h.nonNull, h.lo, h.hi⟩

structure Sane (s : Tfs) : Prop where
  blockPos : 0 < s.blockSize
  inodeInt : s.inodeTableSize < 2 ^ 31
  blockInt : s.dataBlocks < 2 ^ 31
  handleInt : s.maxOpenFiles < 2 ^ 31
  bytes : s.dataBlocks * s.blockSize < 2 ^ 64
  inodeTable : Full s.inodeTable s.inodeTableSize
  freeinodeTs : Full s.freeinodeTs s.inodeTableSize
  fsData : Full s.fsData (s.dataBlocks * s.blockSize)
  freeBlocks : Full s.freeBlocks s.dataBlocks
  openFileTable : Full s.openFileTable s.maxOpenFiles
  freeOpenFileEntries : Full s.freeOpenFileEntries s.maxOpenFiles

/-- The root directory: inode 0, whose block is block 0. -/
structure Root (s : Tfs) : Prop where
  inodePos : 0 < s.inodeTableSize
  blockPos : 0 < s.dataBlocks
  inode : s.inodeTable.cell 0 = ⟨.tDirectory, s.blockSize, 0⟩
  dir : DirWf s.fsData 0 s.maxDirEntries
  liveLt : ∀ j, j < s.maxDirEntries → Live s.fsData 0 j → j < s.inodeTableSize

@[simp] theorem alwaysAssert_true (msg : String) : alwaysAssert true msg = ok () := rfl

theorem alwaysAssert_ok {c : Bool} (msg : String) (h : c = true) : alwaysAssert c msg = ok () := by
  rw [h]; rfl

theorem nonNull_full {α : Type} {r : Region α} {n : Nat} (h : Full r n) (p : Nat) :
    nonNull r p = true := by
  simp [nonNull, h.nonNull]

/-! ## What the allocators change, in any state -/

section
variable {s s' : Tfs} {r : Int}

theorem inodeAlloc_frame (h : inodeAlloc s = ok (r, s')) :
    ∃ freeinodeTs, s' = { s with freeinodeTs } := by
  rcases forFirst_getD h with hnone | ⟨i, hbody⟩
  · exact ⟨s.freeinodeTs, congrArg Prod.snd hnone⟩
  · simp only [bind_eq_ok] at hbody
    obtain ⟨-, -, ts, -, hbody⟩ := hbody
    split at hbody
    · obtain ⟨freeinodeTs, -, hbody⟩ := (bind_eq_ok _ _ _).mp hbody
      simp only [pure_eq, ok.injEq, Option.some.injEq, Prod.mk.injEq] at hbody
      exact ⟨freeinodeTs, hbody.2.symm⟩
    · cases hbody

theorem dataBlockAlloc_frame (h : dataBlockAlloc s = ok (r, s')) :
    ∃ freeBlocks, s' = { s with freeBlocks } := by
  rcases forFirst_getD h with hnone | ⟨i, hbody⟩
  · exact ⟨s.freeBlocks, congrArg Prod.snd hnone⟩
  · simp only [bind_eq_ok] at hbody
    obtain ⟨-, -, ts, -, hbody⟩ := hbody
    split at hbody
    · obtain ⟨freeBlocks, -, hbody⟩ := (bind_eq_ok _ _ _).mp hbody
      simp only [pure_eq, ok.injEq, Option.some.injEq, Prod.mk.injEq] at hbody
      exact ⟨freeBlocks, hbody.2.symm⟩
    · cases hbody

theorem inodeDelete_frame {i : Int} (h : inodeDelete s i = ok s') :
    ∃ freeinodeTs freeBlocks, s' = { s with freeinodeTs, freeBlocks } := by
  simp only [inodeDelete, bind_eq_ok, pure_eq] at h
  obtain ⟨-, -, ts, -, -, -, inode, -, h⟩ := h
  split at h
  · simp only [dataBlockFree, bind_eq_ok, pure_eq, ok.injEq] at h
    obtain ⟨s₁, ⟨-, -, freeBlocks, -, rfl⟩, freeinodeTs, -, rfl⟩ := h
    exact ⟨freeinodeTs, freeBlocks, rfl⟩
  · simp only [ok_bind, bind_eq_ok, ok.injEq] at h
    obtain ⟨freeinodeTs, -, rfl⟩ := h
    exact ⟨freeinodeTs, s.freeBlocks, rfl⟩

end

section
variable {s : Tfs} (hs : Sane s)

include hs

theorem storageDelay_ok : storageDelay s = ok () := by
  unfold storageDelay
  rw [if_neg (by have := hs.blockPos; omega)]

omit hs in
theorem blockEnd_le {b : Nat} (hb : b < s.dataBlocks) :
    b * s.blockSize + s.blockSize ≤ s.dataBlocks * s.blockSize := by
  have := Nat.mul_le_mul_right s.blockSize (Nat.succ_le_of_lt hb)
  rwa [Nat.succ_mul] at this

/-! ## Data blocks -/

theorem dataBlockAlloc_some {b : Nat}
    (hb : FirstAt (fun b => s.freeBlocks.cell b = .free) s.dataBlocks b) :
    dataBlockAlloc s = ok ((b : Int), { s with freeBlocks := s.freeBlocks.set b .taken }) := by
  obtain ⟨hlt, hfree, hmin⟩ := hb
  have hint := hs.blockInt
  have hbody : ∀ i, i < s.dataBlocks → s.freeBlocks.load i = ok (s.freeBlocks.cell i) :=
    fun i hi => Region.load_ok (hs.freeBlocks.bounds hi)
  unfold dataBlockAlloc
  rw [forFirst_eq_some hlt (b := (castInt b, { s with freeBlocks := s.freeBlocks.set b .taken }))]
  · simp [castInt_of_lt (show b < 2 ^ 31 by omega)]
  · simp [storageDelay_ok hs, hbody b hlt, hfree, Region.store_ok _ (hs.freeBlocks.bounds hlt)]
  · intro j hj
    simp [storageDelay_ok hs, hbody j (by omega), hmin j hj]

theorem dataBlockAlloc_none (hb : ∀ b, b < s.dataBlocks → ¬ s.freeBlocks.cell b = .free) :
    dataBlockAlloc s = ok (-1, s) := by
  unfold dataBlockAlloc
  rw [forFirst_eq_none]
  · simp
  · intro j hj
    simp [storageDelay_ok hs, Region.load_ok (hs.freeBlocks.bounds hj), hb j hj]

omit hs in
theorem validBlockNumber_iff (b : Int) :
    s.validBlockNumber b = true ↔ ∃ n : Nat, b = n ∧ n < s.dataBlocks := by
  simp only [Tfs.validBlockNumber, decide_eq_true_eq]
  constructor
  · rintro ⟨h0, h1⟩
    exact ⟨b.toNat, by omega, h1⟩
  · rintro ⟨n, rfl, h⟩
    omega

theorem dataBlockFree_ok {b : Nat} (hb : b < s.dataBlocks) :
    dataBlockFree s b = ok { s with freeBlocks := s.freeBlocks.set b .free } := by
  unfold dataBlockFree
  rw [alwaysAssert_ok _ ((validBlockNumber_iff _).mpr ⟨b, rfl, hb⟩)]
  simp [Region.store_ok _ (hs.freeBlocks.bounds hb)]

theorem dataBlockGet_ok {b : Nat} (hb : b < s.dataBlocks) :
    dataBlockGet s b = ok (b * s.blockSize) := by
  have h1 := blockEnd_le hb
  have h2 := hs.bytes
  unfold dataBlockGet
  rw [alwaysAssert_ok _ ((validBlockNumber_iff _).mpr ⟨b, rfl, hb⟩)]
  simp [sizeMul_of_lt (show b * s.blockSize < 2 ^ 64 by omega)]

omit hs in
theorem dataBlockGet_panic {b : Int} (hb : s.validBlockNumber b = false) :
    dataBlockGet s b = .panic "data_block_get: invalid block number" := by
  unfold dataBlockGet
  rw [hb]; rfl

/-! ## Inodes -/

theorem inodeAlloc_some {i : Nat}
    (hi : FirstAt (fun i => s.freeinodeTs.cell i = .free) s.inodeTableSize i) :
    inodeAlloc s = ok ((i : Int), { s with freeinodeTs := s.freeinodeTs.set i .taken }) := by
  obtain ⟨hlt, hfree, hmin⟩ := hi
  have hint := hs.inodeInt
  have hbody : ∀ i, i < s.inodeTableSize → s.freeinodeTs.load i = ok (s.freeinodeTs.cell i) :=
    fun i hi => Region.load_ok (hs.freeinodeTs.bounds hi)
  unfold inodeAlloc
  rw [forFirst_eq_some hlt (b := (castInt i, { s with freeinodeTs := s.freeinodeTs.set i .taken }))]
  · simp [castInt_of_lt (show i < 2 ^ 31 by omega)]
  · simp [storageDelay_ok hs, hbody i hlt, hfree, Region.store_ok _ (hs.freeinodeTs.bounds hlt)]
  · intro j hj
    simp [storageDelay_ok hs, hbody j (by omega), hmin j hj]

theorem inodeAlloc_none (hi : ∀ i, i < s.inodeTableSize → ¬ s.freeinodeTs.cell i = .free) :
    inodeAlloc s = ok (-1, s) := by
  unfold inodeAlloc
  rw [forFirst_eq_none]
  · simp
  · intro j hj
    simp [storageDelay_ok hs, Region.load_ok (hs.freeinodeTs.bounds hj), hi j hj]

/-- The state behind `inode_create(T_FILE)` that returned `i`. -/
def inodeCreated (s : Tfs) (i : Nat) : Tfs :=
  { s with
    freeinodeTs := s.freeinodeTs.set i .taken
    inodeTable := s.inodeTable.set i ⟨.tFile, 0, -1⟩ }

theorem inodeCreate_file_some {i : Nat}
    (hi : FirstAt (fun i => s.freeinodeTs.cell i = .free) s.inodeTableSize i) :
    inodeCreate s .tFile = ok ((i : Int), inodeCreated s i) := by
  have hb := hs.inodeTable.bounds hi.1
  have hne : ((i : Int) = -1) = False := by simp
  unfold inodeCreate
  rw [inodeAlloc_some hs hi]
  simp only [ok_bind, hne, if_false, index_natCast, Region.load_ok hb, Region.store_ok _ hb,
    Region.load_ok (r := s.inodeTable.set i _) hb, Region.store_ok (r := s.inodeTable.set i _) _ hb,
    Region.set_cell_self, pure_eq, inodeCreated]
  congr 3
  refine Region.ext' rfl rfl rfl (fun x => ?_)
  simp only [Region.set_cell]
  split <;> rfl

theorem inodeCreate_file_none (hi : ∀ i, i < s.inodeTableSize → ¬ s.freeinodeTs.cell i = .free) :
    inodeCreate s .tFile = ok (-1, s) := by
  unfold inodeCreate
  rw [inodeAlloc_none hs hi]
  simp

omit hs in
theorem validInumber_natCast {i : Nat} (hi : i < s.inodeTableSize) : s.validInumber i = true := by
  simp [Tfs.validInumber, hi]

omit hs in
theorem inodeGet_ok {i : Nat} (hi : i < s.inodeTableSize) : inodeGet s i = ok i := by
  unfold inodeGet
  rw [alwaysAssert_ok _ (validInumber_natCast hi)]
  simp

/-- The state behind `inode_delete(i)`. -/
def inodeFreed (s : Tfs) (i : Nat) : Tfs :=
  { s with
    freeinodeTs := s.freeinodeTs.set i .free
    freeBlocks := if 0 < (s.inodeTable.cell i).iSize then
      s.freeBlocks.set (s.inodeTable.cell i).iDataBlock.toNat .free else s.freeBlocks }

theorem inodeDelete_ok {i : Nat} (hi : i < s.inodeTableSize) (ht : s.freeinodeTs.cell i = .taken)
    (hb : 0 < (s.inodeTable.cell i).iSize →
      ∃ b : Nat, (s.inodeTable.cell i).iDataBlock = b ∧ b < s.dataBlocks) :
    inodeDelete s i = ok (inodeFreed s i) := by
  have h1 := hs.freeinodeTs.bounds hi
  unfold inodeDelete
  rw [alwaysAssert_ok _ (validInumber_natCast hi)]
  simp only [ok_bind, Int.toNat_natCast, Region.load_ok h1, ht, decide_true, alwaysAssert_true,
    Region.load_ok (hs.inodeTable.bounds hi), pure_eq]
  by_cases hsz : 0 < (s.inodeTable.cell i).iSize
  · obtain ⟨b, hb1, hb2⟩ := hb hsz
    simp only [gt_iff_lt, hsz, if_true, hb1, dataBlockFree_ok hs hb2, ok_bind]
    rw [Region.store_ok _ h1]
    simp [inodeFreed, hsz, hb1]
  · simp only [gt_iff_lt, hsz, if_false]
    rw [Region.store_ok _ h1]
    simp [inodeFreed, hsz]

/-! ## Open file table -/

/-- The state with handle `h` on inode `i`. -/
def handleAdded (s : Tfs) (h : Nat) (i : Nat) (offset : Nat) : Tfs :=
  { s with
    freeOpenFileEntries := s.freeOpenFileEntries.set h .taken
    openFileTable := s.openFileTable.set h ⟨i, offset⟩ }

theorem addToOpenFileTable_some {h : Nat} (i offset : Nat)
    (hh : FirstAt (fun h => s.freeOpenFileEntries.cell h = .free) s.maxOpenFiles h) :
    addToOpenFileTable s i offset = ok ((h : Int), handleAdded s h i offset) := by
  obtain ⟨hlt, hfree, hmin⟩ := hh
  have hint := hs.handleInt
  have hbody : ∀ i, i < s.maxOpenFiles →
      s.freeOpenFileEntries.load i = ok (s.freeOpenFileEntries.cell i) :=
    fun i hi => Region.load_ok (hs.freeOpenFileEntries.bounds hi)
  unfold addToOpenFileTable
  rw [forFirst_eq_some (i := h) (by omega) (b := (castInt h, handleAdded s h i offset))]
  · simp [castInt_of_lt (show h < 2 ^ 31 by omega)]
  · simp [hbody h hlt, hfree, Region.store_ok _ (hs.freeOpenFileEntries.bounds hlt),
      Region.store_ok _ (hs.openFileTable.bounds hlt), handleAdded]
  · intro j hj
    simp [hbody j (by omega), hmin j hj]

theorem addToOpenFileTable_none (i : Int) (offset : Nat)
    (hh : ∀ h, h < s.maxOpenFiles → ¬ s.freeOpenFileEntries.cell h = .free) :
    addToOpenFileTable s i offset = ok (-1, s) := by
  unfold addToOpenFileTable
  rw [forFirst_eq_none]
  · simp
  · intro j hj
    simp [Region.load_ok (hs.freeOpenFileEntries.bounds (show j < s.maxOpenFiles by omega)),
      hh j (by omega)]

/-- `fhandle` is the open handle `h`. -/
def Handle (s : Tfs) (fhandle : Int) (h : Nat) : Prop :=
  fhandle = h ∧ h < s.maxOpenFiles ∧ s.freeOpenFileEntries.cell h = .taken

theorem getOpenFileEntry_some {fhandle : Int} {h : Nat} (hh : Handle s fhandle h) :
    getOpenFileEntry s fhandle = ok (some h) := by
  obtain ⟨rfl, hlt, ht⟩ := hh
  unfold getOpenFileEntry
  simp [Tfs.validFileHandle, hlt, Region.load_ok (hs.freeOpenFileEntries.bounds hlt), ht]

theorem getOpenFileEntry_none {fhandle : Int} (hh : ∀ h, ¬ Handle s fhandle h) :
    getOpenFileEntry s fhandle = ok none := by
  unfold getOpenFileEntry
  by_cases hv : 0 ≤ fhandle ∧ fhandle.toNat < s.maxOpenFiles
  · have ht : s.freeOpenFileEntries.cell fhandle.toNat ≠ .taken :=
      fun ht => hh fhandle.toNat ⟨by omega, hv.2, ht⟩
    simp [Tfs.validFileHandle, hv, Region.load_ok (hs.freeOpenFileEntries.bounds hv.2), ht]
  · simp [Tfs.validFileHandle, hv]

theorem removeFromOpenFileTable_ok {fhandle : Int} {h : Nat} (hh : Handle s fhandle h) :
    removeFromOpenFileTable s fhandle =
      ok { s with freeOpenFileEntries := s.freeOpenFileEntries.set h .free } := by
  obtain ⟨rfl, hlt, ht⟩ := hh
  have hb := hs.freeOpenFileEntries.bounds hlt
  unfold removeFromOpenFileTable
  simp [Tfs.validFileHandle, hlt, Region.load_ok hb, ht, Region.store_ok _ hb]

/-! ## The root directory -/

section
variable (hr : Root s)

include hr

omit hs hr in
theorem rootEntries_le (s : Tfs) : sizeofDirEntry * s.maxDirEntries ≤ s.blockSize := by
  have := Nat.mul_div_le s.blockSize sizeofDirEntry
  exact this

theorem root_load : s.inodeTable.load 0 = ok ⟨.tDirectory, s.blockSize, 0⟩ := by
  rw [Region.load_ok (hs.inodeTable.bounds hr.inodePos), hr.inode]

theorem root_dataBlockGet : dataBlockGet s 0 = ok 0 := by
  have := dataBlockGet_ok hs hr.blockPos
  simpa using this

/-- Slot `j` holds `name` and inumber `i`. -/
def Named (s : Tfs) (name : CStr) (j i : Nat) : Prop :=
  j < s.maxDirEntries ∧ slotInum s.fsData 0 j = (i : Int) ∧ slotName s.fsData 0 j = name.toList

def Absent (s : Tfs) (name : CStr) : Prop :=
  ∀ j, j < s.maxDirEntries → Live s.fsData 0 j → slotName s.fsData 0 j ≠ name.toList

omit hs hr in
theorem Named.live {name : CStr} {j i : Nat} (h : Named s name j i) : Live s.fsData 0 j := by
  unfold Live; rw [h.2.1]; omega

omit hs in
/-- One step of the loop of `find_in_dir`. -/
theorem findInDir_body (name : CStr) {j : Nat} (hj : j < s.maxDirEntries) :
    (do
      let d ← loadInt s.fsData (dInumber 0 j)
      if d ≠ -1 then
        if (← strncmpEq s.fsData (dName 0 j) name maxFileName) then return some d
        else return none
      else return none : Outcome (Option Int)) =
    ok (if Live s.fsData 0 j ∧ slotName s.fsData 0 j = name.toList then
      some (slotInum s.fsData 0 j) else none) := by
  simp only [loadInt_slot hr.dir hj, ok_bind, pure_eq]
  by_cases hl : Live s.fsData 0 j
  · have hn : slotInum s.fsData 0 j ≠ -1 := hl
    simp only [strncmpEq_slot hr.dir hj hl, ok_bind, hn, ne_eq, not_false_eq_true, if_true,
      decide_eq_true_eq, hl, true_and]
    split <;> rfl
  · have hn : slotInum s.fsData 0 j = -1 := Classical.not_not.mp hl
    simp [hn, hl]

theorem findInDir_named {name : CStr} {j i : Nat} (h : Named s name j i) :
    findInDir s 0 name = ok (i : Int) := by
  have hj31 := Nat.lt_trans (hr.liveLt j h.1 h.live) hs.inodeInt
  unfold findInDir
  rw [alwaysAssert_ok _ (nonNull_full hs.inodeTable 0)]
  simp only [ok_bind, root_load hs hr, root_dataBlockGet hs hr, ne_eq, not_true_eq_false, if_false,
    alwaysAssert_ok _ (nonNull_full hs.fsData 0)]
  rw [forFirst_eq_some (i := j) (b := (i : Int)) (by have := h.1; omega)]
  · rfl
  · rw [findInDir_body hr name h.1, if_pos ⟨h.live, h.2.2⟩, h.2.1]
  · intro k hk
    have hkN : k < s.maxDirEntries := by have := h.1; omega
    rw [findInDir_body hr name hkN, if_neg]
    rintro ⟨hl, hn⟩
    have := hr.dir.names k j hkN h.1 hl h.live (hn.trans h.2.2.symm)
    omega

theorem findInDir_absent {name : CStr} (h : Absent s name) : findInDir s 0 name = ok (-1) := by
  unfold findInDir
  rw [alwaysAssert_ok _ (nonNull_full hs.inodeTable 0)]
  simp only [ok_bind, root_load hs hr, root_dataBlockGet hs hr, ne_eq, not_true_eq_false, if_false,
    alwaysAssert_ok _ (nonNull_full hs.fsData 0)]
  rw [forFirst_eq_none]
  · rfl
  · intro j hj
    rw [findInDir_body hr name (by omega), if_neg]
    rintro ⟨hl, hn⟩
    exact h j (by omega) hl hn

omit hs hr in
theorem addDirEntry_invalid {name : CStr} (i : Int) (hn : name.strlen = 0 ∨ 39 < name.strlen) :
    addDirEntry s 0 name i = ok (-1, s) := by
  unfold addDirEntry
  rw [if_pos (by simpa [maxFileName] using hn)]
  rfl

theorem addDirEntry_full {name : CStr} (i : Int)
    (hf : ∀ j, j < s.maxDirEntries → Live s.fsData 0 j) : addDirEntry s 0 name i = ok (-1, s) := by
  unfold addDirEntry
  split
  · rfl
  · simp only [ok_bind, root_load hs hr, root_dataBlockGet hs hr, ne_eq, not_true_eq_false, if_false,
      alwaysAssert_ok _ (nonNull_full hs.fsData 0)]
    rw [forFirst_eq_none]
    · rfl
    · intro j hj
      have hl : slotInum s.fsData 0 j ≠ -1 := hf j hj
      simp [loadInt_slot hr.dir hj, hl]

theorem addDirEntry_ok {name : CStr} (i : Int) {j : Nat} (hn : 1 ≤ name.strlen ∧ name.strlen ≤ 39)
    (hj : FirstAt (fun j => ¬ Live s.fsData 0 j) s.maxDirEntries j) :
    addDirEntry s 0 name i = ok (0, { s with fsData := addEntry s.fsData 0 j name i }) := by
  unfold addDirEntry
  rw [if_neg (by simp only [maxFileName]; omega)]
  simp only [ok_bind, root_load hs hr, root_dataBlockGet hs hr, ne_eq, not_true_eq_false, if_false,
    alwaysAssert_ok _ (nonNull_full hs.fsData 0)]
  rw [forFirst_eq_some hj.1
    (b := ((0 : Int), { s with fsData := addEntry s.fsData 0 j name i }))]
  · rfl
  · obtain ⟨h1, h2, h3, h4⟩ := slot_bounds hr.dir hj.1
    simp only [maxFileName] at h2
    have hl : slotInum s.fsData 0 j = -1 := Classical.not_not.mp hj.2.1
    simp only [loadInt_slot hr.dir hj.1, ok_bind, hl, if_true, storeInt, strncpy, pure_eq]
    rw [Region.fill_ok _ ⟨h3, h4⟩, ok_bind, Region.fill_ok, ok_bind, Region.store_ok]
    · rfl
    · simp only [maxFileName, Region.put_lo, Region.put_hi]; omega
    · simp only [maxFileName, Region.put_lo, Region.put_hi]; omega
  · intro k hk
    have hl : slotInum s.fsData 0 k ≠ -1 := Classical.not_not.mp (hj.2.2 k hk)
    simp [loadInt_slot hr.dir (show k < s.maxDirEntries by have := hj.1; omega), hl]

/-- `clear_dir_entry` clears the slot that `find_in_dir` finds: the slots before it are
live with another name, or have the empty name. -/
theorem clearDirEntry_named {name : CStr} {j i : Nat} (h : Named s name j i) :
    clearDirEntry s 0 name = ok (0, { s with fsData := clearEntry s.fsData 0 j }) := by
  have hpos : name.toList ≠ [] := by
    have := (hr.dir.nameLen j h.1 h.live).1
    rw [h.2.2] at this
    intro e; rw [e] at this; simp at this
  have hcmp : ∀ k, k ≤ j →
      strcmpEq s.fsData (dName 0 k) name = ok (decide (slotName s.fsData 0 k = name.toList)) := by
    intro k hkj
    refine strcmpEq_slot hr.dir (show k < s.maxDirEntries by have := h.1; omega) ?_ name
    rcases Nat.lt_or_eq_of_le hkj with hlt | rfl
    · exact hr.dir.before k j hlt h.1 h.live
    · exact Or.inl h.live
  unfold clearDirEntry
  simp only [ok_bind, root_load hs hr, root_dataBlockGet hs hr, ne_eq, not_true_eq_false, if_false,
    alwaysAssert_ok _ (nonNull_full hs.fsData 0)]
  rw [forFirst_eq_some h.1 (b := ((0 : Int), { s with fsData := clearEntry s.fsData 0 j }))]
  · rfl
  · obtain ⟨h1, h2, h3, h4⟩ := slot_bounds hr.dir h.1
    rw [hcmp j (Nat.le_refl j)]
    simp only [ok_bind, h.2.2, decide_true, if_true, storeInt, memset, pure_eq]
    rw [Region.fill_ok _ ⟨h3, h4⟩, ok_bind, Region.fill_ok _ (by exact ⟨h1, h2⟩)]
    rfl
  · intro k hk
    have hkN : k < s.maxDirEntries := by have := h.1; omega
    rw [hcmp k (by omega)]
    have hne : slotName s.fsData 0 k ≠ name.toList := by
      intro e
      rcases hr.dir.before k j hk h.1 h.live with hl | he
      · have := hr.dir.names k j hkN h.1 hl h.live (e.trans h.2.2.symm)
        omega
      · exact hpos (e.symm.trans he)
    simp [hne]

end

end

end Mbroker
