import Mbroker.Fs.Operations
import Mbroker.Fs.StateSpec

/-!
# What a returning call does

`Inv` is the invariant of the file system over unrestricted runs; in it even stale
handles point to inodes whose stored block, if their size is positive, is a block
other than the root's.  Under `Inv` each call that returns has one of the outcomes
of `Effect`, and `tfs_open`, `tfs_close` and `tfs_unlink` always return.

    exec_effect : Inv s → exec s c = ok (r, s') → Effect s c r s'
-/

namespace Mbroker

open CLib CLib.Outcome

/-! ## The invariant -/

/-- An inode number of the inode table other than the root's. -/
def FileIndex (s : Tfs) (i : Nat) : Prop := 0 < i ∧ i < s.inodeTableSize

/-- A file inode: it fits its block, and a positive size has a block, not the root's. -/
structure FileOk (p : TfsParams) (inode : Inode) : Prop where
  type : inode.iNodeType = .tFile
  sizeLe : inode.iSize ≤ p.blockSize
  block : 0 < inode.iSize → ∃ b : Nat, inode.iDataBlock = b ∧ 0 < b ∧ b < p.maxBlockCount

structure Inv (s : Tfs) : Prop where
  sane : Sane s
  root : Root s
  rootTaken : s.freeinodeTs.cell 0 = .taken
  rootBlock : s.freeBlocks.cell 0 = .taken
  liveInode : ∀ j, j < s.maxDirEntries → Live s.fsData 0 j →
    ∃ i : Nat, slotInum s.fsData 0 j = i ∧ FileIndex s i ∧ s.freeinodeTs.cell i = .taken
  inums : ∀ j k, j < s.maxDirEntries → k < s.maxDirEntries → Live s.fsData 0 j →
    slotInum s.fsData 0 j = slotInum s.fsData 0 k → j = k
  takenLive : ∀ i, FileIndex s i → s.freeinodeTs.cell i = .taken →
    ∃ j, j < s.maxDirEntries ∧ slotInum s.fsData 0 j = (i : Int)
  file : ∀ i, FileIndex s i → s.freeinodeTs.cell i = .taken →
    FileOk s.fsParams (s.inodeTable.cell i)
  owned : ∀ i, FileIndex s i → s.freeinodeTs.cell i = .taken → 0 < (s.inodeTable.cell i).iSize →
    s.freeBlocks.cell (s.inodeTable.cell i).iDataBlock.toNat = .taken
  uniq : ∀ i k, FileIndex s i → FileIndex s k → i ≠ k → s.freeinodeTs.cell i = .taken →
    s.freeinodeTs.cell k = .taken → 0 < (s.inodeTable.cell i).iSize →
    0 < (s.inodeTable.cell k).iSize →
    (s.inodeTable.cell i).iDataBlock ≠ (s.inodeTable.cell k).iDataBlock
  handle : ∀ h, h < s.maxOpenFiles → s.freeOpenFileEntries.cell h = .taken →
    ∃ i : Nat, (s.openFileTable.cell h).ofInumber = i ∧ FileIndex s i ∧
      FileOk s.fsParams (s.inodeTable.cell i)
  offsetLt : ∀ h, h < s.maxOpenFiles → s.freeOpenFileEntries.cell h = .taken →
    (s.openFileTable.cell h).ofOffset < 2 ^ 64

/-- Handle `h` is open on inode `i`. -/
def OpenOn (s : Tfs) (fhandle : Int) (h i : Nat) : Prop :=
  Handle s fhandle h ∧ (s.openFileTable.cell h).ofInumber = i

/-! ## Updates of the state -/

def truncated (s : Tfs) (i : Nat) : Tfs :=
  if 0 < (s.inodeTable.cell i).iSize then
    { s with
      freeBlocks := s.freeBlocks.set (s.inodeTable.cell i).iDataBlock.toNat .free
      inodeTable := s.inodeTable.set i { s.inodeTable.cell i with iSize := 0 } }
  else s

/-- A new inode `i` that got no directory entry and is free again. -/
def inodeReset (s : Tfs) (i : Nat) : Tfs :=
  { s with inodeTable := s.inodeTable.set i ⟨.tFile, 0, -1⟩ }

/-- A new empty file `name` with inode `i` in slot `j`. -/
def created (s : Tfs) (i j : Nat) (name : CStr) : Tfs :=
  { inodeCreated s i with fsData := addEntry s.fsData 0 j name i }

def handleFreed (s : Tfs) (h : Nat) : Tfs :=
  { s with freeOpenFileEntries := s.freeOpenFileEntries.set h .free }

def unlinked (s : Tfs) (i j : Nat) : Tfs :=
  { inodeFreed s i with fsData := clearEntry s.fsData 0 j }

/-- `n` bytes of `buffer` written through handle `h` of inode `i`, whose block is `b`
(a newly allocated one when the file was empty). -/
def written (s : Tfs) (h i b : Nat) (buffer : Nat → UInt8) (n : Nat) : Tfs :=
  let offset := (s.openFileTable.cell h).ofOffset
  let inode := s.inodeTable.cell i
  { s with
    freeBlocks := if inode.iSize = 0 then s.freeBlocks.set b .taken else s.freeBlocks
    inodeTable := s.inodeTable.set i
      { inode with iDataBlock := b, iSize := max inode.iSize (offset + n) }
    fsData := s.fsData.put (b * s.blockSize + offset) n buffer
    openFileTable := s.openFileTable.set h { s.openFileTable.cell h with ofOffset := offset + n } }

def readAdvanced (s : Tfs) (h n : Nat) : Tfs :=
  { s with
    openFileTable := s.openFileTable.set h
      { s.openFileTable.cell h with ofOffset := (s.openFileTable.cell h).ofOffset + n } }

/-- The end of `tfs_open`: a slot of the open file table, if one is free. -/
inductive AddHandle (s : Tfs) (i offset : Nat) : Int → Tfs → Prop
  | full (hh : ∀ h, h < s.maxOpenFiles → ¬ s.freeOpenFileEntries.cell h = .free) :
      AddHandle s i offset (-1) s
  | slot (h : Nat)
      (hh : FirstAt (fun h => s.freeOpenFileEntries.cell h = .free) s.maxOpenFiles h) :
      AddHandle s i offset h (handleAdded s h i offset)

inductive Effect (s : Tfs) : Call → Ret → Tfs → Prop
  | openBad {name : Option CStr} {mode : UInt32} (hv : validPathname name = false) :
      Effect s (.tfsOpen name mode) ⟨-1, []⟩ s
  | openAbsent {path : CStr} {mode : UInt32} (hv : validPathname (some path) = true)
      (ha : Absent s path.tail) (hm : hasFlag mode tfsOCreat = false) :
      Effect s (.tfsOpen (some path) mode) ⟨-1, []⟩ s
  | openNoInode {path : CStr} {mode : UInt32} (hv : validPathname (some path) = true)
      (ha : Absent s path.tail) (hm : hasFlag mode tfsOCreat = true)
      (hi : ∀ i, i < s.inodeTableSize → ¬ s.freeinodeTs.cell i = .free) :
      Effect s (.tfsOpen (some path) mode) ⟨-1, []⟩ s
  | openNoEntry {path : CStr} {mode : UInt32} (i : Nat) (hv : validPathname (some path) = true)
      (ha : Absent s path.tail) (hm : hasFlag mode tfsOCreat = true)
      (hi : FirstAt (fun i => s.freeinodeTs.cell i = .free) s.inodeTableSize i)
      (hn : 39 < path.tail.strlen ∨ ∀ j, j < s.maxDirEntries → Live s.fsData 0 j) :
      Effect s (.tfsOpen (some path) mode) ⟨-1, []⟩ (inodeReset s i)
  | openCreate {path : CStr} {mode : UInt32} {r : Int} {s' : Tfs} (i j : Nat)
      (hv : validPathname (some path) = true) (ha : Absent s path.tail)
      (hm : hasFlag mode tfsOCreat = true)
      (hi : FirstAt (fun i => s.freeinodeTs.cell i = .free) s.inodeTableSize i)
      (hn : 1 ≤ path.tail.strlen ∧ path.tail.strlen ≤ 39)
      (hj : FirstAt (fun j => ¬ Live s.fsData 0 j) s.maxDirEntries j)
      (hr : AddHandle (created s i j path.tail) i 0 r s') :
      Effect s (.tfsOpen (some path) mode) ⟨r, []⟩ s'
  | openFound {path : CStr} {mode : UInt32} {r : Int} {s₁ s' : Tfs} (j i : Nat)
      (hv : validPathname (some path) = true) (hn : Named s path.tail j i)
      (h₁ : s₁ = if hasFlag mode tfsOTrunc then truncated s i else s)
      (hr : AddHandle s₁ i (if hasFlag mode tfsOAppend then (s₁.inodeTable.cell i).iSize else 0)
        r s') :
      Effect s (.tfsOpen (some path) mode) ⟨r, []⟩ s'
  | closeBad {fhandle : Int} (hh : ∀ h, ¬ Handle s fhandle h) :
      Effect s (.tfsClose fhandle) ⟨-1, []⟩ s
  | close {fhandle : Int} (h : Nat) (hh : Handle s fhandle h) :
      Effect s (.tfsClose fhandle) ⟨0, []⟩ (handleFreed s h)
  | writeBad {fhandle : Int} {buffer : Nat → UInt8} {toWrite : Nat}
      (hh : ∀ h, ¬ Handle s fhandle h) :
      Effect s (.tfsWrite fhandle buffer toWrite) ⟨-1, []⟩ s
  | writeZero {fhandle : Int} {buffer : Nat → UInt8} {toWrite : Nat} (h i : Nat)
      (hh : OpenOn s fhandle h i)
      (hn : clampWrite s.blockSize (s.openFileTable.cell h).ofOffset toWrite = 0) :
      Effect s (.tfsWrite fhandle buffer toWrite) ⟨0, []⟩ s
  | writeNoBlock {fhandle : Int} {buffer : Nat → UInt8} {toWrite : Nat} (h i : Nat)
      (hh : OpenOn s fhandle h i)
      (hn : 0 < clampWrite s.blockSize (s.openFileTable.cell h).ofOffset toWrite)
      (hz : (s.inodeTable.cell i).iSize = 0)
      (hb : ∀ b, b < s.dataBlocks → ¬ s.freeBlocks.cell b = .free) :
      Effect s (.tfsWrite fhandle buffer toWrite) ⟨-1, []⟩ s
  | write {fhandle : Int} {buffer : Nat → UInt8} {toWrite : Nat} (h i b n : Nat)
      (hh : OpenOn s fhandle h i) (hn : 0 < n)
      (hclamp : n = clampWrite s.blockSize (s.openFileTable.cell h).ofOffset toWrite)
      (hmin : n = min toWrite (s.blockSize - (s.openFileTable.cell h).ofOffset))
      (hb : 0 < b ∧ b < s.dataBlocks)
      (hnew : (s.inodeTable.cell i).iSize = 0 →
        FirstAt (fun b => s.freeBlocks.cell b = .free) s.dataBlocks b)
      (hold : 0 < (s.inodeTable.cell i).iSize → (s.inodeTable.cell i).iDataBlock = b) :
      Effect s (.tfsWrite fhandle buffer toWrite) ⟨castSsize n, []⟩ (written s h i b buffer n)
  | readBad {fhandle : Int} {len : Nat} (hh : ∀ h, ¬ Handle s fhandle h) :
      Effect s (.tfsRead fhandle len) ⟨-1, []⟩ s
  | readZero {fhandle : Int} {len : Nat} (h i : Nat) (hh : OpenOn s fhandle h i)
      (hn : clampRead (s.inodeTable.cell i).iSize (s.openFileTable.cell h).ofOffset len = 0) :
      Effect s (.tfsRead fhandle len) ⟨0, []⟩ s
  | read {fhandle : Int} {len : Nat} (h i b n : Nat) (hh : OpenOn s fhandle h i) (hn : 0 < n)
      (hlen : n = clampRead (s.inodeTable.cell i).iSize (s.openFileTable.cell h).ofOffset len)
      (hb : (s.inodeTable.cell i).iDataBlock = b ∧ b < s.dataBlocks)
      (hin : b * s.blockSize + (s.openFileTable.cell h).ofOffset + n ≤ s.dataBlocks * s.blockSize) :
      Effect s (.tfsRead fhandle len)
        ⟨castSsize n, s.fsData.cells (b * s.blockSize + (s.openFileTable.cell h).ofOffset) n⟩
        (readAdvanced s h n)
  | unlinkBad {target : Option CStr} (hv : validPathname target = false) :
      Effect s (.tfsUnlink target) ⟨-1, []⟩ s
  | unlinkAbsent {path : CStr} (hv : validPathname (some path) = true)
      (ha : Absent s path.tail) : Effect s (.tfsUnlink (some path)) ⟨-1, []⟩ s
  | unlink {path : CStr} (j i : Nat) (hv : validPathname (some path) = true)
      (hn : Named s path.tail j i) : Effect s (.tfsUnlink (some path)) ⟨0, []⟩ (unlinked s i j)

/-! ## Lookups -/

section
variable {s : Tfs} (hI : Inv s)

include hI

theorem Inv.named_file {name : CStr} {j i : Nat} (hn : Named s name j i) :
    FileIndex s i ∧ s.freeinodeTs.cell i = .taken := by
  obtain ⟨k, hk, hf, ht⟩ := hI.liveInode j hn.1 hn.live
  have : i = k := by have := hn.2.1; omega
  subst this
  exact ⟨hf, ht⟩

theorem Inv.openOn_file {fhandle : Int} {h i : Nat} (hh : OpenOn s fhandle h i) :
    FileIndex s i ∧ FileOk s.fsParams (s.inodeTable.cell i) := by
  obtain ⟨k, hk, hf, hok⟩ := hI.handle h hh.1.2.1 hh.1.2.2
  have : i = k := by have := hh.2; omega
  subst this
  exact ⟨hf, hok⟩

theorem Inv.sizeLe {i : Nat} (hf : FileIndex s i) (ht : s.freeinodeTs.cell i = .taken) :
    (s.inodeTable.cell i).iSize ≤ s.blockSize :=
  (hI.file i hf ht).sizeLe

theorem Inv.handle_openOn {fhandle : Int} {h : Nat} (hh : Handle s fhandle h) :
    ∃ i, OpenOn s fhandle h i := by
  obtain ⟨i, hi, -⟩ := hI.handle h hh.2.1 hh.2.2
  exact ⟨i, hh, hi⟩

theorem Inv.named_or_absent (name : CStr) : (∃ j i, Named s name j i) ∨ Absent s name := by
  by_cases h : ∃ j, j < s.maxDirEntries ∧ Live s.fsData 0 j ∧ slotName s.fsData 0 j = name.toList
  · obtain ⟨j, hj, hl, he⟩ := h
    obtain ⟨i, hi, -⟩ := hI.liveInode j hj hl
    exact Or.inl ⟨j, i, hj, hi, he⟩
  · refine Or.inr (fun j hj hl he => h ⟨j, hj, hl, he⟩)

theorem Inv.fileBlock {i : Nat} (hf : FileIndex s i) (ht : s.freeinodeTs.cell i = .taken)
    (hz : 0 < (s.inodeTable.cell i).iSize) :
    ∃ b : Nat, (s.inodeTable.cell i).iDataBlock = b ∧ b < s.dataBlocks := by
  obtain ⟨b, hb, -, hlt⟩ := (hI.file i hf ht).block hz
  exact ⟨b, hb, hlt⟩

omit hI in
theorem validPathname_tail {path : CStr} (hv : validPathname (some path) = true) :
    1 ≤ path.tail.strlen := by
  have hlen : path.strlen > 1 := by
    unfold validPathname at hv
    exact of_decide_eq_true (Bool.and_eq_true_iff.mp hv).1
  simp only [CStr.strlen] at hlen
  simp only [CStr.tail, CStr.strlen, List.length_tail]
  omega

omit hI in
theorem tfsLookup_eq {path : CStr} (hv : validPathname (some path) = true) :
    tfsLookup s path 0 = findInDir s 0 path.tail := by
  simp [tfsLookup, hv]

theorem rootInode_get : inodeGet s rootDirInum = ok 0 :=
  inodeGet_ok hI.root.inodePos

end

/-! ## The calls that always return -/

section
variable {s : Tfs}

theorem addHandle_ok (hs : Sane s) {i offset : Nat} {r : Int} {s' : Tfs}
    (h : AddHandle s i offset r s') : addToOpenFileTable s i offset = ok (r, s') := by
  cases h with
  | full hh => exact addToOpenFileTable_none hs i offset hh
  | slot h hh => exact addToOpenFileTable_some hs i offset hh

theorem addHandle_exists (s : Tfs) (i offset : Nat) : ∃ r s', AddHandle s i offset r s' := by
  rcases firstAt_or_none (fun h => s.freeOpenFileEntries.cell h = .free) s.maxOpenFiles with
    ⟨h, hh⟩ | hh
  · exact ⟨h, _, .slot h hh⟩
  · exact ⟨-1, s, .full hh⟩

theorem sane_inodeCreated (hs : Sane s) (i : Nat) : Sane (inodeCreated s i) :=
  { hs with
    inodeTable := hs.inodeTable.set i _
    freeinodeTs := hs.freeinodeTs.set i _ }

theorem root_inodeCreated (hr : Root s) {i : Nat} (hi : 0 < i) : Root (inodeCreated s i) :=
  { hr with
    inode := by
      simp only [inodeCreated]
      rw [Region.set_cell_ne _ _ (by omega)]
      exact hr.inode }

theorem truncateInode_ok (hI : Inv s) {i : Nat} (hf : FileIndex s i)
    (ht : s.freeinodeTs.cell i = .taken) : truncateInode s i = ok (truncated s i) := by
  have hb := hI.sane.inodeTable.bounds hf.2
  unfold truncateInode truncated
  rw [Region.load_ok hb]
  by_cases hz : 0 < (s.inodeTable.cell i).iSize
  · obtain ⟨b, hb1, hb2⟩ := hI.fileBlock hf ht hz
    simp only [ok_bind, gt_iff_lt, hz, if_true, hb1, dataBlockFree_ok hI.sane hb2, pure_eq]
    rw [Region.store_ok _ hb]
    simp
  · simp [hz]

theorem sane_truncated (hs : Sane s) (i : Nat) : Sane (truncated s i) := by
  unfold truncated
  split
  · exact { hs with inodeTable := hs.inodeTable.set i _, freeBlocks := hs.freeBlocks.set _ _ }
  · exact hs

theorem truncated_inodeTableSize (i : Nat) : (truncated s i).inodeTableSize = s.inodeTableSize := by
  unfold truncated; split <;> rfl

/-- `tfs_open` behind a lookup that found inode `i`. -/
theorem tfsOpenAt_found (hI : Inv s) (path : CStr) {mode : UInt32} {j i : Nat} {r : Int}
    {s₁ s' : Tfs} (hn : Named s path.tail j i)
    (h₁ : s₁ = if hasFlag mode tfsOTrunc then truncated s i else s)
    (hr : AddHandle s₁ i (if hasFlag mode tfsOAppend then (s₁.inodeTable.cell i).iSize else 0)
      r s') : tfsOpenAt s path mode 0 i = ok (r, s') := by
  obtain ⟨hf, ht⟩ := hI.named_file hn
  have hs := hI.sane
  have hne : (i : Int) ≥ 0 := by omega
  unfold tfsOpenAt
  cases hm : hasFlag mode tfsOTrunc with
  | false =>
    rw [hm, if_neg Bool.false_ne_true] at h₁
    subst h₁
    simp only [hne, if_true, inodeGet_ok hf.2, ok_bind, alwaysAssert_ok _ (nonNull_full hs.inodeTable i),
      Bool.false_eq_true, if_false, Region.load_ok (hs.inodeTable.bounds hf.2)]
    exact addHandle_ok hs hr
  | true =>
    rw [hm, if_pos rfl] at h₁
    subst h₁
    have hst := sane_truncated hs i
    have hb : i < (truncated s i).inodeTableSize := by rw [truncated_inodeTableSize]; exact hf.2
    simp only [hne, if_true, inodeGet_ok hf.2, ok_bind, alwaysAssert_ok _ (nonNull_full hs.inodeTable i),
      truncateInode_ok hI hf ht, Region.load_ok (hst.inodeTable.bounds hb)]
    exact addHandle_ok hst hr

theorem tfsOpen_found (hI : Inv s) {path : CStr} (mode : UInt32)
    (hv : validPathname (some path) = true) {j i : Nat} (hn : Named s path.tail j i) :
    tfsOpen s (some path) mode = tfsOpenAt s path mode 0 i := by
  simp [tfsOpen, hv, rootInode_get hI, alwaysAssert_ok _ (nonNull_full hI.sane.inodeTable 0),
    tfsLookup_eq hv, findInDir_named hI.sane hI.root hn]

theorem tfsOpen_absent (hI : Inv s) {path : CStr} (mode : UInt32)
    (hv : validPathname (some path) = true) (ha : Absent s path.tail) :
    tfsOpen s (some path) mode = tfsOpenAt s path mode 0 (-1) := by
  simp [tfsOpen, hv, rootInode_get hI, alwaysAssert_ok _ (nonNull_full hI.sane.inodeTable 0),
    tfsLookup_eq hv, findInDir_absent hI.sane hI.root ha]

/-- The root's inode is never handed out. -/
theorem Inv.freeInode_pos (hI : Inv s) {i : Nat} (hi : s.freeinodeTs.cell i = .free) : 0 < i := by
  rcases Nat.eq_zero_or_pos i with rfl | h
  · rw [hI.rootTaken] at hi
    cases hi
  · exact h

theorem tfsOpenAt_noEntry (hI : Inv s) (path : CStr) {mode : UInt32} {i : Nat}
    (hm : hasFlag mode tfsOCreat = true)
    (hi : FirstAt (fun i => s.freeinodeTs.cell i = .free) s.inodeTableSize i)
    (hn : 39 < path.tail.strlen ∨ ∀ j, j < s.maxDirEntries → Live s.fsData 0 j) :
    tfsOpenAt s path mode 0 (-1) = ok (-1, inodeReset s i) := by
  have hs1 := sane_inodeCreated hI.sane i
  have hr1 := root_inodeCreated hI.root (hI.freeInode_pos hi.2.1)
  have hneg : ¬ (-1 : Int) ≥ 0 := by omega
  have hnei : ¬ (i : Int) = -1 := by omega
  have hadd : addDirEntry (inodeCreated s i) 0 path.tail i = ok (-1, inodeCreated s i) := by
    rcases hn with hn | hn
    · exact addDirEntry_invalid i (Or.inr hn)
    · exact addDirEntry_full hs1 hr1 i hn
  -- the inode just created is deleted again
  have hdel := inodeDelete_ok hs1 (i := i) hi.1 (Region.set_cell_self _ _ _)
    (fun h => absurd h (by simp [inodeCreated]))
  have hreset : inodeFreed (inodeCreated s i) i = inodeReset s i := by
    simp only [inodeFreed, inodeCreated, inodeReset, Region.set_cell_self, Nat.lt_irrefl, if_false,
      Region.set_set_self _ _ _ _ hi.2.1]
  simp only [tfsOpenAt, hneg, if_false, hm, if_true, inodeCreate_file_some hI.sane hi, ok_bind, hnei,
    hadd, hdel, hreset, pure_eq]

theorem tfsOpenAt_create (hI : Inv s) (path : CStr) {mode : UInt32} {i j : Nat} {r : Int} {s' : Tfs}
    (hm : hasFlag mode tfsOCreat = true)
    (hi : FirstAt (fun i => s.freeinodeTs.cell i = .free) s.inodeTableSize i)
    (hn : 1 ≤ path.tail.strlen ∧ path.tail.strlen ≤ 39)
    (hj : FirstAt (fun j => ¬ Live s.fsData 0 j) s.maxDirEntries j)
    (hr : AddHandle (created s i j path.tail) i 0 r s') :
    tfsOpenAt s path mode 0 (-1) = ok (r, s') := by
  have hs := hI.sane
  have hs1 := sane_inodeCreated hs i
  have hr1 := root_inodeCreated hI.root (hI.freeInode_pos hi.2.1)
  have hneg : ¬ (-1 : Int) ≥ 0 := by omega
  have hnei : ¬ (i : Int) = -1 := by omega
  have hz : ¬ (0 : Int) = -1 := by omega
  have hs2 : Sane (created s i j path.tail) :=
    { hs1 with fsData := ⟨hs.fsData.nonNull, hs.fsData.lo, hs.fsData.hi⟩ }
  have hadd := addDirEntry_ok hs1 hr1 (i : Int) hn hj
  simp only [tfsOpenAt, hneg, if_false, hm, if_true, inodeCreate_file_some hs hi, ok_bind, hnei,
    hadd, hz]
  exact addHandle_ok hs2 hr

theorem tfsOpen_ok (hI : Inv s) {name : Option CStr} {mode : UInt32} {r : Ret} {s' : Tfs}
    (h : Effect s (.tfsOpen name mode) r s') :
    tfsOpen s name mode = ok (r.val, s') ∧ r.bytes = [] := by
  have hneg : ¬ (-1 : Int) ≥ 0 := by omega
  cases h with
  | openBad hv =>
    refine ⟨?_, rfl⟩
    cases name with
    | none => rfl
    | some path => simp [tfsOpen, hv]
  | openAbsent hv ha hm =>
    rw [tfsOpen_absent hI mode hv ha]
    simp [tfsOpenAt, hm]
  | openNoInode hv ha hm hi =>
    rw [tfsOpen_absent hI mode hv ha]
    simp [tfsOpenAt, hm, inodeCreate_file_none hI.sane hi]
  | openNoEntry i hv ha hm hi hn =>
    rw [tfsOpen_absent hI mode hv ha]
    exact ⟨tfsOpenAt_noEntry hI _ hm hi hn, rfl⟩
  | openCreate i j hv ha hm hi hn hj hr =>
    rw [tfsOpen_absent hI mode hv ha]
    exact ⟨tfsOpenAt_create hI _ hm hi hn hj hr, rfl⟩
  | openFound j i hv hn h₁ hr =>
    rw [tfsOpen_found hI mode hv hn]
    exact ⟨tfsOpenAt_found hI _ hn h₁ hr, rfl⟩

theorem open_effect_exists (hI : Inv s) (name : Option CStr) (mode : UInt32) :
    ∃ r s', Effect s (.tfsOpen name mode) r s' := by
  cases hv : validPathname name with
  | false => exact ⟨_, _, .openBad hv⟩
  | true =>
  cases name with
  | none => cases hv
  | some path =>
  rcases hI.named_or_absent path.tail with ⟨j, i, hn⟩ | ha
  · obtain ⟨r, s', hr⟩ := addHandle_exists (if hasFlag mode tfsOTrunc then truncated s i else s) i
      (if hasFlag mode tfsOAppend then
        ((if hasFlag mode tfsOTrunc then truncated s i else s).inodeTable.cell i).iSize else 0)
    exact ⟨_, _, .openFound j i hv hn rfl hr⟩
  cases hm : hasFlag mode tfsOCreat with
  | false => exact ⟨_, _, .openAbsent hv ha hm⟩
  | true =>
  rcases firstAt_or_none (fun i => s.freeinodeTs.cell i = .free) s.inodeTableSize with ⟨i, hi⟩ | hi
  swap
  · exact ⟨_, _, .openNoInode hv ha hm hi⟩
  rcases firstAt_or_none (fun j => ¬ Live s.fsData 0 j) s.maxDirEntries with ⟨j, hj⟩ | hj
  swap
  · exact ⟨_, _, .openNoEntry i hv ha hm hi (Or.inr fun j hlt => Classical.not_not.mp (hj j hlt))⟩
  by_cases hlong : 39 < path.tail.strlen
  · exact ⟨_, _, .openNoEntry i hv ha hm hi (Or.inl hlong)⟩
  · obtain ⟨r, s', hr⟩ := addHandle_exists (created s i j path.tail) i 0
    exact ⟨_, _, .openCreate i j hv ha hm hi ⟨validPathname_tail hv, by omega⟩ hj hr⟩

theorem tfsOpen_effect (hI : Inv s) (name : Option CStr) (mode : UInt32) :
    ∃ r s', tfsOpen s name mode = ok (r, s') ∧ Effect s (.tfsOpen name mode) ⟨r, []⟩ s' := by
  obtain ⟨⟨r, bytes⟩, s', h⟩ := open_effect_exists hI name mode
  obtain ⟨hopen, rfl⟩ := tfsOpen_ok hI h
  exact ⟨r, s', hopen, h⟩

theorem tfsClose_ok (hI : Inv s) {fhandle : Int} {r : Ret} {s' : Tfs}
    (h : Effect s (.tfsClose fhandle) r s') :
    tfsClose s fhandle = ok (r.val, s') ∧ r.bytes = [] := by
  cases h with
  | closeBad hh => simp [tfsClose, getOpenFileEntry_none hI.sane hh]
  | close h hh =>
    simp [tfsClose, getOpenFileEntry_some hI.sane hh, removeFromOpenFileTable_ok hI.sane hh,
      handleFreed]

theorem tfsClose_effect (hI : Inv s) (fhandle : Int) :
    ∃ r s', tfsClose s fhandle = ok (r, s') ∧ Effect s (.tfsClose fhandle) ⟨r, []⟩ s' := by
  by_cases hh : ∃ h, Handle s fhandle h
  · obtain ⟨h, hh⟩ := hh
    exact ⟨0, handleFreed s h, (tfsClose_ok hI (.close h hh)).1, .close h hh⟩
  · have hbad : ∀ h, ¬ Handle s fhandle h := fun h h' => hh ⟨h, h'⟩
    exact ⟨-1, s, (tfsClose_ok hI (.closeBad hbad)).1, .closeBad hbad⟩

/-- `clear_dir_entry` in `tfs_unlink`, behind `inode_delete`. -/
theorem clearDirEntry_freed (hI : Inv s) {name : CStr} {j i : Nat} (hn : Named s name j i) :
    clearDirEntry (inodeFreed s i) 0 name = ok (0, unlinked s i j) := by
  have hs := hI.sane
  have hr := hI.root
  have hs1 : Sane (inodeFreed s i) :=
    { hs with
      freeinodeTs := hs.freeinodeTs.set i _
      freeBlocks := by
        unfold inodeFreed
        simp only
        split
        · exact hs.freeBlocks.set _ _
        · exact hs.freeBlocks }
  have hr1 : Root (inodeFreed s i) := ⟨hr.inodePos, hr.blockPos, hr.inode, hr.dir, hr.liveLt⟩
  exact clearDirEntry_named hs1 hr1 (j := j) (i := i) hn

theorem tfsUnlink_named (hI : Inv s) {path : CStr} (hv : validPathname (some path) = true)
    {j i : Nat} (hn : Named s path.tail j i) :
    tfsUnlink s (some path) = ok (0, unlinked s i j) := by
  have hs := hI.sane
  have hr := hI.root
  obtain ⟨hf, ht⟩ := hI.named_file hn
  have hclear := clearDirEntry_freed hI hn
  have hnei : ¬ (i : Int) = -1 := by omega
  have hz : ¬ (0 : Int) = -1 := by omega
  simp only [tfsUnlink, hv, Bool.not_true, Bool.false_eq_true, if_false, rootInode_get hI, ok_bind,
    alwaysAssert_ok _ (nonNull_full hs.inodeTable 0), tfsLookup_eq hv, findInDir_named hs hr hn, hnei,
    inodeDelete_ok hs hf.2 ht (hI.fileBlock hf ht), hclear, hz, pure_eq]

theorem tfsUnlink_ok (hI : Inv s) {target : Option CStr} {r : Ret} {s' : Tfs}
    (h : Effect s (.tfsUnlink target) r s') :
    tfsUnlink s target = ok (r.val, s') ∧ r.bytes = [] := by
  cases h with
  | unlinkBad hv =>
    refine ⟨?_, rfl⟩
    cases target with
    | none => rfl
    | some path => simp [tfsUnlink, hv]
  | unlinkAbsent hv ha =>
    simp [tfsUnlink, hv, rootInode_get hI, alwaysAssert_ok _ (nonNull_full hI.sane.inodeTable 0),
      tfsLookup_eq hv, findInDir_absent hI.sane hI.root ha]
  | unlink j i hv hn => exact ⟨tfsUnlink_named hI hv hn, rfl⟩

theorem tfsUnlink_effect (hI : Inv s) (target : Option CStr) :
    ∃ r s', tfsUnlink s target = ok (r, s') ∧ Effect s (.tfsUnlink target) ⟨r, []⟩ s' := by
  cases hv : validPathname target with
  | false => exact ⟨-1, s, (tfsUnlink_ok hI (.unlinkBad hv)).1, .unlinkBad hv⟩
  | true =>
  cases target with
  | none => cases hv
  | some path =>
  rcases hI.named_or_absent path.tail with ⟨j, i, hn⟩ | ha
  · exact ⟨0, unlinked s i j, tfsUnlink_named hI hv hn, .unlink j i hv hn⟩
  · exact ⟨-1, s, (tfsUnlink_ok hI (.unlinkAbsent hv ha)).1, .unlinkAbsent hv ha⟩

/-! ## `tfs_write` -/

/-- A copy that stays inside `fs_data` stays inside the block. -/
theorem clampWrite_fit {blockSize offset toWrite base total : Nat} (hoff : offset < 2 ^ 64)
    (htotal : total < 2 ^ 64) (hblock : base + blockSize ≤ total)
    (hn : 0 < clampWrite blockSize offset toWrite)
    (hend : base + offset + clampWrite blockSize offset toWrite ≤ total) :
    offset + clampWrite blockSize offset toWrite ≤ blockSize ∧
      clampWrite blockSize offset toWrite = min toWrite (blockSize - offset) := by
  unfold clampWrite sizeAdd sizeSub at *
  split at hend <;> split at hn <;> split <;> omega

/-- The sum in the test of `tfs_write` does not hide by wrap-around that it is past the block. -/
def SumFits (blockSize offset toWrite : Nat) : Prop :=
  toWrite + offset ≤ blockSize ∨ blockSize < sizeAdd toWrite offset

/-- Then the clamp is the space left in the block. -/
theorem clampWrite_of_sumFits {blockSize offset toWrite : Nat} (hb : blockSize < 2 ^ 64)
    (hoff : offset ≤ blockSize) (hw : SumFits blockSize offset toWrite) :
    clampWrite blockSize offset toWrite = min toWrite (blockSize - offset) := by
  unfold SumFits sizeAdd at hw
  unfold clampWrite sizeAdd sizeSub
  split <;> omega

theorem sumFits_of_lt {blockSize offset toWrite : Nat} (hw : toWrite + offset < 2 ^ 64) :
    SumFits blockSize offset toWrite := by
  unfold SumFits
  rw [sizeAdd_of_lt hw]
  omega

theorem clampWrite_of_le {blockSize offset toWrite : Nat} (hb : blockSize < 2 ^ 64)
    (hoff : offset ≤ blockSize) (hw : toWrite + offset < 2 ^ 64) :
    clampWrite blockSize offset toWrite = min toWrite (blockSize - offset) :=
  clampWrite_of_sumFits hb hoff (sumFits_of_lt hw)

/-- Where the test goes wrong there seem to be bytes to write. -/
theorem clampWrite_pos {blockSize offset toWrite : Nat} (hb : blockSize < 2 ^ 64)
    (ho : offset < 2 ^ 64) (h : ¬ (offset ≤ blockSize ∧ SumFits blockSize offset toWrite)) :
    0 < clampWrite blockSize offset toWrite := by
  unfold SumFits sizeAdd at h
  unfold clampWrite sizeAdd sizeSub
  split <;> omega

theorem tfsWrite_bad (hs : Sane s) {fhandle : Int} (hh : ∀ h, ¬ Handle s fhandle h)
    (buffer : Nat → UInt8) (toWrite : Nat) : tfsWrite s fhandle buffer toWrite = ok (-1, s) := by
  simp [tfsWrite, getOpenFileEntry_none hs hh]

section
variable (hI : Inv s) {fhandle : Int} {h i : Nat} (hh : OpenOn s fhandle h i)

include hI hh

theorem tfsWrite_open (buffer : Nat → UInt8) (toWrite : Nat) :
    tfsWrite s fhandle buffer toWrite =
      (let n := clampWrite s.blockSize (s.openFileTable.cell h).ofOffset toWrite
       if n > 0 then do
         let (space, s) ← allocForWrite s i
         if !space then return (-1, s)
         else
           let s ← writeBytes s h i buffer n
           return (castSsize n, s)
       else ok (castSsize n, s)) := by
  have hs := hI.sane
  have hf := (hI.openOn_file hh).1
  simp only [tfsWrite, getOpenFileEntry_some hs hh.1, ok_bind,
    Region.load_ok (hs.openFileTable.bounds hh.1.2.1), hh.2, inodeGet_ok hf.2,
    alwaysAssert_ok _ (nonNull_full hs.inodeTable i), stateBlockSize, pure_eq]

theorem tfsWrite_zero (buffer : Nat → UInt8) (toWrite : Nat)
    (hn : clampWrite s.blockSize (s.openFileTable.cell h).ofOffset toWrite = 0) :
    tfsWrite s fhandle buffer toWrite = ok (0, s) := by
  rw [tfsWrite_open hI hh]
  simp [hn]

theorem tfsWrite_noBlock (buffer : Nat → UInt8) (toWrite : Nat)
    (hn : 0 < clampWrite s.blockSize (s.openFileTable.cell h).ofOffset toWrite)
    (hz : (s.inodeTable.cell i).iSize = 0)
    (hb : ∀ b, b < s.dataBlocks → ¬ s.freeBlocks.cell b = .free) :
    tfsWrite s fhandle buffer toWrite = ok (-1, s) := by
  have hf := (hI.openOn_file hh).1
  have halloc : allocForWrite s i = ok (false, s) := by
    simp [allocForWrite, Region.load_ok (hI.sane.inodeTable.bounds hf.2), hz,
      dataBlockAlloc_none hI.sane hb]
  rw [tfsWrite_open hI hh]
  simp [hn, halloc]

end

/-- The state in which `writeBytes` runs: an empty file has got block `b`. -/
def blockAllocated (s : Tfs) (i b : Nat) : Tfs :=
  if (s.inodeTable.cell i).iSize = 0 then
    { s with
      freeBlocks := s.freeBlocks.set b .taken
      inodeTable := s.inodeTable.set i { s.inodeTable.cell i with iDataBlock := b } }
  else s

theorem allocForWrite_ok (hs : Sane s) {i b : Nat} (hi : i < s.inodeTableSize)
    (hnew : (s.inodeTable.cell i).iSize = 0 →
      FirstAt (fun b => s.freeBlocks.cell b = .free) s.dataBlocks b) :
    allocForWrite s i = ok (true, blockAllocated s i b) := by
  have hb := hs.inodeTable.bounds hi
  unfold allocForWrite blockAllocated
  rw [Region.load_ok hb]
  by_cases hz : (s.inodeTable.cell i).iSize = 0
  · have hne : ¬ (b : Int) = -1 := by omega
    simp only [ok_bind, hz, if_true, dataBlockAlloc_some hs (hnew hz), hne, if_false, pure_eq]
    rw [Region.store_ok _ hb]
    simp
  · simp [hz]

@[simp] theorem blockAllocated_blockSize (s : Tfs) (i b : Nat) :
    (blockAllocated s i b).blockSize = s.blockSize := by
  unfold blockAllocated; split <;> rfl

@[simp] theorem blockAllocated_dataBlocks (s : Tfs) (i b : Nat) :
    (blockAllocated s i b).dataBlocks = s.dataBlocks := by
  unfold blockAllocated; split <;> rfl

@[simp] theorem blockAllocated_inodeTableSize (s : Tfs) (i b : Nat) :
    (blockAllocated s i b).inodeTableSize = s.inodeTableSize := by
  unfold blockAllocated; split <;> rfl

@[simp] theorem blockAllocated_maxOpenFiles (s : Tfs) (i b : Nat) :
    (blockAllocated s i b).maxOpenFiles = s.maxOpenFiles := by
  unfold blockAllocated; split <;> rfl

@[simp] theorem blockAllocated_openFileTable (s : Tfs) (i b : Nat) :
    (blockAllocated s i b).openFileTable = s.openFileTable := by
  unfold blockAllocated; split <;> rfl

theorem blockAllocated_block {s : Tfs} {i b : Nat}
    (hold : 0 < (s.inodeTable.cell i).iSize → (s.inodeTable.cell i).iDataBlock = b) :
    ((blockAllocated s i b).inodeTable.cell i).iDataBlock = b := by
  unfold blockAllocated
  split
  · simp
  · next hz => exact hold (by omega)

theorem sane_blockAllocated (hs : Sane s) (i b : Nat) : Sane (blockAllocated s i b) := by
  unfold blockAllocated
  split
  · exact { hs with inodeTable := hs.inodeTable.set i _, freeBlocks := hs.freeBlocks.set _ _ }
  · exact hs

/-- The state behind the copy of `n` bytes into block `b` of inode `i`. -/
def bytesWritten (s : Tfs) (h i b : Nat) (buffer : Nat → UInt8) (n : Nat) : Tfs :=
  { s with
    fsData := s.fsData.put (b * s.blockSize + (s.openFileTable.cell h).ofOffset) n buffer
    openFileTable := s.openFileTable.set h
      { s.openFileTable.cell h with ofOffset := (s.openFileTable.cell h).ofOffset + n }
    inodeTable := s.inodeTable.set i
      { s.inodeTable.cell i with
        iSize := max (s.inodeTable.cell i).iSize ((s.openFileTable.cell h).ofOffset + n) } }

theorem set_iSize_max (s : Tfs) (i offset : Nat) :
    (if offset > (s.inodeTable.cell i).iSize then
        s.inodeTable.set i { s.inodeTable.cell i with iSize := offset }
      else s.inodeTable) =
      s.inodeTable.set i
        { s.inodeTable.cell i with iSize := max (s.inodeTable.cell i).iSize offset } := by
  refine Region.ext' ?_ ?_ ?_ (fun x => ?_) <;> try (split <;> rfl)
  by_cases hx : x = i
  · subst hx
    split
    · rw [Region.set_cell_self, Region.set_cell_self, Nat.max_eq_right (by omega)]
    · rw [Region.set_cell_self, Nat.max_eq_left (by omega)]
  · rw [Region.set_cell_ne _ _ hx]
    split
    · rw [Region.set_cell_ne _ _ hx]
    · rfl

theorem writeBytes_eq (hs : Sane s) {h i b n : Nat} (buffer : Nat → UInt8)
    (hi : i < s.inodeTableSize) (hh : h < s.maxOpenFiles)
    (hb : (s.inodeTable.cell i).iDataBlock = b ∧ b < s.dataBlocks) (hn : 0 < n) :
    writeBytes s h i buffer n =
      if b * s.blockSize + (s.openFileTable.cell h).ofOffset + n ≤ s.dataBlocks * s.blockSize then
        ok (bytesWritten s h i b buffer n)
      else fault := by
  have hbytes := hs.bytes
  have hfull := hs.fsData
  have hload := hs.openFileTable.bounds hh
  have hiload := hs.inodeTable.bounds hi
  simp only [writeBytes, Region.load_ok hload, ok_bind, Region.load_ok hiload, hb.1,
    dataBlockGet_ok hs hb.2, alwaysAssert_ok _ (nonNull_full hfull _), Region.store_ok _ hload,
    Region.store_ok _ hiload, pure_eq]
  by_cases hin : b * s.blockSize + (s.openFileTable.cell h).ofOffset + n ≤
      s.dataBlocks * s.blockSize
  · have hmax := set_iSize_max s i ((s.openFileTable.cell h).ofOffset + n)
    simp only [hb.1] at hmax
    rw [if_pos hin, Region.fill_ok _ (by rw [hfull.lo, hfull.hi]; omega),
      sizeAdd_of_lt (by omega)]
    simp only [ok_bind, bytesWritten, hb.1, ← hmax]
    split <;> rfl
  · have hfault : s.fsData.fill (b * s.blockSize + (s.openFileTable.cell h).ofOffset) n buffer =
        fault := if_neg (by rw [hfull.lo, hfull.hi]; omega)
    rw [if_neg hin, hfault, fault_bind]

/-- Both cases of the allocation end in one description of the state. -/
theorem bytesWritten_blockAllocated {h i b n : Nat} (buffer : Nat → UInt8)
    (hold : 0 < (s.inodeTable.cell i).iSize → (s.inodeTable.cell i).iDataBlock = b) :
    bytesWritten (blockAllocated s i b) h i b buffer n = written s h i b buffer n := by
  by_cases hz : (s.inodeTable.cell i).iSize = 0
  · have hall : blockAllocated s i b = _ := if_pos hz
    rw [hall]
    simp only [bytesWritten, written, hz, if_true, Region.set_cell_self, Tfs.blockSize]
    congr 1
    refine Region.ext' rfl rfl rfl (fun x => ?_)
    simp only [Region.set_cell]
    split <;> rfl
  · have hall : blockAllocated s i b = s := if_neg hz
    rw [hall]
    simp only [bytesWritten, written, hz, if_false, ← hold (by omega)]

/-- A write of at least one byte with a block. -/
theorem tfsWrite_block (hI : Inv s) {fhandle : Int} {h i b : Nat} (hh : OpenOn s fhandle h i)
    (buffer : Nat → UInt8) (toWrite : Nat)
    (hn : 0 < clampWrite s.blockSize (s.openFileTable.cell h).ofOffset toWrite)
    (hb : b < s.dataBlocks)
    (hnew : (s.inodeTable.cell i).iSize = 0 →
      FirstAt (fun b => s.freeBlocks.cell b = .free) s.dataBlocks b)
    (hold : 0 < (s.inodeTable.cell i).iSize → (s.inodeTable.cell i).iDataBlock = b) :
    tfsWrite s fhandle buffer toWrite =
      (let n := clampWrite s.blockSize (s.openFileTable.cell h).ofOffset toWrite
       if b * s.blockSize + (s.openFileTable.cell h).ofOffset + n ≤ s.dataBlocks * s.blockSize then
        ok (castSsize n, written s h i b buffer n)
      else fault) := by
  have hs := hI.sane
  have hf := (hI.openOn_file hh).1
  have hw := writeBytes_eq (sane_blockAllocated hs i b) (h := h) (i := i) (b := b)
    (n := clampWrite s.blockSize (s.openFileTable.cell h).ofOffset toWrite) buffer
    (by simpa using hf.2) (by simpa using hh.1.2.1) ⟨blockAllocated_block hold, by simpa using hb⟩ hn
  rw [bytesWritten_blockAllocated buffer hold] at hw
  simp only [blockAllocated_openFileTable, blockAllocated_blockSize, blockAllocated_dataBlocks] at hw
  rw [tfsWrite_open hI hh]
  simp only [gt_iff_lt, hn, if_true, allocForWrite_ok hs hf.2 hnew, ok_bind, hw, pure_eq,
    Bool.not_true, Bool.false_eq_true, if_false]
  by_cases hin : b * s.blockSize + (s.openFileTable.cell h).ofOffset +
      clampWrite s.blockSize (s.openFileTable.cell h).ofOffset toWrite ≤ s.dataBlocks * s.blockSize
  · rw [if_pos hin, if_pos hin, ok_bind]
  · rw [if_neg hin, if_neg hin, fault_bind]

/-- Which block a write goes to, or that there is none. -/
theorem write_block_or_none (hI : Inv s) {fhandle : Int} {h i : Nat} (hh : OpenOn s fhandle h i) :
    (∃ b, (0 < b ∧ b < s.dataBlocks) ∧
      ((s.inodeTable.cell i).iSize = 0 →
        FirstAt (fun b => s.freeBlocks.cell b = .free) s.dataBlocks b) ∧
      (0 < (s.inodeTable.cell i).iSize → (s.inodeTable.cell i).iDataBlock = b)) ∨
    ((s.inodeTable.cell i).iSize = 0 ∧ ∀ b, b < s.dataBlocks → ¬ s.freeBlocks.cell b = .free) := by
  obtain ⟨-, hok⟩ := hI.openOn_file hh
  rcases Nat.eq_zero_or_pos (s.inodeTable.cell i).iSize with hz | hz
  · rcases firstAt_or_none (fun b => s.freeBlocks.cell b = .free) s.dataBlocks with ⟨b, hb⟩ | hb
    · have h0 : 0 < b := by
        rcases Nat.eq_zero_or_pos b with rfl | h
        · have hfree : s.freeBlocks.cell 0 = .free := hb.2.1
          rw [hI.rootBlock] at hfree
          cases hfree
        · exact h
      exact Or.inl ⟨b, ⟨h0, hb.1⟩, fun _ => hb, fun h => by omega⟩
    · exact Or.inr ⟨hz, hb⟩
  · obtain ⟨b, hb, h0, hlt⟩ := hok.block hz
    exact Or.inl ⟨b, ⟨h0, hlt⟩, fun h => by omega, fun _ => hb⟩

theorem tfsWrite_effect (hI : Inv s) {fhandle : Int} {buffer : Nat → UInt8} {toWrite : Nat}
    {r : Int} {s' : Tfs} (hw : tfsWrite s fhandle buffer toWrite = ok (r, s')) :
    Effect s (.tfsWrite fhandle buffer toWrite) ⟨r, []⟩ s' := by
  by_cases hex : ∃ h, Handle s fhandle h
  swap
  · have hbad : ∀ h, ¬ Handle s fhandle h := fun h h' => hex ⟨h, h'⟩
    rw [tfsWrite_bad hI.sane hbad] at hw
    cases hw
    exact .writeBad hbad
  obtain ⟨h, hh⟩ := hex
  obtain ⟨i, hh⟩ := hI.handle_openOn hh
  rcases Nat.eq_zero_or_pos (clampWrite s.blockSize (s.openFileTable.cell h).ofOffset toWrite) with
    hn | hn
  · rw [tfsWrite_zero hI hh _ _ hn] at hw
    cases hw
    exact .writeZero h i hh hn
  rcases write_block_or_none hI hh with ⟨b, hb, hnew, hold⟩ | ⟨hz, hb⟩
  · rw [tfsWrite_block hI hh buffer toWrite hn hb.2 hnew hold] at hw
    simp only at hw
    split at hw
    · next hin =>
      simp only [ok.injEq, Prod.mk.injEq] at hw
      obtain ⟨rfl, rfl⟩ := hw
      have hfit := clampWrite_fit (hI.offsetLt h hh.1.2.1 hh.1.2.2) hI.sane.bytes
        (blockEnd_le hb.2) hn hin
      exact .write h i b (clampWrite s.blockSize (s.openFileTable.cell h).ofOffset toWrite) hh hn
        rfl hfit.2 hb hnew hold
    · cases hw
  · rw [tfsWrite_noBlock hI hh _ _ hn hz hb] at hw
    cases hw
    exact .writeNoBlock h i hh hn hz hb

theorem tfsWrite_ok (hI : Inv s) {fhandle : Int} {buffer : Nat → UInt8} {toWrite : Nat} {r : Ret}
    {s' : Tfs} (h : Effect s (.tfsWrite fhandle buffer toWrite) r s') :
    tfsWrite s fhandle buffer toWrite = ok (r.val, s') ∧ r.bytes = [] := by
  cases h with
  | writeBad hh => exact ⟨tfsWrite_bad hI.sane hh _ _, rfl⟩
  | writeZero h i hh hn => exact ⟨tfsWrite_zero hI hh _ _ hn, rfl⟩
  | writeNoBlock h i hh hn hz hb => exact ⟨tfsWrite_noBlock hI hh _ _ hn hz hb, rfl⟩
  | write h i b n hh hn hclamp hmin hb hnew hold =>
    subst hclamp
    have hend := blockEnd_le hb.2
    refine ⟨?_, rfl⟩
    rw [tfsWrite_block hI hh buffer toWrite hn hb.2 hnew hold]
    simp only []
    rw [if_pos (by omega)]

theorem tfsWrite_no_panic (hI : Inv s) (fhandle : Int) (buffer : Nat → UInt8) (toWrite : Nat) :
    (tfsWrite s fhandle buffer toWrite).isPanic = false := by
  by_cases hex : ∃ h, Handle s fhandle h
  swap
  · rw [tfsWrite_bad hI.sane (fun h h' => hex ⟨h, h'⟩)]; rfl
  obtain ⟨h, hh⟩ := hex
  obtain ⟨i, hh⟩ := hI.handle_openOn hh
  rcases Nat.eq_zero_or_pos (clampWrite s.blockSize (s.openFileTable.cell h).ofOffset toWrite) with
    hn | hn
  · rw [tfsWrite_zero hI hh _ _ hn]; rfl
  rcases write_block_or_none hI hh with ⟨b, hb, hnew, hold⟩ | ⟨hz, hb⟩
  · rw [tfsWrite_block hI hh buffer toWrite hn hb.2 hnew hold]
    simp only
    split <;> rfl
  · rw [tfsWrite_noBlock hI hh _ _ hn hz hb]; rfl

/-! ## `tfs_read` -/

theorem clampRead_le (size offset len : Nat) : clampRead size offset len ≤ len := by
  unfold clampRead
  split <;> omega

theorem clampRead_of_le {size offset len : Nat} (hsize : size < 2 ^ 64) (h : offset ≤ size) :
    clampRead size offset len = min len (size - offset) := by
  unfold clampRead
  rw [sizeSub_of_le hsize h]
  split <;> omega

theorem tfsRead_bad (hs : Sane s) {fhandle : Int} (hh : ∀ h, ¬ Handle s fhandle h) (len : Nat) :
    tfsRead s fhandle len = ok (-1, [], s) := by
  simp [tfsRead, getOpenFileEntry_none hs hh]

section
variable (hI : Inv s) {fhandle : Int} {h i : Nat} (hh : OpenOn s fhandle h i)

include hI hh

theorem tfsRead_zero (len : Nat)
    (hn : clampRead (s.inodeTable.cell i).iSize (s.openFileTable.cell h).ofOffset len = 0) :
    tfsRead s fhandle len = ok (0, [], s) := by
  have hs := hI.sane
  have hf := (hI.openOn_file hh).1
  simp [tfsRead, getOpenFileEntry_some hs hh.1, Region.load_ok (hs.openFileTable.bounds hh.1.2.1),
    hh.2, inodeGet_ok hf.2, alwaysAssert_ok _ (nonNull_full hs.inodeTable i),
    Region.load_ok (hs.inodeTable.bounds hf.2), hn]

/-- The block of a file that was never written is `-1`. -/
theorem tfsRead_panic (len : Nat)
    (hn : 0 < clampRead (s.inodeTable.cell i).iSize (s.openFileTable.cell h).ofOffset len)
    (hb : s.validBlockNumber (s.inodeTable.cell i).iDataBlock = false) :
    tfsRead s fhandle len = .panic "data_block_get: invalid block number" := by
  have hs := hI.sane
  have hf := (hI.openOn_file hh).1
  simp [tfsRead, getOpenFileEntry_some hs hh.1, Region.load_ok (hs.openFileTable.bounds hh.1.2.1),
    hh.2, inodeGet_ok hf.2, alwaysAssert_ok _ (nonNull_full hs.inodeTable i),
    Region.load_ok (hs.inodeTable.bounds hf.2), hn, dataBlockGet_panic hb]

theorem tfsRead_block {b : Nat} (len : Nat)
    (hn : 0 < clampRead (s.inodeTable.cell i).iSize (s.openFileTable.cell h).ofOffset len)
    (hb : (s.inodeTable.cell i).iDataBlock = b ∧ b < s.dataBlocks) :
    tfsRead s fhandle len =
      (let n := clampRead (s.inodeTable.cell i).iSize (s.openFileTable.cell h).ofOffset len
       let a := b * s.blockSize + (s.openFileTable.cell h).ofOffset
       if a + n ≤ s.dataBlocks * s.blockSize then
        ok (castSsize n, s.fsData.cells a n, readAdvanced s h n)
      else fault) := by
  have hs := hI.sane
  have hf := (hI.openOn_file hh).1
  have hfull := hs.fsData
  have hbytes := hs.bytes
  have hload := hs.openFileTable.bounds hh.1.2.1
  simp only [tfsRead, getOpenFileEntry_some hs hh.1, Region.load_ok hload, ok_bind,
    hh.2, inodeGet_ok hf.2, alwaysAssert_ok _ (nonNull_full hs.inodeTable i),
    Region.load_ok (hs.inodeTable.bounds hf.2), gt_iff_lt, hn, if_true, hb.1,
    dataBlockGet_ok hs hb.2, alwaysAssert_ok _ (nonNull_full hfull _), pure_eq]
  split
  · next hin =>
    rw [Region.loadN_ok (by rw [hfull.lo, hfull.hi]; omega), ok_bind, sizeAdd_of_lt (by omega),
      Region.store_ok _ hload, ok_bind, ← hh.2]
    rfl
  · next hout =>
    rw [show s.fsData.loadN _ _ = fault from if_neg (by rw [hfull.lo, hfull.hi]; omega), fault_bind]

end

theorem tfsRead_effect (hI : Inv s) {fhandle : Int} {len : Nat} {r : Int} {bytes : List UInt8}
    {s' : Tfs} (hr : tfsRead s fhandle len = ok (r, bytes, s')) :
    Effect s (.tfsRead fhandle len) ⟨r, bytes⟩ s' := by
  by_cases hex : ∃ h, Handle s fhandle h
  swap
  · have hbad : ∀ h, ¬ Handle s fhandle h := fun h h' => hex ⟨h, h'⟩
    rw [tfsRead_bad hI.sane hbad] at hr
    cases hr
    exact .readBad hbad
  obtain ⟨h, hh⟩ := hex
  obtain ⟨i, hh⟩ := hI.handle_openOn hh
  rcases Nat.eq_zero_or_pos
    (clampRead (s.inodeTable.cell i).iSize (s.openFileTable.cell h).ofOffset len) with hn | hn
  · rw [tfsRead_zero hI hh len hn] at hr
    cases hr
    exact .readZero h i hh hn
  cases hb : s.validBlockNumber (s.inodeTable.cell i).iDataBlock with
  | false =>
    rw [tfsRead_panic hI hh len hn hb] at hr
    cases hr
  | true =>
    obtain ⟨b, hb1, hb2⟩ := (validBlockNumber_iff _).mp hb
    rw [tfsRead_block hI hh len hn ⟨hb1, hb2⟩] at hr
    simp only at hr
    split at hr
    · next hin =>
      simp only [ok.injEq, Prod.mk.injEq] at hr
      obtain ⟨rfl, rfl, rfl⟩ := hr
      exact .read h i b
        (clampRead (s.inodeTable.cell i).iSize (s.openFileTable.cell h).ofOffset len) hh hn rfl
        ⟨hb1, hb2⟩ hin
    · cases hr

theorem tfsRead_ok (hI : Inv s) {fhandle : Int} {len : Nat} {r : Ret} {s' : Tfs}
    (h : Effect s (.tfsRead fhandle len) r s') :
    tfsRead s fhandle len = ok (r.val, r.bytes, s') := by
  cases h with
  | readBad hh => exact tfsRead_bad hI.sane hh len
  | readZero h i hh hn => exact tfsRead_zero hI hh len hn
  | read h i b n hh hn hlen hb hin =>
    subst hlen
    rw [tfsRead_block hI hh len hn hb]
    simp only []
    rw [if_pos hin]

/-! ## All calls -/

/-- What `Effect` describes is what the call does. -/
theorem effect_exec (hI : Inv s) {c : Call} {r : Ret} {s' : Tfs} (h : Effect s c r s') :
    exec s c = ok (r, s') := by
  obtain ⟨v, bytes⟩ := r
  cases c with
  | tfsOpen name mode =>
    obtain ⟨h1, rfl⟩ := tfsOpen_ok hI h
    simp [exec, h1]
  | tfsClose fhandle =>
    obtain ⟨h1, rfl⟩ := tfsClose_ok hI h
    simp [exec, h1]
  | tfsWrite fhandle buffer toWrite =>
    obtain ⟨h1, rfl⟩ := tfsWrite_ok hI h
    simp [exec, h1]
  | tfsRead fhandle len =>
    simp [exec, tfsRead_ok hI h]
  | tfsUnlink target =>
    obtain ⟨h1, rfl⟩ := tfsUnlink_ok hI h
    simp [exec, h1]

theorem exec_effect (hI : Inv s) {c : Call} {r : Ret} {s' : Tfs} (h : exec s c = ok (r, s')) :
    Effect s c r s' := by
  cases c with
  | tfsOpen name mode =>
    obtain ⟨v, t, h1, h2⟩ := tfsOpen_effect hI name mode
    simp only [exec, h1, ok_bind, pure_eq, ok.injEq, Prod.mk.injEq] at h
    obtain ⟨rfl, rfl⟩ := h
    exact h2
  | tfsClose fhandle =>
    obtain ⟨v, t, h1, h2⟩ := tfsClose_effect hI fhandle
    simp only [exec, h1, ok_bind, pure_eq, ok.injEq, Prod.mk.injEq] at h
    obtain ⟨rfl, rfl⟩ := h
    exact h2
  | tfsWrite fhandle buffer toWrite =>
    simp only [exec, bind_eq_ok, pure_eq, ok.injEq, Prod.mk.injEq] at h
    obtain ⟨⟨v, t⟩, h1, rfl, rfl⟩ := h
    exact tfsWrite_effect hI h1
  | tfsRead fhandle len =>
    simp only [exec, bind_eq_ok, pure_eq, ok.injEq, Prod.mk.injEq] at h
    obtain ⟨⟨v, bytes, t⟩, h1, rfl, rfl⟩ := h
    exact tfsRead_effect hI h1
  | tfsUnlink target =>
    obtain ⟨v, t, h1, h2⟩ := tfsUnlink_effect hI target
    simp only [exec, h1, ok_bind, pure_eq, ok.injEq, Prod.mk.injEq] at h
    obtain ⟨rfl, rfl⟩ := h
    exact h2

end

end Mbroker
