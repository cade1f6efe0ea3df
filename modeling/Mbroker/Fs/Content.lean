import Mbroker.Fs.Conservation

/-!
# The content of files

`fileBytes s i` is the content of inode `i`.  A write changes the content of its own
inode only, and that as an abstract write into a list of bytes does:

    fileBytes (written s h i b buffer n) i =
      overwrite (fileBytes s i) offset (buffer[0], …, buffer[n-1])

and a read at an offset inside the file delivers the bytes from there on (tfsRead_within).
-/

namespace Mbroker

open CLib CLib.Outcome

def fileBytes (s : Tfs) (i : Nat) : List UInt8 :=
  s.fsData.cells ((s.inodeTable.cell i).iDataBlock.toNat * s.blockSize) (s.inodeTable.cell i).iSize

section
variable {s : Tfs}

@[simp] theorem fileBytes_length (i : Nat) :
    (fileBytes s i).length = (s.inodeTable.cell i).iSize :=
  Region.cells_length _ _ _

theorem fileBytes_empty {i : Nat} (h : (s.inodeTable.cell i).iSize = 0) : fileBytes s i = [] := by
  unfold fileBytes
  rw [h]
  rfl

/-- What a read inside the content delivers. -/
theorem cells_eq_slice {i b offset n len : Nat} (hb : (s.inodeTable.cell i).iDataBlock = b)
    (hn : n = min len ((s.inodeTable.cell i).iSize - offset)) :
    s.fsData.cells (b * s.blockSize + offset) n = ((fileBytes s i).drop offset).take len := by
  unfold fileBytes
  rw [hb, Int.toNat_natCast, Region.cells_drop, Region.cells_take, hn]

/-- The bytes of one block, and those of another. -/
theorem block_disjoint {b c size : Nat} (h : b ≠ c) :
    b * size + size ≤ c * size ∨ c * size + size ≤ b * size := by
  rcases Nat.lt_or_gt_of_ne h with hlt | hlt
  · have := Nat.mul_le_mul_right size (Nat.succ_le_of_lt hlt)
    rw [Nat.succ_mul] at this
    exact Or.inl this
  · have := Nat.mul_le_mul_right size (Nat.succ_le_of_lt hlt)
    rw [Nat.succ_mul] at this
    exact Or.inr this

/-- The content only reads the inode and its bytes. -/
theorem fileBytes_congr {s' : Tfs} {i : Nat} (hb : s'.blockSize = s.blockSize)
    (hi : s'.inodeTable.cell i = s.inodeTable.cell i)
    (hd : ∀ k, k < (s.inodeTable.cell i).iSize →
      s'.fsData.cell ((s.inodeTable.cell i).iDataBlock.toNat * s.blockSize + k) =
        s.fsData.cell ((s.inodeTable.cell i).iDataBlock.toNat * s.blockSize + k)) :
    fileBytes s' i = fileBytes s i := by
  unfold fileBytes
  rw [hb, hi]
  exact Region.cells_congr hd

/-! ## The directory block -/

theorem addEntry_behind {s : Tfs} {j : Nat} (hj : j < s.maxDirEntries) (name : CStr) (v : Int)
    {x : Nat} (hx : s.blockSize ≤ x) : (addEntry s.fsData 0 j name v).cell x = s.fsData.cell x := by
  have := rootEntries_le s
  refine addEntry_cell_out (Or.inr ?_)
  simp only [dName, sizeofDirEntry] at this ⊢
  omega

theorem clearEntry_behind {s : Tfs} {j : Nat} (hj : j < s.maxDirEntries) {x : Nat}
    (hx : s.blockSize ≤ x) : (clearEntry s.fsData 0 j).cell x = s.fsData.cell x := by
  have := rootEntries_le s
  refine clearEntry_cell_out (Or.inr ?_)
  simp only [dName, sizeofDirEntry] at this ⊢
  omega

/-- A write to a block other than the root's leaves the entries alone. -/
theorem slot_written {h i b n j : Nat} (buffer : Nat → UInt8) (hb : 0 < b)
    (hj : j < s.maxDirEntries) :
    slotInum (written s h i b buffer n).fsData 0 j = slotInum s.fsData 0 j ∧
      slotName (written s h i b buffer n).fsData 0 j = slotName s.fsData 0 j := by
  have h1 := rootEntries_le s
  have h2 := Nat.le_mul_of_pos_left s.blockSize hb
  exact slot_put_out _ hj (by omega)

/-! ## Content under the updates -/

theorem fileBytes_inodeReset {i k : Nat} (hk : k ≠ i) :
    fileBytes (inodeReset s i) k = fileBytes s k :=
  fileBytes_congr rfl (Region.set_cell_ne _ _ hk) (fun _ _ => rfl)

/-- A positive size keeps the content behind the directory block. -/
theorem content_behind {k x : Nat} (hok : FileOk s.fsParams (s.inodeTable.cell k))
    (hx : x < (s.inodeTable.cell k).iSize) :
    s.blockSize ≤ (s.inodeTable.cell k).iDataBlock.toNat * s.blockSize + x := by
  obtain ⟨b, hb, hb0, -⟩ := hok.block (by omega)
  rw [hb, Int.toNat_natCast]
  have := Nat.le_mul_of_pos_left s.blockSize hb0
  omega

theorem fileBytes_created {i j k : Nat} {name : CStr} (hj : j < s.maxDirEntries) (hk : k ≠ i)
    (hok : FileOk s.fsParams (s.inodeTable.cell k)) :
    fileBytes (created s i j name) k = fileBytes s k :=
  fileBytes_congr rfl (Region.set_cell_ne _ _ hk)
    (fun _ hx => addEntry_behind hj name i (content_behind hok hx))

theorem fileBytes_created_self (i j : Nat) (name : CStr) :
    fileBytes (created s i j name) i = [] :=
  fileBytes_empty (by simp [created, inodeCreated])

theorem fileBytes_unlinked {i j k : Nat} (hj : j < s.maxDirEntries)
    (hok : FileOk s.fsParams (s.inodeTable.cell k)) :
    fileBytes (unlinked s i j) k = fileBytes s k :=
  fileBytes_congr rfl rfl (fun _ hx => clearEntry_behind hj (content_behind hok hx))

theorem fileBytes_written {h i b n k : Nat} (buffer : Nat → UInt8) (hk : k ≠ i)
    (hfit : (s.openFileTable.cell h).ofOffset + n ≤ s.blockSize)
    (hsize : (s.inodeTable.cell k).iSize ≤ s.blockSize)
    (hb : 0 < (s.inodeTable.cell k).iSize → (s.inodeTable.cell k).iDataBlock.toNat ≠ b) :
    fileBytes (written s h i b buffer n) k = fileBytes s k := by
  refine fileBytes_congr rfl (Region.set_cell_ne _ _ hk) (fun x hx => ?_)
  have hne := hb (by omega)
  generalize (s.inodeTable.cell k).iDataBlock.toNat = c at hne
  refine Region.put_cell_out _ _ ?_
  rcases @block_disjoint _ _ s.blockSize hne with h | h <;> omega

/-- The content of the written inode, when the write leaves no hole. -/
theorem fileBytes_written_self {h i b n : Nat} (buffer : Nat → UInt8)
    (hoff : (s.openFileTable.cell h).ofOffset ≤ (s.inodeTable.cell i).iSize)
    (hold : 0 < (s.inodeTable.cell i).iSize → (s.inodeTable.cell i).iDataBlock = b) :
    fileBytes (written s h i b buffer n) i =
      overwrite (fileBytes s i) (s.openFileTable.cell h).ofOffset ((List.range n).map buffer) := by
  have hold' : fileBytes s i = s.fsData.cells (b * s.blockSize) (s.inodeTable.cell i).iSize := by
    rcases Nat.eq_zero_or_pos (s.inodeTable.cell i).iSize with hz | hz
    · rw [fileBytes_empty hz, hz]; rfl
    · unfold fileBytes
      rw [hold hz, Int.toNat_natCast]
  rw [hold', ← Region.cells_put_overwrite _ _ hoff]
  unfold fileBytes
  simp only [written, Region.set_cell_self, Int.toNat_natCast, Tfs.blockSize]

theorem slice_length (i offset len : Nat) :
    (((fileBytes s i).drop offset).take len).length =
      min len ((s.inodeTable.cell i).iSize - offset) := by
  rw [List.length_take, List.length_drop, fileBytes_length]

/-- A read of nothing changes nothing. -/
theorem readAdvanced_zero (h : Nat) : readAdvanced s h 0 = s := by
  have hset : s.openFileTable.set h (s.openFileTable.cell h) = s.openFileTable :=
    Region.set_self _ _
  simp only [readAdvanced, Nat.add_zero, hset]

/-- A block behind the root's leaves room for signed sizes. -/
theorem Inv.blockSize_signed (hI : Inv s) {b : Nat} (hb : 0 < b ∧ b < s.dataBlocks) :
    s.blockSize < 2 ^ 63 := by
  have h1 := hI.sane.bytes
  have h2 := blockEnd_le hb.2
  have h3 := Nat.le_mul_of_pos_left s.blockSize hb.1
  omega

/-- Block `b` is that of inode `i`, or a FREE one for an empty file. -/
def BlockFor (s : Tfs) (i b : Nat) : Prop :=
  b < s.dataBlocks ∧ ((s.inodeTable.cell i).iSize = 0 → s.freeBlocks.cell b = .free) ∧
    (0 < (s.inodeTable.cell i).iSize → (s.inodeTable.cell i).iDataBlock = b)

/-- The file of inode `i` is empty, and no block is FREE. -/
def NoBlock (s : Tfs) (i : Nat) : Prop :=
  (s.inodeTable.cell i).iSize = 0 ∧ ∀ b, b < s.dataBlocks → ¬ s.freeBlocks.cell b = .free

section
variable (hI : Inv s) {fhandle : Int} {h i : Nat} (hh : OpenOn s fhandle h i)

include hI hh

theorem Inv.openOn_sizeLe : (s.inodeTable.cell i).iSize ≤ s.blockSize :=
  (hI.openOn_file hh).2.sizeLe

theorem Inv.clampRead_openOn (len : Nat)
    (ho : (s.openFileTable.cell h).ofOffset ≤ (s.inodeTable.cell i).iSize) :
    clampRead (s.inodeTable.cell i).iSize (s.openFileTable.cell h).ofOffset len =
      min len ((s.inodeTable.cell i).iSize - (s.openFileTable.cell h).ofOffset) :=
  clampRead_of_le (Nat.lt_of_le_of_lt (hI.openOn_sizeLe hh) hI.blockSize_lt) ho

/-- A read at an offset inside the file delivers the bytes from there on, and moves the offset. -/
theorem tfsRead_within (len : Nat)
    (ho : (s.openFileTable.cell h).ofOffset ≤ (s.inodeTable.cell i).iSize) :
    let offset := (s.openFileTable.cell h).ofOffset
    let n := min len ((s.inodeTable.cell i).iSize - offset)
    tfsRead s fhandle len = ok ((n : Int), ((fileBytes s i).drop offset).take n,
      readAdvanced s h n) := by
  have hsize := hI.openOn_sizeLe hh
  have hclamp := hI.clampRead_openOn hh len ho
  obtain ⟨n, hmin⟩ : ∃ n, n = min len
    ((s.inodeTable.cell i).iSize - (s.openFileTable.cell h).ofOffset) := ⟨_, rfl⟩
  rw [← hmin] at hclamp
  simp only [← hmin]
  rcases Nat.eq_zero_or_pos n with rfl | hn
  · rw [tfsRead_zero hI hh len hclamp, readAdvanced_zero]
    rfl
  · obtain ⟨b, hb, hpos, hlt⟩ := (hI.openOn_file hh).2.block (by omega)
    have hend := blockEnd_le (s := s) hlt
    have hbs := hI.blockSize_signed ⟨hpos, hlt⟩
    have hslice : s.fsData.cells (b * s.blockSize + (s.openFileTable.cell h).ofOffset) n =
        ((fileBytes s i).drop (s.openFileTable.cell h).ofOffset).take n :=
      cells_eq_slice hb (by omega)
    rw [tfsRead_block hI hh len (by omega) ⟨hb, hlt⟩, hclamp]
    simp only
    rw [if_pos (by omega), castSsize_of_lt (by omega), hslice]

/-- As `tfsRead_within`, also for a read of nothing past the end. -/
theorem tfsRead_slice {len : Nat} {bytes : List UInt8}
    (ho : len = 0 ∨ (s.openFileTable.cell h).ofOffset ≤ (s.inodeTable.cell i).iSize)
    (hbytes : bytes = ((fileBytes s i).drop (s.openFileTable.cell h).ofOffset).take len) :
    tfsRead s fhandle len = ok ((bytes.length : Int), bytes, readAdvanced s h bytes.length) := by
  rcases ho with rfl | ho
  · rw [List.take_zero] at hbytes
    subst hbytes
    rw [tfsRead_zero hI hh 0 (Nat.le_zero.mp (clampRead_le _ _ 0)), List.length_nil,
      readAdvanced_zero]
    rfl
  · have hlen := slice_length (s := s) i (s.openFileTable.cell h).ofOffset len
    have hread := tfsRead_within hI hh len ho
    simp only at hread
    rw [← hlen, List.length_take, ← List.take_eq_take_min, ← List.length_take, ← hbytes] at hread
    exact hread

/-- A write whose test goes right returns with as many bytes as the block has room for. -/
theorem tfsWrite_fits (buffer : Nat → UInt8) {toWrite n : Nat}
    (ho : (s.openFileTable.cell h).ofOffset ≤ s.blockSize)
    (hsum : SumFits s.blockSize (s.openFileTable.cell h).ofOffset toWrite)
    (hn : n = min toWrite (s.blockSize - (s.openFileTable.cell h).ofOffset)) :
    (n = 0 ∧ tfsWrite s fhandle buffer toWrite = ok (0, s)) ∨
      (0 < n ∧ NoBlock s i ∧ tfsWrite s fhandle buffer toWrite = ok (-1, s)) ∨
      (0 < n ∧ ∃ b, 0 < b ∧ BlockFor s i b ∧
        tfsWrite s fhandle buffer toWrite = ok ((n : Int), written s h i b buffer n)) := by
  have hclamp := clampWrite_of_sumFits hI.blockSize_lt ho hsum
  rw [← hn] at hclamp
  rcases Nat.eq_zero_or_pos n with hz | hpos
  · exact Or.inl ⟨hz, tfsWrite_zero hI hh buffer toWrite (by omega)⟩
  · rcases write_block_or_none hI hh with ⟨b, hb, hnew, hold⟩ | ⟨hempty, hnone⟩
    · have hend := blockEnd_le (s := s) hb.2
      have hbs := hI.blockSize_signed hb
      refine Or.inr (Or.inr ⟨hpos, b, hb.1, ⟨hb.2, fun hz => (hnew hz).2.1, hold⟩, ?_⟩)
      rw [tfsWrite_block hI hh buffer toWrite (by omega) hb.2 hnew hold, hclamp]
      simp only
      rw [if_pos (by omega), castSsize_of_lt (by omega)]
    · exact Or.inr (Or.inl ⟨hpos, ⟨hempty, hnone⟩,
        tfsWrite_noBlock hI hh buffer toWrite (by omega) hempty hnone⟩)

/-- A write that starts in the block returns. -/
theorem tfsWrite_returns (buffer : Nat → UInt8) {toWrite : Nat}
    (ho : (s.openFileTable.cell h).ofOffset ≤ s.blockSize)
    (hsum : SumFits s.blockSize (s.openFileTable.cell h).ofOffset toWrite) :
    ∃ v t, tfsWrite s fhandle buffer toWrite = ok (v, t) := by
  rcases tfsWrite_fits hI hh buffer ho hsum rfl with ⟨-, h⟩ | ⟨-, -, h⟩ | ⟨-, b, -, -, h⟩
  · exact ⟨_, _, h⟩
  · exact ⟨_, _, h⟩
  · exact ⟨_, _, h⟩

end

end

end Mbroker
