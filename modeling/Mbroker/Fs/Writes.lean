import Mbroker.Fs.Identity

/-!
# Writes stay inside the block

`tfs_write` clamps its length by a test of `to_write + of_offset`, a sum that wraps around.
When it does, or when the offset is past the block, the length stays or becomes far too
large, and the copy leaves `fs_data`; then only a full disk stops the call before the
copy.  A write of no bytes past the end of a file leaves the file as it is.

    writesInside_iff : one write is right iff it meets `WriteFits`
    writesInside_run : the writes of a run are right iff each meets `WriteFits`
-/

namespace Mbroker

open CLib CLib.Outcome

/-- A write through `h` into inode `i` of block `b`: `n` bytes from the offset on, and the size
the greater of the old one and the new offset. -/
def stored (s : Tfs) (h i b : Nat) (buffer : Nat → UInt8) (n : Nat) : Tfs :=
  if n = 0 then
    { s with
      inodeTable := s.inodeTable.set i
        { s.inodeTable.cell i with
          iSize := max (s.inodeTable.cell i).iSize (s.openFileTable.cell h).ofOffset } }
  else written s h i b buffer n

/-- A write fails and changes nothing, or stores as many bytes as the block has room for. -/
def WritesInside (s : Tfs) : Call → Prop
  | .tfsWrite fhandle buffer toWrite => ∀ h i, OpenOn s fhandle h i →
      let offset := (s.openFileTable.cell h).ofOffset
      let n := min toWrite (s.blockSize - offset)
      tfsWrite s fhandle buffer toWrite = ok (-1, s) ∨
        offset + n ≤ s.blockSize ∧ ∃ b, (0 < n → BlockFor s i b) ∧
          tfsWrite s fhandle buffer toWrite = ok ((n : Int), stored s h i b buffer n)
  | _ => True

instance (blockSize offset toWrite : Nat) : Decidable (SumFits blockSize offset toWrite) :=
  inferInstanceAs (Decidable (_ ∨ _))

/-- The offset is in the block, the sum in the test of `tfs_write` does not hide by wrap-around
that it is past it, and bytes are stored or the offset is in the file; or the test goes wrong but
the file is empty and no block is FREE. -/
def WriteFits (s : Tfs) : Call → Prop
  | .tfsWrite fhandle _ toWrite => ∀ h i, OpenOn s fhandle h i →
      let offset := (s.openFileTable.cell h).ofOffset
      if offset ≤ s.blockSize ∧ SumFits s.blockSize offset toWrite then
        0 < min toWrite (s.blockSize - offset) ∨ offset ≤ (s.inodeTable.cell i).iSize
      else (s.inodeTable.cell i).iSize = 0 ∧ ∀ b, b < s.dataBlocks → ¬ s.freeBlocks.cell b = .free
  | _ => True

/-- A length that fits the block comes from a test that went right. -/
theorem sumFits_of_clampWrite {blockSize offset toWrite : Nat}
    (hfit : offset + clampWrite blockSize offset toWrite ≤ blockSize)
    (hmin : clampWrite blockSize offset toWrite = min toWrite (blockSize - offset)) :
    offset ≤ blockSize ∧ SumFits blockSize offset toWrite := by
  refine ⟨by omega, ?_⟩
  unfold SumFits
  unfold clampWrite at hmin
  split at hmin <;> omega

/-- Storing nothing changes nothing unless the offset is past the end. -/
theorem stored_zero (s : Tfs) (h i b : Nat) (buffer : Nat → UInt8) : stored s h i b buffer 0 = s ↔
    (s.openFileTable.cell h).ofOffset ≤ (s.inodeTable.cell i).iSize := by
  constructor
  · intro he
    have hsize := congrArg (fun t : Tfs => (t.inodeTable.cell i).iSize) he
    simp only [stored, if_true, Region.set_cell_self] at hsize
    omega
  · intro ho
    have hset : s.inodeTable.set i (s.inodeTable.cell i) = s.inodeTable := Region.set_self _ _
    simp only [stored, if_true, Nat.max_eq_left ho, hset]

section
variable {s : Tfs} (hI : Inv s) {fhandle : Int} {h i : Nat} (hh : OpenOn s fhandle h i)

include hI hh

/-- A write for which the test goes right. -/
theorem writesInside_fits (buffer : Nat → UInt8) {toWrite : Nat}
    (ho : (s.openFileTable.cell h).ofOffset ≤ s.blockSize)
    (hsum : SumFits s.blockSize (s.openFileTable.cell h).ofOffset toWrite) :
    WritesInside s (.tfsWrite fhandle buffer toWrite) ↔
      0 < min toWrite (s.blockSize - (s.openFileTable.cell h).ofOffset) ∨
        (s.openFileTable.cell h).ofOffset ≤ (s.inodeTable.cell i).iSize := by
  obtain ⟨n, hn⟩ : ∃ n, n = min toWrite (s.blockSize - (s.openFileTable.cell h).ofOffset) :=
    ⟨_, rfl⟩
  rw [← hn]
  rcases tfsWrite_fits hI hh buffer ho hsum hn with ⟨hz, hzero⟩ | ⟨hpos, -, hfail⟩ |
    ⟨hpos, b, -, hb, hwrite⟩
  · -- nothing is stored: the size stays as it is
    subst hz
    rw [← stored_zero s h i 0 buffer]
    constructor
    · intro hw
      rcases hw h i hh with he | ⟨-, b, -, he⟩
      · rw [hzero] at he
        cases he
      · simp only [← hn, hzero, ok.injEq, Prod.mk.injEq] at he
        exact Or.inr he.2.symm
    · rintro (hlt | he) h' i' hh'
      · exact absurd hlt (Nat.lt_irrefl 0)
      · obtain ⟨rfl, rfl⟩ := hh.unique hh'
        simp only [← hn]
        refine Or.inr ⟨by omega, 0, fun hlt => absurd hlt (Nat.lt_irrefl 0), ?_⟩
        rw [hzero, he]
        rfl
  · exact iff_of_true (fun _ _ _ => Or.inl hfail) (Or.inl hpos)
  · refine iff_of_true (fun h' i' hh' => ?_) (Or.inl hpos)
    obtain ⟨rfl, rfl⟩ := hh.unique hh'
    simp only [← hn]
    refine Or.inr ⟨by omega, b, fun _ => hb, ?_⟩
    rw [hwrite]
    simp only [stored, if_neg (Nat.ne_of_gt hpos)]

/-- A write for which it goes wrong ends in the copy, or before it for want of a block. -/
theorem writesInside_wraps (buffer : Nat → UInt8) {toWrite : Nat}
    (hwrap : ¬ ((s.openFileTable.cell h).ofOffset ≤ s.blockSize ∧
      SumFits s.blockSize (s.openFileTable.cell h).ofOffset toWrite)) :
    WritesInside s (.tfsWrite fhandle buffer toWrite) ↔ (s.inodeTable.cell i).iSize = 0 ∧
      ∀ b, b < s.dataBlocks → ¬ s.freeBlocks.cell b = .free := by
  have hpos := clampWrite_pos hI.blockSize_lt (hI.offsetLt h hh.1.2.1 hh.1.2.2) hwrap
  rcases write_block_or_none hI hh with ⟨b, hb, hnew, hold⟩ | ⟨hz, hfull⟩
  · have hfault : tfsWrite s fhandle buffer toWrite = fault := by
      rw [tfsWrite_block hI hh buffer toWrite hpos hb.2 hnew hold]
      simp only
      rw [if_neg]
      intro hin
      have hfit := clampWrite_fit (hI.offsetLt h hh.1.2.1 hh.1.2.2) hI.sane.bytes
        (blockEnd_le hb.2) hpos hin
      exact hwrap (sumFits_of_clampWrite hfit.1 hfit.2)
    constructor
    · intro hw
      rcases hw h i hh with he | ⟨-, b', -, he⟩
      · rw [hfault] at he; cases he
      · rw [hfault] at he; cases he
    · rintro ⟨hz, hfull⟩
      exact absurd (hnew hz).2.1 (hfull b hb.2)
  · refine iff_of_true (fun h' i' hh' => ?_) ⟨hz, hfull⟩
    obtain ⟨rfl, rfl⟩ := hh.unique hh'
    exact Or.inl (tfsWrite_noBlock hI hh buffer toWrite hpos hz hfull)

end

theorem writesInside_iff {s : Tfs} (hI : Inv s) (c : Call) : WritesInside s c ↔ WriteFits s c := by
  cases c with
  | tfsWrite fhandle buffer toWrite =>
    by_cases hex : ∃ h, Handle s fhandle h
    swap
    · exact iff_of_true (fun h i hh => absurd ⟨h, hh.1⟩ hex) (fun h i hh => absurd ⟨h, hh.1⟩ hex)
    obtain ⟨h, hh⟩ := hex
    obtain ⟨i, hh⟩ := hI.handle_openOn hh
    have hone : WriteFits s (.tfsWrite fhandle buffer toWrite) ↔
        if (s.openFileTable.cell h).ofOffset ≤ s.blockSize ∧
            SumFits s.blockSize (s.openFileTable.cell h).ofOffset toWrite then
          0 < min toWrite (s.blockSize - (s.openFileTable.cell h).ofOffset) ∨
            (s.openFileTable.cell h).ofOffset ≤ (s.inodeTable.cell i).iSize
        else (s.inodeTable.cell i).iSize = 0 ∧
          ∀ b, b < s.dataBlocks → ¬ s.freeBlocks.cell b = .free := by
      constructor
      · exact fun hw => hw h i hh
      · intro hw h' i' hh'
        obtain ⟨rfl, rfl⟩ := hh.unique hh'
        exact hw
    rw [hone]
    split
    · next hfit => exact writesInside_fits hI hh buffer hfit.1 hfit.2
    · next hwrap => exact writesInside_wraps hI hh buffer hwrap
  | _ => exact Iff.rfl

/-! ## Runs -/

theorem writesInside_run {s₀ s₁ : Tfs} {m : Mallocs} {p : Option TfsParams}
    (hp : GoodParams (p.getD tfsDefaultParams)) (hinit : tfsInit s₀ m p = ok (0, s₁))
    (cs : List Call) : Allowed exec WritesInside s₁ cs ↔ Allowed exec WriteFits s₁ cs :=
  allowed_iff (fun _ _ _ _ hI h => exec_inv hI h) (fun _ c hI => writesInside_iff hI c)
    (tfsInit_initial hp hinit).1.inv

theorem writesInside_run_stale :
    Allowed exec WritesInside smallDisk staleCalls ↔ Allowed exec WriteFits smallDisk staleCalls :=
  writesInside_run (p := some smallParams) smallParams_good smallDisk_init staleCalls

/-- Five bytes into `/a`, through handle 0. -/
def fiveBytes : List Call :=
  [.tfsOpen (some pathA) tfsOCreat, .tfsWrite 0 (fun k => UInt8.ofNat k) 5]

/-- At offset 5 the sum `(2 ^ 64 - 1) + 5` is 4, and the copy of `2 ^ 64 - 1` bytes is made. -/
theorem not_writesInside :
    ¬ ∀ (s₀ s₁ s : Tfs) (m : Mallocs) (p : Option TfsParams) (cs : List Call) (rs : List Ret)
      (fhandle : Int) (buffer : Nat → UInt8) (toWrite : Nat),
      GoodParams (p.getD tfsDefaultParams) → tfsInit s₀ m p = ok (0, s₁) →
      run exec s₁ cs = ok (rs, s) → toWrite < 2 ^ 64 →
      WritesInside s (.tfsWrite fhandle buffer toWrite) := by
  intro hall
  have hw := hall .zero smallDisk _ zeroMallocs (some smallParams) fiveBytes _ 0 (fun _ => 0)
    (2 ^ 64 - 1) smallParams_good smallDisk_init (run_eq_answers (by decide +kernel)) (by omega)
  have hnone : (tfsWrite (stateAfter smallDisk fiveBytes) 0 (fun _ => 0) (2 ^ 64 - 1)).isOk =
      false := by decide +kernel
  rcases hw 0 1 ⟨⟨by decide +kernel, by decide +kernel, by decide +kernel⟩, by decide +kernel⟩ with
    he | ⟨-, b, -, he⟩
  · rw [he] at hnone
    cases hnone
  · rw [he] at hnone
    cases hnone

end Mbroker
