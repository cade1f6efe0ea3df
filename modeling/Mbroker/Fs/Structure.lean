import Mbroker.Fs.Init

/-!
# The structure of the file system over unrestricted runs

`Structural s` is the directory, the inode table and the block table seen together,
without the stale handles that `Inv` also speaks about.

    structural_of_inv : Inv s → Structural s
    structural_run    : every state that a run from a successful `tfs_init` reaches
-/

namespace Mbroker

open CLib CLib.Outcome

/-- Inode `i` is TAKEN. -/
def TakenInode (s : Tfs) (i : Nat) : Prop :=
  i < s.inodeTableSize ∧ s.freeinodeTs.cell i = .taken

/-- Inode `i` is TAKEN and not empty. -/
def NonEmpty (s : Tfs) (i : Nat) : Prop := TakenInode s i ∧ 0 < (s.inodeTable.cell i).iSize

structure Structural (s : Tfs) : Prop where
  rootTaken : TakenInode s 0
  rootDirectory : (s.inodeTable.cell 0).iNodeType = .tDirectory
  rootBlock : (s.inodeTable.cell 0).iDataBlock = 0 ∧ 0 < s.dataBlocks ∧
    s.freeBlocks.cell 0 = .taken
  /-- The NUL of a live entry's name lies within its 40 bytes. -/
  names : ∀ j, j < s.maxDirEntries → Live s.fsData 0 j →
    1 ≤ (slotName s.fsData 0 j).length ∧ (slotName s.fsData 0 j).length ≤ 39
  distinct : ∀ j k, j < s.maxDirEntries → k < s.maxDirEntries → Live s.fsData 0 j →
    Live s.fsData 0 k → j ≠ k → slotName s.fsData 0 j ≠ slotName s.fsData 0 k ∧
      slotInum s.fsData 0 j ≠ slotInum s.fsData 0 k
  inodes : ∀ i : Nat, TakenInode s i ∧ i ≠ 0 ↔
    ∃ j, j < s.maxDirEntries ∧ Live s.fsData 0 j ∧ slotInum s.fsData 0 j = (i : Int)
  inums : ∀ j, j < s.maxDirEntries → Live s.fsData 0 j → 0 ≤ slotInum s.fsData 0 j
  files : ∀ i, TakenInode s i → i ≠ 0 → (s.inodeTable.cell i).iNodeType = .tFile
  blocks : ∀ i, NonEmpty s i → (s.inodeTable.cell i).iSize ≤ s.blockSize ∧
    ∃ b : Nat, (s.inodeTable.cell i).iDataBlock = b ∧ b < s.dataBlocks ∧
      s.freeBlocks.cell b = .taken
  disjoint : ∀ i k, NonEmpty s i → NonEmpty s k → i ≠ k →
    (s.inodeTable.cell i).iDataBlock ≠ (s.inodeTable.cell k).iDataBlock

section
variable {s : Tfs} (hI : Inv s)

include hI

/-- The block of an inode that is not empty; the root has block 0, a file another one. -/
theorem Inv.nonEmpty_block {i : Nat} (h : NonEmpty s i) :
    ∃ b : Nat, (s.inodeTable.cell i).iDataBlock = b ∧ b < s.dataBlocks ∧
      s.freeBlocks.cell b = .taken ∧ (b = 0 ↔ i = 0) := by
  obtain ⟨⟨hlt, ht⟩, hz⟩ := h
  by_cases hi : i = 0
  · subst hi
    exact ⟨0, by rw [hI.root.inode]; rfl, hI.root.blockPos, hI.rootBlock, by simp⟩
  · have hf : FileIndex s i := ⟨by omega, hlt⟩
    obtain ⟨b, hb, hb0, hblt⟩ := (hI.file i hf ht).block hz
    have ho := hI.owned i hf ht hz
    rw [hb, Int.toNat_natCast] at ho
    exact ⟨b, hb, hblt, ho, by omega⟩

theorem Inv.nonEmpty_inj {i k : Nat} (hi : NonEmpty s i) (hk : NonEmpty s k)
    (he : (s.inodeTable.cell i).iDataBlock = (s.inodeTable.cell k).iDataBlock) : i = k := by
  obtain ⟨b, hb, -, -, hb0⟩ := hI.nonEmpty_block hi
  obtain ⟨c, hc, -, -, hc0⟩ := hI.nonEmpty_block hk
  have hbc : b = c := by omega
  by_contra hne
  by_cases hi0 : i = 0
  · omega
  · exact hI.uniq i k ⟨by omega, hi.1.1⟩ ⟨by omega, hk.1.1⟩ hne hi.1.2 hk.1.2 hi.2 hk.2 he

theorem structural_of_inv : Structural s where
  rootTaken := ⟨hI.root.inodePos, hI.rootTaken⟩
  rootDirectory := by rw [hI.root.inode]
  rootBlock := ⟨by rw [hI.root.inode], hI.root.blockPos, hI.rootBlock⟩
  names := hI.root.dir.nameLen
  distinct j k hj hk hlj hlk hne :=
    ⟨fun he => hne (hI.root.dir.names j k hj hk hlj hlk he),
      fun he => hne (hI.inums j k hj hk hlj he)⟩
  inodes i := by
    constructor
    · rintro ⟨h, hi⟩
      obtain ⟨j, hj, he⟩ := hI.takenLive i ⟨by omega, h.1⟩ h.2
      exact ⟨j, hj, by unfold Live; omega, he⟩
    · rintro ⟨j, hj, hl, he⟩
      obtain ⟨k, hk, hf, ht⟩ := hI.liveInode j hj hl
      have : i = k := by omega
      subst this
      exact ⟨⟨hf.2, ht⟩, by have := hf.1; omega⟩
  inums j hj hl := by
    obtain ⟨k, hk, -⟩ := hI.liveInode j hj hl
    omega
  files i h hi := (hI.file i ⟨by omega, h.1⟩ h.2).type
  blocks i h := by
    obtain ⟨b, hb, hlt, ht, -⟩ := hI.nonEmpty_block h
    refine ⟨?_, b, hb, hlt, ht⟩
    by_cases hi : i = 0
    · rw [hi, hI.root.inode]
    · exact hI.sizeLe ⟨by omega, h.1.1⟩ h.1.2
  disjoint i k hi hk hne he := hne (hI.nonEmpty_inj hi hk he)

end

/-- Also when a file is unlinked or truncated while it is open. -/
theorem structural_run {s₀ s₁ s : Tfs} {m : Mallocs} {p : Option TfsParams} {cs : List Call}
    {rs : List Ret} (hp : GoodParams (p.getD tfsDefaultParams))
    (hinit : tfsInit s₀ m p = ok (0, s₁)) (hrun : run exec s₁ cs = ok (rs, s)) :
    Structural s := by
  have hI := (tfsInit_initial hp hinit).1.inv
  exact structural_of_inv (run_exec_inv hI hrun)

def pathA : CStr := ⟨[47, 97], by simp⟩ -- "/a"
def pathB : CStr := ⟨[47, 98], by simp⟩ -- "/b"

/-- Five bytes into `/a`, which is unlinked while it is open, and a new file in its place. -/
def staleCalls : List Call :=
  [.tfsOpen (some pathA) tfsOCreat, .tfsWrite 0 (fun k => UInt8.ofNat k) 5,
    .tfsUnlink (some pathA), .tfsOpen (some pathB) tfsOCreat]

theorem structural_run_stale : Structural (stateAfter smallDisk staleCalls) :=
  structural_run (p := some smallParams) smallParams_good smallDisk_init
    (run_eq_answers (by decide +kernel))

end Mbroker
