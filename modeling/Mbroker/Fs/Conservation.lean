import Mbroker.Fs.NoPanic

/-!
# Block conservation

A TAKEN block is that of a TAKEN inode that is not empty, unless it leaked.  The one
step that leaks a block is a write through a handle whose inode is FREE and empty:
`tfs_write` allocates a block for it as for any empty file, and the next
`inode_create` that takes the inode forgets it.

    noLeak_exec      : NoLeak s → exec s c = ok (r, s') → (NoLeak s' ↔ ¬ LeakWrite s c)
    conserved_run    : every state of a run is `Conserved` iff no call is a `LeakWrite`
-/

namespace Mbroker

open CLib CLib.Outcome

/-- Block `b` is that of inode `i`. -/
def Owns (s : Tfs) (i b : Nat) : Prop :=
  NonEmpty s i ∧ (s.inodeTable.cell i).iDataBlock = (b : Int)

def NoLeak (s : Tfs) : Prop :=
  ∀ b, b < s.dataBlocks → s.freeBlocks.cell b = .taken → ∃ i, Owns s i b

def freeBlockCount (s : Tfs) : Nat :=
  Nat.count (fun b => s.freeBlocks.cell b = .free) s.dataBlocks

instance (s : Tfs) : DecidablePred (NonEmpty s) := fun i =>
  inferInstanceAs (Decidable ((i < s.inodeTableSize ∧ s.freeinodeTs.cell i = .taken) ∧ _))

def nonEmptyCount (s : Tfs) : Nat := Nat.count (NonEmpty s) s.inodeTableSize

structure Conserved (s : Tfs) : Prop where
  owner : ∀ b, b < s.dataBlocks → s.freeBlocks.cell b = .taken → ∃! i, Owns s i b
  count : freeBlockCount s = s.dataBlocks - nonEmptyCount s

/-- A write that gets a block for an inode that is FREE. -/
def LeakWrite (s : Tfs) : Call → Prop
  | .tfsWrite fhandle _ toWrite => ∃ h i, OpenOn s fhandle h i ∧ s.freeinodeTs.cell i = .free ∧
      (s.inodeTable.cell i).iSize = 0 ∧ 0 < toWrite ∧
      (s.openFileTable.cell h).ofOffset < s.blockSize ∧
      SumFits s.blockSize (s.openFileTable.cell h).ofOffset toWrite ∧
      ∃ b, b < s.dataBlocks ∧ s.freeBlocks.cell b = .free
  | _ => False

section
variable {s : Tfs}

theorem not_free_iff {a : AllocationState} : ¬ a = .free ↔ a = .taken := by
  cases a <;> simp

/-! ## Ownership under the updates -/

/-- `Owns` reads the TAKEN inodes only. -/
theorem owns_congr (s s' : Tfs) (hsize : s'.inodeTableSize = s.inodeTableSize)
    (ht : ∀ i, s'.freeinodeTs.cell i = .taken ∧ 0 < (s'.inodeTable.cell i).iSize ↔
      s.freeinodeTs.cell i = .taken ∧ 0 < (s.inodeTable.cell i).iSize)
    (hb : ∀ i, s.freeinodeTs.cell i = .taken → 0 < (s.inodeTable.cell i).iSize →
      (s'.inodeTable.cell i).iDataBlock = (s.inodeTable.cell i).iDataBlock) (i b : Nat) :
    Owns s' i b ↔ Owns s i b := by
  constructor
  · rintro ⟨⟨⟨hlt, h1⟩, h2⟩, h3⟩
    obtain ⟨h1', h2'⟩ := (ht i).mp ⟨h1, h2⟩
    exact ⟨⟨⟨by rwa [hsize] at hlt, h1'⟩, h2'⟩, by rw [← hb i h1' h2']; exact h3⟩
  · rintro ⟨⟨⟨hlt, h1⟩, h2⟩, h3⟩
    obtain ⟨h1', h2'⟩ := (ht i).mpr ⟨h1, h2⟩
    exact ⟨⟨⟨by rwa [hsize], h1'⟩, h2'⟩, by rw [hb i h1 h2]; exact h3⟩

theorem owns_inodeReset {i : Nat} (hi : s.freeinodeTs.cell i = .free) (k b : Nat) :
    Owns (inodeReset s i) k b ↔ Owns s k b := by
  have hcell : ∀ k, s.freeinodeTs.cell k = .taken →
      (inodeReset s i).inodeTable.cell k = s.inodeTable.cell k := by
    intro k hk
    refine Region.set_cell_ne _ _ (fun e => ?_)
    rw [e, hi] at hk
    cases hk
  refine owns_congr s (inodeReset s i) rfl (fun k => and_congr_right fun hk => ?_)
    (fun k hk _ => ?_) k b
  · rw [hcell k hk]
  · rw [hcell k hk]

theorem owns_created {i j : Nat} {name : CStr} (hi : s.freeinodeTs.cell i = .free) (k b : Nat) :
    Owns (created s i j name) k b ↔ Owns s k b := by
  refine owns_congr s (created s i j name) rfl (fun k => ?_) (fun k hk _ => ?_) k b
  · by_cases hki : k = i
    · subst hki
      simp [created, inodeCreated, hi]
    · simp only [created, inodeCreated, Region.set_cell_ne _ _ hki]
  · have hki : k ≠ i := fun e => by rw [e, hi] at hk; cases hk
    simp only [created, inodeCreated, Region.set_cell_ne _ _ hki]

theorem noLeak_of_owns {s' : Tfs} (hl : NoLeak s) (hn : s'.dataBlocks = s.dataBlocks)
    (ht : s'.freeBlocks = s.freeBlocks) (ho : ∀ i b, Owns s' i b ↔ Owns s i b) : NoLeak s' := by
  intro b hb htb
  obtain ⟨i, hi⟩ := hl b (by rw [← hn]; exact hb) (by rw [← ht]; exact htb)
  exact ⟨i, (ho i b).mpr hi⟩

section
variable (hI : Inv s) (hl : NoLeak s)

include hI hl

/-- A block that goes to FREE together with its inode's ownership. -/
theorem noLeak_blockFreed {s' : Tfs} {i : Nat} (hi : NonEmpty s i)
    (hn : s'.dataBlocks = s.dataBlocks)
    (ht : s'.freeBlocks = s.freeBlocks.set (s.inodeTable.cell i).iDataBlock.toNat .free)
    (ho : ∀ k b, k ≠ i → (Owns s' k b ↔ Owns s k b)) : NoLeak s' := by
  obtain ⟨c, hc, hclt, -, -⟩ := hI.nonEmpty_block hi
  rw [hc, Int.toNat_natCast] at ht
  intro b hb htb
  rw [ht] at htb
  have hbc : b ≠ c := fun e => by rw [e, Region.set_cell_self] at htb; cases htb
  rw [Region.set_cell_ne _ _ hbc] at htb
  obtain ⟨k, hk⟩ := hl b (by rw [← hn]; exact hb) htb
  have hki : k ≠ i := fun e => by
    have := hk.2
    rw [e, hc] at this
    omega
  exact ⟨k, (ho k b hki).mpr hk⟩

theorem noLeak_truncated {i : Nat} (hf : FileIndex s i) (ht : s.freeinodeTs.cell i = .taken) :
    NoLeak (truncated s i) := by
  unfold truncated
  split
  · next hz =>
    refine noLeak_blockFreed hI hl (i := i) ⟨⟨hf.2, ht⟩, hz⟩ rfl rfl (fun k b hk => ?_)
    unfold Owns NonEmpty
    simp only [Region.set_cell_ne _ _ hk]
    exact Iff.rfl
  · exact hl

theorem noLeak_unlinked {name : CStr} {i j : Nat} (hn : Named s name j i) :
    NoLeak (unlinked s i j) := by
  obtain ⟨hf, ht⟩ := hI.named_file hn
  have ho : ∀ k b, k ≠ i → (Owns (unlinked s i j) k b ↔ Owns s k b) := by
    intro k b hk
    unfold Owns NonEmpty TakenInode
    simp only [unlinked, inodeFreed, Region.set_cell_ne _ _ hk]
    exact Iff.rfl
  by_cases hz : 0 < (s.inodeTable.cell i).iSize
  · exact noLeak_blockFreed hI hl ⟨⟨hf.2, ht⟩, hz⟩ rfl
      (by simp only [unlinked, inodeFreed, hz, if_true]) ho
  · intro b hb htb
    simp only [unlinked, inodeFreed, hz, if_false] at htb
    obtain ⟨k, hk⟩ := hl b hb htb
    exact ⟨k, (ho k b (fun e => hz (e ▸ hk.1.2))).mpr hk⟩

/-- Which writes leak their block. -/
theorem noLeak_written {h i b n : Nat} (buffer : Nat → UInt8) (hi : i < s.inodeTableSize)
    (hn : 0 < n) (hb : b < s.dataBlocks)
    (hnew : (s.inodeTable.cell i).iSize = 0 → s.freeBlocks.cell b = .free)
    (hold : 0 < (s.inodeTable.cell i).iSize → (s.inodeTable.cell i).iDataBlock = b) :
    NoLeak (written s h i b buffer n) ↔
      ¬ (s.freeinodeTs.cell i = .free ∧ (s.inodeTable.cell i).iSize = 0) := by
  have ho : ∀ k c, k ≠ i → (Owns (written s h i b buffer n) k c ↔ Owns s k c) := by
    intro k c hk
    unfold Owns NonEmpty
    simp only [written, Region.set_cell_ne _ _ hk]
    exact Iff.rfl
  by_cases hz : (s.inodeTable.cell i).iSize = 0
  · have hfree : (written s h i b buffer n).freeBlocks = s.freeBlocks.set b .taken := if_pos hz
    have hnot : ∀ c, ¬ Owns s i c := fun c hc => by have := hc.1.2; omega
    simp only [hz, and_true]
    constructor
    · intro hl' hfi
      obtain ⟨k, hk⟩ := hl' b hb (by rw [hfree]; exact Region.set_cell_self _ _ _)
      by_cases hki : k = i
      · subst hki
        have ht : s.freeinodeTs.cell k = .taken := hk.1.1.2
        rw [hfi] at ht
        cases ht
      · -- then `b` was owned before, but it was FREE
        have hk' := (ho k b hki).mp hk
        obtain ⟨c, hc, -, htc, -⟩ := hI.nonEmpty_block hk'.1
        have hbc : b = c := by have := hk'.2; omega
        rw [← hbc, hnew hz] at htc
        cases htc
    · intro hti c hc htc
      by_cases hcb : c = b
      · subst hcb
        refine ⟨i, ⟨⟨hi, not_free_iff.mp hti⟩, ?_⟩, ?_⟩
        · simp only [written, Region.set_cell_self]; omega
        · simp only [written, Region.set_cell_self]
      · rw [hfree, Region.set_cell_ne _ _ hcb] at htc
        obtain ⟨k, hk⟩ := hl c hc htc
        exact ⟨k, (ho k c (fun e => hnot c (e ▸ hk))).mpr hk⟩
  · have hfree : (written s h i b buffer n).freeBlocks = s.freeBlocks := if_neg hz
    simp only [hz, and_false, not_false_eq_true, iff_true]
    intro c hc htc
    rw [hfree] at htc
    obtain ⟨k, hk⟩ := hl c hc htc
    by_cases hki : k = i
    · subst hki
      refine ⟨k, ⟨hk.1.1, ?_⟩, ?_⟩
      · simp only [written, Region.set_cell_self]; omega
      · simp only [written, Region.set_cell_self]
        rw [← hk.2, hold (by omega)]
    · exact ⟨k, (ho k c hki).mpr hk⟩

/-! ## Calls -/

omit hI in
theorem noLeak_addHandle {i offset : Nat} {r : Int} {s' : Tfs} (h : AddHandle s i offset r s') :
    NoLeak s' := by
  cases h with
  | full hh => exact hl
  | slot k hh => exact hl

theorem noLeak_exec {c : Call} {r : Ret} {s' : Tfs} (hc : exec s c = ok (r, s')) :
    NoLeak s' ↔ ¬ LeakWrite s c := by
  have hstay : ∀ {t : Tfs} {d : Call}, NoLeak t → ¬ LeakWrite s d → (NoLeak t ↔ ¬ LeakWrite s d) :=
    fun h1 h2 => ⟨fun _ => h2, fun _ => h1⟩
  cases exec_effect hI hc with
  | openBad hv => exact hstay hl id
  | openAbsent hv ha hm => exact hstay hl id
  | openNoInode hv ha hm hi => exact hstay hl id
  | openNoEntry i hv ha hm hi hn =>
    exact hstay (noLeak_of_owns hl rfl rfl (owns_inodeReset hi.2.1)) id
  | openCreate i j hv ha hm hi hn hj hr =>
    refine hstay (noLeak_addHandle ?_ hr) id
    exact noLeak_of_owns hl rfl rfl (owns_created hi.2.1)
  | openFound j i hv hn h₁ hr =>
    obtain ⟨hf, ht⟩ := hI.named_file hn
    refine hstay (noLeak_addHandle ?_ hr) id
    rw [h₁]
    split
    · exact noLeak_truncated hI hl hf ht
    · exact hl
  | closeBad hh => exact hstay hl id
  | close h hh => exact hstay hl id
  | writeBad hh =>
    refine hstay hl ?_
    rintro ⟨h, i, hh', -⟩
    exact hh h hh'.1
  | writeZero h i hh hn =>
    refine hstay hl ?_
    rintro ⟨h', i', hh', -, -, hpos, hoff, hfit, -⟩
    obtain ⟨rfl, rfl⟩ := hh.unique hh'
    rw [clampWrite_of_sumFits hI.blockSize_lt (by omega) hfit] at hn
    omega
  | writeNoBlock h i hh hn hz hb =>
    refine hstay hl ?_
    rintro ⟨-, -, -, -, -, -, -, -, b, hlt, hfree⟩
    exact hb b hlt hfree
  | write h i b n hh hn hclamp hmin hb hnew hold =>
    obtain ⟨hf, -⟩ := hI.openOn_file hh
    rw [noLeak_written hI hl _ hf.2 hn hb.2 (fun hz => (hnew hz).2.1) hold]
    refine not_congr ⟨?_, ?_⟩
    · rintro ⟨hfree, hz⟩
      refine ⟨h, i, hh, hfree, hz, by omega, by omega, ?_, b, hb.2, (hnew hz).2.1⟩
      unfold SumFits
      unfold clampWrite at hclamp
      split at hclamp <;> omega
    · rintro ⟨h', i', hh', hfree, hz, -⟩
      obtain ⟨rfl, rfl⟩ := hh.unique hh'
      exact ⟨hfree, hz⟩
  | readBad hh => exact hstay hl id
  | readZero h i hh hn => exact hstay hl id
  | read h i b n hh hn hlen hb hin => exact hstay hl id
  | unlinkBad hv => exact hstay hl id
  | unlinkAbsent hv ha => exact hstay hl id
  | unlink j i hv hn => exact hstay (noLeak_unlinked hI hl hn) id

omit hl in
/-- A leaking write returns. -/
theorem leakWrite_isOk {c : Call} (h : LeakWrite s c) : (exec s c).isOk = true := by
  cases c with
  | tfsWrite fhandle buffer toWrite =>
    obtain ⟨h, i, hh, -, hz, hpos, hoff, hfit, b, hlt, hfree⟩ := h
    have hn := clampWrite_of_sumFits hI.blockSize_lt (by omega) hfit
    rcases write_block_or_none hI hh with ⟨c, hc, hnew, hold⟩ | ⟨-, hnone⟩
    · have hend := blockEnd_le hc.2
      have hw := tfsWrite_block hI hh buffer toWrite (by omega) hc.2 hnew hold
      simp only [hn] at hw
      rw [if_pos (by omega)] at hw
      simp only [exec, hw, ok_bind]
      rfl
    · exact absurd hfree (hnone b hlt)
  | tfsOpen name mode => exact h.elim
  | tfsClose fhandle => exact h.elim
  | tfsRead fhandle len => exact h.elim
  | tfsUnlink target => exact h.elim

/-! ## Counts -/

omit hl in
theorem owns_inj {i k b : Nat} (hi : Owns s i b) (hk : Owns s k b) : i = k :=
  hI.nonEmpty_inj hi.1 hk.1 (hi.2.trans hk.2.symm)

omit hl in
theorem owns_taken {i b : Nat} (hi : Owns s i b) :
    b < s.dataBlocks ∧ s.freeBlocks.cell b = .taken := by
  obtain ⟨c, hc, hlt, ht, -⟩ := hI.nonEmpty_block hi.1
  have hbc : b = c := by have := hi.2; omega
  rw [hbc]
  exact ⟨hlt, ht⟩

theorem takenCount_eq :
    Nat.count (fun b => ¬ s.freeBlocks.cell b = .free) s.dataBlocks = nonEmptyCount s := by
  refine count_eq_of_rel (fun b i => Owns s i b) ?_ ?_ (fun b b' i h h' => ?_)
    (fun b i i' h h' => owns_inj hI h h')
  · intro b hb ht
    obtain ⟨i, hi⟩ := hl b hb (not_free_iff.mp ht)
    exact ⟨i, hi.1.1.1, hi.1, hi⟩
  · intro i hlt hi
    obtain ⟨b, hb, -⟩ := hI.nonEmpty_block hi
    have ho := owns_taken hI ⟨hi, hb⟩
    exact ⟨b, ho.1, not_free_iff.mpr ho.2, hi, hb⟩
  · have := h.2
    have := h'.2
    omega

end

theorem conserved_iff (hI : Inv s) : Conserved s ↔ NoLeak s := by
  constructor
  · intro h b hb ht
    obtain ⟨i, hi, -⟩ := h.owner b hb ht
    exact ⟨i, hi⟩
  · intro hl
    refine ⟨fun b hb ht => ?_, ?_⟩
    · obtain ⟨i, hi⟩ := hl b hb ht
      exact ⟨i, hi, fun k hk => owns_inj hI hk hi⟩
    · have hsum := count_add_count_not (fun b => s.freeBlocks.cell b = .free) s.dataBlocks
      have htaken := takenCount_eq hI hl
      unfold freeBlockCount
      omega

theorem noLeak_initial (hi : Initial s) : NoLeak s := by
  intro b hb ht
  by_cases hb0 : b = 0
  · subst hb0
    refine ⟨0, ⟨⟨hi.inv.root.inodePos, hi.inv.rootTaken⟩, ?_⟩, ?_⟩
    · rw [hi.inv.root.inode]; exact hi.inv.sane.blockPos
    · rw [hi.inv.root.inode]; rfl
  · rw [hi.blocks b (by omega) hb] at ht
    cases ht

end

/-! ## Runs -/

/-- Whatever handles are open at an unlink. -/
theorem conserved_run {s₀ s₁ : Tfs} {m : Mallocs} {p : Option TfsParams}
    (hp : GoodParams (p.getD tfsDefaultParams)) (hinit : tfsInit s₀ m p = ok (0, s₁))
    (cs : List Call) :
    (∀ pre, pre <+: cs → ∀ rs s, run exec s₁ pre = ok (rs, s) → Conserved s) ↔
      Allowed exec (fun s c => ¬ LeakWrite s c) s₁ cs := by
  have hini := (tfsInit_initial hp hinit).1
  rw [← run_always_iff (K := fun _ => True) (I := Inv) (Q := NoLeak)
    (fun _ _ _ _ _ hI h => exec_inv hI h) (fun _ _ _ _ _ hI hl h => noLeak_exec hI hl h)
    (fun s c hI h => leakWrite_isOk hI (Classical.not_not.mp h)) (fun _ _ => trivial) hini.inv
    (noLeak_initial hini)]
  constructor
  · intro h pre hpre rs s hrun
    exact (conserved_iff (run_exec_inv hini.inv hrun)).mp (h pre hpre rs s hrun)
  · intro h pre hpre rs s hrun
    exact (conserved_iff (run_exec_inv hini.inv hrun)).mpr (h pre hpre rs s hrun)

theorem conserved_run_small :
    (∀ pre, pre <+: staleCalls → ∀ rs s, run exec smallDisk pre = ok (rs, s) → Conserved s) ↔
      Allowed exec (fun s c => ¬ LeakWrite s c) smallDisk staleCalls :=
  conserved_run (p := some smallParams) smallParams_good smallDisk_init staleCalls

/-- An empty `/a` is unlinked while it is open, and then written. -/
def leakCalls : List Call :=
  [.tfsOpen (some pathA) tfsOCreat, .tfsUnlink (some pathA), .tfsWrite 0 (fun _ => 1) 1]

/-- Two of the three blocks are TAKEN, and the root is the only inode that is not empty. -/
theorem leakCalls_leak :
    ¬ ∀ (s₀ s₁ s : Tfs) (m : Mallocs) (p : Option TfsParams) (cs : List Call) (rs : List Ret),
      GoodParams (p.getD tfsDefaultParams) → tfsInit s₀ m p = ok (0, s₁) →
      run exec s₁ cs = ok (rs, s) → Conserved s := by
  intro h
  have hc := h .zero smallDisk (stateAfter smallDisk leakCalls) zeroMallocs (some smallParams)
    leakCalls (answers smallDisk leakCalls) smallParams_good smallDisk_init
    (run_eq_answers (by decide +kernel))
  have := hc.count
  revert this
  decide +kernel

end Mbroker
