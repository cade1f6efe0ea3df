import Mbroker.Fs.Structure

/-!
# Failed assertions

`tfs_open`, `tfs_close`, `tfs_unlink` and `tfs_write` never fail an assertion.
`tfs_read` fails one when its handle is past the end of an empty inode that has no
block: `i_size - of_offset` wraps around, so that there seem to be bytes to read, and
`data_block_get` gets `i_data_block = -1`.  A handle gets there when its file is
unlinked and the inode becomes that of a new, still empty file.

    exec_isPanic     : Inv s → ((exec s c).isPanic = false ↔ ¬ PastEmpty s c)
    run_isPanic      : a run fails no assertion iff none of its calls is `PastEmpty`
-/

namespace Mbroker

open CLib CLib.Outcome

/-- A read of at least one byte past the end of an empty inode without a block. -/
def PastEmpty (s : Tfs) : Call → Prop
  | .tfsRead fhandle len => ∃ h i, OpenOn s fhandle h i ∧ 0 < len ∧
      0 < (s.openFileTable.cell h).ofOffset ∧ (s.inodeTable.cell i).iSize = 0 ∧
      s.validBlockNumber (s.inodeTable.cell i).iDataBlock = false
  | _ => False

section
variable {s : Tfs}

theorem clampRead_empty {offset len : Nat} (ho : offset < 2 ^ 64) :
    0 < clampRead 0 offset len ↔ 0 < len ∧ 0 < offset := by
  rcases Nat.eq_zero_or_pos offset with rfl | h
  · rw [clampRead_of_le (by omega) (Nat.le_refl 0)]
    omega
  · unfold clampRead
    rw [sizeSub_of_lt ho h]
    split <;> omega

theorem OpenOn.unique {fhandle : Int} {h i h' i' : Nat} (h1 : OpenOn s fhandle h i)
    (h2 : OpenOn s fhandle h' i') : h = h' ∧ i = i' := by
  have hh : h = h' := by have := h1.1.1; have := h2.1.1; omega
  subst hh
  have := h1.2
  have := h2.2
  exact ⟨rfl, by omega⟩

/-- An inode without a block is empty. -/
theorem Inv.empty_of_invalid (hI : Inv s) {fhandle : Int} {h i : Nat}
    (hh : OpenOn s fhandle h i)
    (hb : s.validBlockNumber (s.inodeTable.cell i).iDataBlock = false) :
    (s.inodeTable.cell i).iSize = 0 := by
  by_contra hz
  obtain ⟨b, hb1, -, hb2⟩ := (hI.openOn_file hh).2.block (by omega)
  rw [(validBlockNumber_iff _).mpr ⟨b, hb1, hb2⟩] at hb
  cases hb

theorem tfsRead_isPanic (hI : Inv s) (fhandle : Int) (len : Nat) :
    (tfsRead s fhandle len).isPanic = false ↔ ¬ PastEmpty s (.tfsRead fhandle len) := by
  by_cases hex : ∃ h, Handle s fhandle h
  swap
  · rw [tfsRead_bad hI.sane (fun h h' => hex ⟨h, h'⟩)]
    simp only [isPanic_ok, true_iff]
    rintro ⟨h, i, hh, -⟩
    exact hex ⟨h, hh.1⟩
  obtain ⟨h, hh⟩ := hex
  obtain ⟨i, hh⟩ := hI.handle_openOn hh
  have ho := hI.offsetLt h hh.1.2.1 hh.1.2.2
  rcases Nat.eq_zero_or_pos
    (clampRead (s.inodeTable.cell i).iSize (s.openFileTable.cell h).ofOffset len) with hn | hn
  · rw [tfsRead_zero hI hh len hn]
    simp only [isPanic_ok, true_iff]
    rintro ⟨h', i', hh', hlen, hoff, hz, -⟩
    obtain ⟨rfl, rfl⟩ := hh.unique hh'
    rw [hz] at hn
    have := (clampRead_empty ho).mpr ⟨hlen, hoff⟩
    omega
  cases hb : s.validBlockNumber (s.inodeTable.cell i).iDataBlock with
  | false =>
    rw [tfsRead_panic hI hh len hn hb]
    have hz := hI.empty_of_invalid hh hb
    rw [hz] at hn
    have hpos := (clampRead_empty ho).mp hn
    simp only [isPanic_panic, Bool.true_eq_false, false_iff, Classical.not_not]
    exact ⟨h, i, hh, hpos.1, hpos.2, hz, hb⟩
  | true =>
    obtain ⟨b, hb1, hb2⟩ := (validBlockNumber_iff _).mp hb
    rw [tfsRead_block hI hh len hn ⟨hb1, hb2⟩]
    have hnot : ¬ PastEmpty s (.tfsRead fhandle len) := by
      rintro ⟨h', i', hh', -, -, -, hb'⟩
      obtain ⟨rfl, rfl⟩ := hh.unique hh'
      rw [hb] at hb'
      cases hb'
    simp only [hnot, not_false_eq_true, iff_true]
    split <;> rfl

theorem exec_isPanic (hI : Inv s) (c : Call) :
    (exec s c).isPanic = false ↔ ¬ PastEmpty s c := by
  cases c with
  | tfsOpen name mode =>
    obtain ⟨v, t, h, -⟩ := tfsOpen_effect hI name mode
    simp [exec, h, PastEmpty]
  | tfsClose fhandle =>
    obtain ⟨v, t, h, -⟩ := tfsClose_effect hI fhandle
    simp [exec, h, PastEmpty]
  | tfsUnlink target =>
    obtain ⟨v, t, h, -⟩ := tfsUnlink_effect hI target
    simp [exec, h, PastEmpty]
  | tfsWrite fhandle buffer toWrite =>
    have h := tfsWrite_no_panic hI fhandle buffer toWrite
    simp only [exec, PastEmpty, not_false_eq_true, iff_true]
    cases hw : tfsWrite s fhandle buffer toWrite with
    | ok a => simp
    | fault => simp
    | panic msg => rw [hw] at h; cases h
  | tfsRead fhandle len =>
    rw [← tfsRead_isPanic hI]
    simp only [exec]
    cases tfsRead s fhandle len with
    | ok a => simp
    | fault => simp
    | panic msg => simp

end

/-- Assertions hold throughout a run iff no call of it is `PastEmpty`. -/
theorem run_isPanic {s₀ s₁ : Tfs} {m : Mallocs} {p : Option TfsParams}
    (hp : GoodParams (p.getD tfsDefaultParams)) (hinit : tfsInit s₀ m p = ok (0, s₁))
    (cs : List Call) :
    (run exec s₁ cs).isPanic = false ↔ Allowed exec (fun s c => ¬ PastEmpty s c) s₁ cs :=
  run_isPanic_iff (fun _ _ _ _ hI h => exec_inv hI h) (fun _ c hI => exec_isPanic hI c)
    (tfsInit_initial hp hinit).1.inv

theorem run_isPanic_small :
    (run exec smallDisk staleCalls).isPanic = false ↔
      Allowed exec (fun s c => ¬ PastEmpty s c) smallDisk staleCalls :=
  run_isPanic (p := some smallParams) smallParams_good smallDisk_init staleCalls

/-- The old handle of `/a` is at offset 5 of the inode of the new, empty `/b`. -/
theorem run_panics :
    ¬ ∀ (s₀ s₁ : Tfs) (m : Mallocs) (p : Option TfsParams) (cs : List Call),
      GoodParams (p.getD tfsDefaultParams) → tfsInit s₀ m p = ok (0, s₁) →
      (run exec s₁ cs).isPanic = false := by
  intro h
  have := h .zero smallDisk zeroMallocs (some smallParams) (staleCalls ++ [.tfsRead 0 1])
    smallParams_good smallDisk_init
  revert this
  decide +kernel

end Mbroker
