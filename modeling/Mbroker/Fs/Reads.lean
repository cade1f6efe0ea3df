import Mbroker.Fs.Isolation

/-!
# Reads stay inside the file

A read at an offset inside the file delivers the bytes from there on; one past the end
goes wrong, since `i_size - of_offset` wraps around.  Handles get past the end of their
file when it is truncated, and, without an unlink, in no other way.

    readsInside_iff : all reads of a state are right iff no handle is past the end
    within_exec     : what keeps the handles inside their files
    readsInside_run : in all states of a run all reads are right iff no `tfs_open` truncates a
      file of which some handle is behind the first byte
-/

namespace Mbroker

open CLib CLib.Outcome

def Call.isUnlink : Call → Bool
  | .tfsUnlink _ => true
  | _ => false

/-- The number of bytes that a read of `len` bytes at `offset` of a file of `size` bytes gets. -/
def readable (size offset len : Nat) : Nat := if offset ≤ size then min len (size - offset) else 0

/-- A read through any handle delivers the bytes of the file from its offset on, and leaves the
offset in the block. -/
def ReadsInside (s : Tfs) : Prop :=
  ∀ fhandle h i len, OpenOn s fhandle h i → ∃ s',
    let offset := (s.openFileTable.cell h).ofOffset
    let n := readable (s.inodeTable.cell i).iSize offset len
    tfsRead s fhandle len = ok ((n : Int), ((fileBytes s i).drop offset).take n, s') ∧
      (s'.openFileTable.cell h).ofOffset = offset + n ∧ offset + n ≤ s.blockSize

/-- No handle is past the end of its file. -/
def Within (s : Tfs) : Prop :=
  ∀ fhandle h i, OpenOn s fhandle h i →
    (s.openFileTable.cell h).ofOffset ≤ (s.inodeTable.cell i).iSize

/-- A file is truncated only while its handles are at its first byte. -/
def TruncatesUnread (s : Tfs) : Call → Prop
  | .tfsOpen (some path) mode => validPathname (some path) = true →
      hasFlag mode tfsOTrunc = true → ∀ j i, Named s path.tail j i → ∀ fhandle h,
      OpenOn s fhandle h i → (s.openFileTable.cell h).ofOffset = 0
  | _ => True

/-! ## One read -/

section
variable {s : Tfs}

section
variable (hI : Inv s) {fhandle : Int} {h i : Nat} (hh : OpenOn s fhandle h i)

include hI hh

/-- Past the end there always seem to be bytes. -/
theorem tfsRead_past {v : Int} {s' : Tfs}
    (ho : (s.inodeTable.cell i).iSize < (s.openFileTable.cell h).ofOffset) :
    tfsRead s fhandle 1 ≠ ok (v, [], s') := by
  intro hread
  have hoff := hI.offsetLt h hh.1.2.1 hh.1.2.2
  have hsize := hI.openOn_sizeLe hh
  have hbs := hI.blockSize_lt
  have he := tfsRead_effect hI hread
  generalize hr : (⟨v, []⟩ : Ret) = r at he
  cases he with
  | readBad hbad => exact hbad h hh.1
  | readZero h' i' hh' hn =>
    obtain ⟨rfl, rfl⟩ := hh.unique hh'
    unfold clampRead at hn
    rw [sizeSub_of_lt hoff ho] at hn
    split at hn <;> omega
  | read h' i' b n hh' hn =>
    have hlen := congrArg (fun r : Ret => r.bytes.length) hr
    simp only [List.length_nil, Region.cells_length] at hlen
    omega

end

/-- All reads are right just when no handle is past the end of its file. -/
theorem readsInside_iff (hI : Inv s) : ReadsInside s ↔ Within s := by
  constructor
  · intro hr fhandle h i hh
    by_contra ho
    obtain ⟨s', hread, -⟩ := hr fhandle h i 1 hh
    have hzero : readable (s.inodeTable.cell i).iSize (s.openFileTable.cell h).ofOffset 1 = 0 :=
      if_neg ho
    rw [hzero] at hread
    exact tfsRead_past hI hh (by omega) hread
  · intro hw fhandle h i len hh
    have ho := hw fhandle h i hh
    have hsize := hI.openOn_sizeLe hh
    simp only [readable, if_pos ho]
    exact ⟨_, tfsRead_within hI hh len ho, by simp [readAdvanced], by omega⟩

/-! ## What moves handles and ends of files -/

/-- Every handle is on a file that there is. -/
def Current (s : Tfs) : Prop :=
  ∀ fhandle h i, OpenOn s fhandle h i → s.freeinodeTs.cell i = .taken

theorem Current.ne_free (hcur : Current s) {fhandle : Int} {h i k : Nat} (hh : OpenOn s fhandle h i)
    (hk : s.freeinodeTs.cell k = .free) : i ≠ k := by
  rintro rfl
  rw [hcur fhandle h i hh] at hk
  cases hk

/-- Only an unlink frees an inode. -/
theorem taken_kept {c : Call} {r : Ret} {s' : Tfs} (he : Effect s c r s')
    (hc : c.isUnlink = false) {i : Nat} (ht : s.freeinodeTs.cell i = .taken) :
    s'.freeinodeTs.cell i = .taken := by
  have hadd : ∀ {s₁ s' : Tfs} {k offset : Nat} {r : Int}, AddHandle s₁ k offset r s' →
      s'.freeinodeTs = s₁.freeinodeTs := fun hr => by cases hr <;> rfl
  cases he with
  | openCreate k j hv ha hm hk hn hj hr =>
    rw [hadd hr]
    show (s.freeinodeTs.set k .taken).cell i = .taken
    by_cases hik : i = k
    · rw [hik, Region.set_cell_self]
    · rw [Region.set_cell_ne _ _ hik, ht]
  | openFound j k hv hn h₁ hr =>
    rw [hadd hr, h₁]
    split
    · unfold truncated; split <;> exact ht
    · exact ht
  | unlinkBad hv => cases hc
  | unlinkAbsent hv ha => cases hc
  | unlink j k hv hn => cases hc
  | _ => exact ht

theorem current_exec (hI : Inv s) (hcur : Current s) {c : Call} {r : Ret} {s' : Tfs}
    (hc : c.isUnlink = false) (h : exec s c = ok (r, s')) : Current s' := by
  intro fhandle k i hh
  have he := exec_effect hI h
  have hS := effect_shape hI he
  rcases hS.handles fhandle k i hh with hold | hnew
  · exact taken_kept he hc (hcur fhandle k i hold)
  · exact hS.newTaken fhandle k i hh hnew

/-- A new handle inside the file does not matter. -/
theorem within_addHandle {s₁ s' : Tfs} {i offset : Nat} {r : Int} (hr : AddHandle s₁ i offset r s')
    (ho : offset ≤ (s₁.inodeTable.cell i).iSize) : Within s' ↔ Within s₁ := by
  cases hr with
  | full hh => exact Iff.rfl
  | slot h hh =>
    have hother : ∀ fhandle k l, k ≠ h →
        (OpenOn (handleAdded s₁ h i offset) fhandle k l ↔ OpenOn s₁ fhandle k l) := by
      intro fhandle k l hkh
      unfold OpenOn Handle
      simp only [handleAdded, Region.set_cell_ne _ _ hkh]
      exact Iff.rfl
    constructor
    · intro hw fhandle k l hk
      have hkh : k ≠ h := by
        rintro rfl
        have hfree : s₁.freeOpenFileEntries.cell k = .free := hh.2.1
        rw [hk.1.2.2] at hfree
        cases hfree
      have := hw fhandle k l ((hother fhandle k l hkh).mpr hk)
      simpa only [handleAdded, Region.set_cell_ne _ _ hkh] using this
    · intro hw fhandle k l hk
      by_cases hkh : k = h
      · subst hkh
        have hl := hk.2
        simp only [handleAdded, Region.set_cell_self] at hl ⊢
        obtain rfl : i = l := by omega
        exact ho
      · have := hw fhandle k l ((hother fhandle k l hkh).mp hk)
        simpa only [handleAdded, Region.set_cell_ne _ _ hkh] using this

theorem within_truncated (hw : Within s) (i : Nat) : Within (truncated s i) ↔
    ∀ fhandle h, OpenOn s fhandle h i → (s.openFileTable.cell h).ofOffset = 0 := by
  unfold truncated
  split
  · next hz =>
    constructor
    · intro ht fhandle h hh
      have := ht fhandle h i hh
      simp only [Region.set_cell_self] at this
      omega
    · intro hstart fhandle h k hh
      by_cases hki : k = i
      · subst hki
        have := hstart fhandle h hh
        simp only [Region.set_cell_self]
        omega
      · simp only [Region.set_cell_ne _ _ hki]
        exact hw fhandle h k hh
  · next hz =>
    refine ⟨fun _ fhandle h hh => ?_, fun _ => hw⟩
    have := hw fhandle h i hh
    omega

/-- The inodes of handles are as before: so are their ends. -/
theorem within_inodes {s' : Tfs} (hw : Within s)
    (hh : s'.freeOpenFileEntries = s.freeOpenFileEntries)
    (ht : s'.openFileTable = s.openFileTable) (hp : s'.fsParams = s.fsParams)
    (hi : ∀ fhandle h i, OpenOn s fhandle h i →
      s'.inodeTable.cell i = s.inodeTable.cell i) : Within s' := by
  intro fhandle h i hk
  have hk' : OpenOn s fhandle h i := by
    unfold OpenOn Handle Tfs.maxOpenFiles at hk ⊢
    rwa [hh, ht, hp] at hk
  rw [hi fhandle h i hk', ht]
  exact hw fhandle h i hk'

theorem within_handleFreed (hw : Within s) (h : Nat) : Within (handleFreed s h) := by
  intro fhandle k i hk
  have hkh : k ≠ h := by
    rintro rfl
    have := hk.1.2.2
    simp [handleFreed] at this
  have ht := hk.1.2.2
  simp only [handleFreed, Region.set_cell_ne _ _ hkh] at ht
  exact hw fhandle k i ⟨⟨hk.1.1, hk.1.2.1, ht⟩, hk.2⟩

theorem within_readAdvanced (hw : Within s) {fhandle : Int} {h i n : Nat}
    (hh : OpenOn s fhandle h i)
    (hn : (s.openFileTable.cell h).ofOffset + n ≤ (s.inodeTable.cell i).iSize) :
    Within (readAdvanced s h n) := by
  intro fhandle' k l hk
  by_cases hkh : k = h
  · subst hkh
    have hl := hk.2
    simp only [readAdvanced, Region.set_cell_self] at hl ⊢
    have := hh.2
    obtain rfl : i = l := by omega
    exact hn
  · have hl := hk.2
    simp only [readAdvanced, Region.set_cell_ne _ _ hkh] at hl ⊢
    exact hw fhandle' k l ⟨hk.1, hl⟩

theorem within_written (hw : Within s) {fhandle : Int} {h i b n : Nat} (buffer : Nat → UInt8)
    (hh : OpenOn s fhandle h i) : Within (written s h i b buffer n) := by
  intro fhandle' k l hk
  by_cases hkh : k = h
  · subst hkh
    have hl := hk.2
    simp only [written, Region.set_cell_self] at hl ⊢
    have := hh.2
    obtain rfl : i = l := by omega
    rw [Region.set_cell_self]
    exact Nat.le_max_right _ _
  · have hl := hk.2
    simp only [written, Region.set_cell_ne _ _ hkh] at hl ⊢
    have hle := hw fhandle' k l ⟨hk.1, hl⟩
    by_cases hli : l = i
    · subst hli
      rw [Region.set_cell_self]
      exact Nat.le_trans hle (Nat.le_max_left _ _)
    · rw [Region.set_cell_ne _ _ hli]
      exact hle

/-- Handles stay inside their files, but for a truncation under them. -/
theorem within_exec (hI : Inv s) (hcur : Current s) (hw : Within s) {c : Call} {r : Ret} {s' : Tfs}
    (hc : c.isUnlink = false) (he : exec s c = ok (r, s')) :
    Within s' ↔ TruncatesUnread s c := by
  -- an open of a name that is not found truncates nothing
  have hopen : ∀ {path : CStr} {mode : UInt32}, Absent s path.tail →
      TruncatesUnread s (.tfsOpen (some path) mode) :=
    fun ha _ _ j i hn => absurd hn.2.2 (ha j hn.1 hn.live)
  cases exec_effect hI he with
  | @openBad name mode hv =>
    refine iff_of_true hw ?_
    cases name with
    | none => trivial
    | some path =>
      intro hv'
      rw [hv] at hv'
      cases hv'
  | openAbsent hv ha hm => exact iff_of_true hw (hopen ha)
  | openNoInode hv ha hm hi => exact iff_of_true hw (hopen ha)
  | openNoEntry i hv ha hm hi hn =>
    refine iff_of_true (within_inodes hw rfl rfl rfl ?_) (hopen ha)
    intro fhandle k l hk
    exact Region.set_cell_ne _ _ (hcur.ne_free hk hi.2.1)
  | openCreate i j hv ha hm hi hn hj hr =>
    refine iff_of_true ((within_addHandle hr (Nat.zero_le _)).mpr ?_) (hopen ha)
    refine within_inodes hw rfl rfl rfl ?_
    intro fhandle k l hk
    exact Region.set_cell_ne _ _ (hcur.ne_free hk hi.2.1)
  | @openFound path mode r s₁ s' j i hv hn h₁ hr =>
    rw [within_addHandle hr (by split <;> omega), h₁]
    split
    · next hm =>
      rw [within_truncated hw]
      constructor
      · intro hstart _ _ k l hkl fhandle h hh
        obtain ⟨-, rfl⟩ := hI.named_unique hn hkl
        exact hstart fhandle h hh
      · exact fun ht => ht hv hm j i hn
    · next hm => exact iff_of_true hw (fun _ hm' => absurd hm' hm)
  | closeBad hh => exact iff_of_true hw trivial
  | close h hh => exact iff_of_true (within_handleFreed hw h) trivial
  | writeBad hh => exact iff_of_true hw trivial
  | writeZero h i hh hn => exact iff_of_true hw trivial
  | writeNoBlock h i hh hn hz hb => exact iff_of_true hw trivial
  | write h i b n hh => exact iff_of_true (within_written hw _ hh) trivial
  | readBad hh => exact iff_of_true hw trivial
  | readZero h i hh hn => exact iff_of_true hw trivial
  | read h i b n hh hn hlen =>
    refine iff_of_true (within_readAdvanced hw hh ?_) trivial
    have ho := hw _ h i hh
    have hsize := hI.openOn_sizeLe hh
    rw [hI.clampRead_openOn hh _ ho] at hlen
    omega
  | unlinkBad hv => cases hc
  | unlinkAbsent hv ha => cases hc
  | unlink j k hv hn => cases hc

end

/-! ## Runs -/

theorem Initial.within {s : Tfs} (hi : Initial s) : Within s :=
  fun _ _ _ hh => (hi.not_openOn hh).elim

theorem Initial.current {s : Tfs} (hi : Initial s) : Current s :=
  fun _ _ _ hh => (hi.not_openOn hh).elim

/-- A call that is not allowed is a `tfs_open`, and that returns. -/
theorem truncatesUnread_isOk {s : Tfs} (hI : Inv s) {c : Call} (hc : ¬ TruncatesUnread s c) :
    (exec s c).isOk = true := by
  cases c with
  | tfsOpen name mode =>
    obtain ⟨v, t, h, -⟩ := tfsOpen_effect hI name mode
    simp [exec, h, isOk]
  | _ => exact absurd trivial hc

theorem readsInside_run {s₀ s₁ : Tfs} {m : Mallocs} {p : Option TfsParams}
    (hp : GoodParams (p.getD tfsDefaultParams)) (hinit : tfsInit s₀ m p = ok (0, s₁))
    {cs : List Call} (hcs : ∀ c ∈ cs, c.isUnlink = false) :
    (∀ pre, pre <+: cs → ∀ rs s, run exec s₁ pre = ok (rs, s) → ReadsInside s) ↔
      Allowed exec TruncatesUnread s₁ cs := by
  have hini := (tfsInit_initial hp hinit).1
  rw [← run_always_iff (K := fun c => c.isUnlink = false) (I := fun s => Inv s ∧ Current s)
    (Q := Within)
    (fun _ _ _ _ hc hI h => ⟨exec_inv hI.1 h, current_exec hI.1 hI.2 hc h⟩)
    (fun _ _ _ _ hc hI hw h => within_exec hI.1 hI.2 hw hc h)
    (fun _ _ hI h => truncatesUnread_isOk hI.1 h) hcs ⟨hini.inv, hini.current⟩ hini.within]
  constructor
  · intro h pre hpre rs s hrun
    exact (readsInside_iff (run_exec_inv hini.inv hrun)).mp (h pre hpre rs s hrun)
  · intro h pre hpre rs s hrun
    exact (readsInside_iff (run_exec_inv hini.inv hrun)).mpr (h pre hpre rs s hrun)

theorem readsInside_run_trunc :
    (∀ pre, pre <+: truncCalls → ∀ rs s, run exec smallDisk pre = ok (rs, s) → ReadsInside s) ↔
      Allowed exec TruncatesUnread smallDisk truncCalls :=
  readsInside_run (p := some smallParams) smallParams_good smallDisk_init (by decide)

/-- The first handle of `/a` is at offset 5 of the file, which is empty: it reads a byte. -/
theorem not_readsInside :
    ¬ ∀ (s₀ s₁ s : Tfs) (m : Mallocs) (p : Option TfsParams) (cs : List Call) (rs : List Ret),
      GoodParams (p.getD tfsDefaultParams) → tfsInit s₀ m p = ok (0, s₁) →
      (∀ c ∈ cs, c.isUnlink = false) → run exec s₁ cs = ok (rs, s) → ReadsInside s := by
  intro hall
  have hr := hall .zero smallDisk _ zeroMallocs (some smallParams) truncCalls _ smallParams_good
    smallDisk_init (by decide) (run_eq_answers (by decide +kernel))
  obtain ⟨s', hread, -⟩ := hr 0 0 1 1
    ⟨⟨by decide +kernel, by decide +kernel, by decide +kernel⟩, by decide +kernel⟩
  have hone : ((tfsRead (stateAfter smallDisk truncCalls) 0 1).getD (0, [], .zero)).1 = 1 := by
    decide +kernel
  rw [hread] at hone
  simp only [getD] at hone
  revert hone
  decide +kernel

end Mbroker
