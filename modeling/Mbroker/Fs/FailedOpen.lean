import Mbroker.Fs.Identity

/-!
# What a failed open leaves behind

`tfs_open` truncates before it looks for a slot of the open file table.  If there is none
it returns -1 all the same, and the content is gone; every other failure leaves the files
and tables as they were, or the empty file that the comment behind the return speaks of.

    failedOpen_iff : a failed open is harmless iff it did not truncate
    failedOpen_run : the failed opens of a run are harmless iff none of them meets `LosesContent`
-/

namespace Mbroker

open CLib CLib.Outcome

/-- The files, the allocation tables, the directory and the open file table are those of `s`. -/
structure Undamaged (s s' : Tfs) : Prop where
  params : s'.fsParams = s.fsParams
  inodes : s'.freeinodeTs = s.freeinodeTs
  blocks : s'.freeBlocks = s.freeBlocks
  directory : ∀ name j i, Named s' name j i ↔ Named s name j i
  handles : s'.freeOpenFileEntries = s.freeOpenFileEntries ∧ s'.openFileTable = s.openFileTable
  inode : ∀ i, s.freeinodeTs.cell i = .taken → s'.inodeTable.cell i = s.inodeTable.cell i
  content : ∀ i, s.freeinodeTs.cell i = .taken → fileBytes s' i = fileBytes s i

/-- The open file table was full: there is a new, empty file `name`, and all else is that of `s`. -/
structure CreatedUnopened (s : Tfs) (name : CStr) (s' : Tfs) : Prop where
  full : ∀ h, h < s.maxOpenFiles → ¬ s.freeOpenFileEntries.cell h = .free
  absent : Absent s name
  params : s'.fsParams = s.fsParams
  file : ∃ j i, Named s' name j i ∧ s.freeinodeTs.cell i = .free ∧
    s'.freeinodeTs = s.freeinodeTs.set i .taken ∧ (s'.inodeTable.cell i).iSize = 0
  blocks : s'.freeBlocks = s.freeBlocks
  directory : ∀ name' j i, name' ≠ name → (Named s' name' j i ↔ Named s name' j i)
  handles : s'.freeOpenFileEntries = s.freeOpenFileEntries ∧ s'.openFileTable = s.openFileTable
  inode : ∀ i, s.freeinodeTs.cell i = .taken → s'.inodeTable.cell i = s.inodeTable.cell i
  content : ∀ i, FileIndex s i → s.freeinodeTs.cell i = .taken → fileBytes s' i = fileBytes s i

/-- If the open fails it destroys nothing. -/
def FailedOpenHarmless (s : Tfs) : Call → Prop
  | .tfsOpen name mode => ∀ s', tfsOpen s name mode = ok (-1, s') →
      Undamaged s s' ∨ ∃ path, name = some path ∧ CreatedUnopened s path.tail s'
  | _ => True

/-- An open with `TFS_O_TRUNC` of a file with content, when no handle is FREE. -/
def LosesContent (s : Tfs) : Call → Prop
  | .tfsOpen (some path) mode => validPathname (some path) = true ∧
      hasFlag mode tfsOTrunc = true ∧
      (∃ j i, Named s path.tail j i ∧ 0 < (s.inodeTable.cell i).iSize) ∧
      ∀ h, h < s.maxOpenFiles → ¬ s.freeOpenFileEntries.cell h = .free
  | _ => False

section
variable {s : Tfs}

theorem Undamaged.refl (s : Tfs) : Undamaged s s :=
  ⟨rfl, rfl, rfl, fun _ _ _ => Iff.rfl, ⟨rfl, rfl⟩, fun _ _ => rfl, fun _ _ => rfl⟩

theorem undamaged_inodeReset {i : Nat} (hi : s.freeinodeTs.cell i = .free) :
    Undamaged s (inodeReset s i) := by
  have hne : ∀ k, s.freeinodeTs.cell k = .taken → k ≠ i := by
    rintro k hk rfl
    rw [hi] at hk
    cases hk
  exact ⟨rfl, rfl, rfl, fun _ _ _ => Iff.rfl, ⟨rfl, rfl⟩,
    fun k hk => Region.set_cell_ne _ _ (hne k hk), fun k hk => fileBytes_inodeReset (hne k hk)⟩

theorem createdUnopened_created (hI : Inv s) {i j : Nat} {name : CStr} (ha : Absent s name)
    (hi : FirstAt (fun i => s.freeinodeTs.cell i = .free) s.inodeTableSize i)
    (hn : 1 ≤ name.strlen ∧ name.strlen ≤ 39)
    (hj : FirstAt (fun j => ¬ Live s.fsData 0 j) s.maxDirEntries j)
    (hfull : ∀ h, h < s.maxOpenFiles → ¬ s.freeOpenFileEntries.cell h = .free) :
    CreatedUnopened s name (created s i j name) := by
  have hlt : i < 2 ^ 31 := by have := hI.sane.inodeInt; have := hi.1; omega
  have hne : ∀ k, s.freeinodeTs.cell k = .taken → k ≠ i := by
    rintro k hk rfl
    have hfree : s.freeinodeTs.cell k = .free := hi.2.1
    rw [hfree] at hk
    cases hk
  constructor
  case full => exact hfull
  case absent => exact ha
  case params => rfl
  case blocks => rfl
  case handles => exact ⟨rfl, rfl⟩
  case file =>
    refine ⟨j, i, named_created_self hj.1 hlt hn.2, hi.2.1, rfl, ?_⟩
    simp [created, inodeCreated]
  case directory =>
    intro name' k l hname
    constructor
    · intro hk
      rcases named_created hlt hn.2 hk with ⟨he, -⟩ | ⟨-, hold⟩
      · exact absurd he hname
      · exact hold
    · exact named_created_other hj.2.1
  case inode => exact fun k hk => Region.set_cell_ne _ _ (hne k hk)
  case content =>
    exact fun k hf hk => fileBytes_created hj.1 (hne k hk) (hI.file k hf hk)

theorem AddHandle.failed {i offset : Nat} {r : Int} {s' : Tfs} (h : AddHandle s i offset r s')
    (hr : r = -1) : s' = s ∧ ∀ h, h < s.maxOpenFiles → ¬ s.freeOpenFileEntries.cell h = .free := by
  cases h with
  | full hh => exact ⟨rfl, hh⟩
  | slot h hh => omega

/-- A truncation of an empty file is none. -/
theorem truncated_empty {i : Nat} (h : ¬ 0 < (s.inodeTable.cell i).iSize) : truncated s i = s :=
  if_neg h

theorem truncated_handles (i : Nat) : (truncated s i).maxOpenFiles = s.maxOpenFiles ∧
    (truncated s i).freeOpenFileEntries = s.freeOpenFileEntries := by
  unfold truncated
  split
  · exact ⟨rfl, rfl⟩
  · exact ⟨rfl, rfl⟩

theorem failedOpen_harmless (hI : Inv s) {name : Option CStr} {mode : UInt32}
    (hc : ¬ LosesContent s (.tfsOpen name mode)) :
    FailedOpenHarmless s (.tfsOpen name mode) := by
  intro s' hopen
  obtain ⟨v, t, hopen', he⟩ := tfsOpen_effect hI name mode
  rw [hopen] at hopen'
  simp only [ok.injEq, Prod.mk.injEq] at hopen'
  obtain ⟨rfl, rfl⟩ := hopen'
  cases he with
  | openBad hv => exact Or.inl (.refl s)
  | openAbsent hv ha hm => exact Or.inl (.refl s)
  | openNoInode hv ha hm hi => exact Or.inl (.refl s)
  | openNoEntry i hv ha hm hi hn => exact Or.inl (undamaged_inodeReset hi.2.1)
  | openCreate i j hv ha hm hi hn hj hr =>
    obtain ⟨rfl, hfull⟩ := hr.failed rfl
    exact Or.inr ⟨_, rfl, createdUnopened_created hI ha hi hn hj hfull⟩
  | openFound j i hv hn h₁ hr =>
    obtain ⟨rfl, hfull⟩ := hr.failed rfl
    left
    rw [h₁]
    split
    · next hm =>
      by_cases hz : 0 < (s.inodeTable.cell i).iSize
      · rw [h₁, if_pos hm, (truncated_handles i).1, (truncated_handles i).2] at hfull
        exact absurd ⟨hv, hm, ⟨j, i, hn, hz⟩, hfull⟩ hc
      · rw [truncated_empty hz]
        exact .refl s
    · exact .refl s

/-- An open that loses content fails, and what it leaves is no state it may leave. -/
theorem losesContent_harms (hI : Inv s) {c : Call} (hc : LosesContent s c) :
    ¬ FailedOpenHarmless s c := by
  cases c with
  | tfsOpen name mode =>
    cases name with
    | none => exact hc.elim
    | some path =>
      obtain ⟨hv, hm, ⟨j, i, hn, hz⟩, hfull⟩ := hc
      intro hharmless
      have hfull' : ∀ h, h < (truncated s i).maxOpenFiles →
          ¬ (truncated s i).freeOpenFileEntries.cell h = .free := by
        rw [(truncated_handles i).1, (truncated_handles i).2]
        exact hfull
      have he : Effect s (.tfsOpen (some path) mode) ⟨-1, []⟩ (truncated s i) :=
        .openFound j i hv hn (if_pos hm).symm (.full hfull')
      have hsize : ((truncated s i).inodeTable.cell i).iSize = 0 := by
        simp [truncated, hz]
      rcases hharmless _ (tfsOpen_ok hI he).1 with hkept | ⟨path', hpath, hnew⟩
      · have := congrArg Inode.iSize (hkept.inode i (hI.named_file hn).2)
        omega
      · cases hpath
        exact hnew.absent j hn.1 hn.live hn.2.2
  | _ => exact hc.elim

theorem failedOpen_iff (hI : Inv s) (c : Call) :
    FailedOpenHarmless s c ↔ ¬ LosesContent s c := by
  constructor
  · exact fun hh hc => losesContent_harms hI hc hh
  · intro hc
    cases c with
    | tfsOpen name mode => exact failedOpen_harmless hI hc
    | _ => trivial

end

/-! ## Runs -/

theorem failedOpen_run {s₀ s₁ : Tfs} {m : Mallocs} {p : Option TfsParams}
    (hp : GoodParams (p.getD tfsDefaultParams)) (hinit : tfsInit s₀ m p = ok (0, s₁))
    (cs : List Call) : Allowed exec FailedOpenHarmless s₁ cs ↔
      Allowed exec (fun s c => ¬ LosesContent s c) s₁ cs :=
  allowed_iff (fun _ _ _ _ hI h => exec_inv hI h) (fun _ c hI => failedOpen_iff hI c)
    (tfsInit_initial hp hinit).1.inv

theorem failedOpen_run_stale : Allowed exec FailedOpenHarmless smallDisk staleCalls ↔
    Allowed exec (fun s c => ¬ LosesContent s c) smallDisk staleCalls :=
  failedOpen_run (p := some smallParams) smallParams_good smallDisk_init staleCalls

/-- Both handles are open, and `/a` has five bytes. -/
def bothOpen : List Call :=
  [.tfsOpen (some pathA) tfsOCreat, .tfsWrite 0 (fun k => UInt8.ofNat k) 5,
    .tfsOpen (some pathA) 0]

/-- A third open of `/a`, with `TFS_O_TRUNC`, fails, and `/a` is empty. -/
theorem not_failedOpenHarmless :
    ¬ ∀ (s₀ s₁ s : Tfs) (m : Mallocs) (p : Option TfsParams) (cs : List Call) (rs : List Ret)
      (c : Call), GoodParams (p.getD tfsDefaultParams) → tfsInit s₀ m p = ok (0, s₁) →
      run exec s₁ cs = ok (rs, s) → FailedOpenHarmless s c := by
  intro hall
  have hr := @run_eq_answers smallDisk bothOpen (by decide +kernel)
  have hh := hall .zero smallDisk _ zeroMallocs (some smallParams) bothOpen _
    (.tfsOpen (some pathA) tfsOTrunc) smallParams_good smallDisk_init hr
  have hI := run_exec_inv (tfsInit_initial (p := some smallParams) smallParams_good
    smallDisk_init).1.inv hr
  refine losesContent_harms hI (c := .tfsOpen (some pathA) tfsOTrunc) ?_ hh
  refine ⟨by decide, by decide, ⟨0, 1, ?_, by decide +kernel⟩, by decide +kernel⟩
  exact ⟨by decide +kernel, by decide +kernel, by decide +kernel⟩

end Mbroker
