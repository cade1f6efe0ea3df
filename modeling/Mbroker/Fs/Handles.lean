import Mathlib.Data.Finset.Card
import Mbroker.Fs.Conservation
import Mbroker.Fs.History
import Mbroker.Fs.Structure

/-!
# The open file table, over unrestricted runs

Whatever else a run does, also where it unlinks open files, the TAKEN entries of the
open file table are the handles that it has opened and not closed: `HandleStep` is all
that the calls do to them.

    handles_run : a run from a successful `tfs_init` is a trace of `HandleStep`, in which each handle is
      opened and closed by turns
-/

namespace Mbroker

open CLib CLib.Outcome

/-- The TAKEN entries. -/
def openHandles (s : Tfs) : Finset Nat :=
  (Finset.range s.maxOpenFiles).filter fun h => s.freeOpenFileEntries.cell h = .taken

/-- What a call does to the set `o` of open handles, of which there are `count` at most: an open
takes the least one that is free, or fails, for whatever reason, and a handle that is not open is
good for nothing. -/
inductive HandleStep (count : Nat) (o : Finset Nat) : Call → Ret → Finset Nat → Prop
  | openFails {name : Option CStr} {mode : UInt32} :
      HandleStep count o (.tfsOpen name mode) ⟨-1, []⟩ o
  | opens {name : Option CStr} {mode : UInt32} (h : Nat) (hlt : h < count) (hfree : h ∉ o)
      (hleast : ∀ k, k < h → k ∈ o) :
      HandleStep count o (.tfsOpen name mode) ⟨h, []⟩ (insert h o)
  | closeFails {fhandle : Int} (hbad : ∀ k ∈ o, fhandle ≠ k) :
      HandleStep count o (.tfsClose fhandle) ⟨-1, []⟩ o
  | closes (h : Nat) (hopen : h ∈ o) : HandleStep count o (.tfsClose h) ⟨0, []⟩ (o.erase h)
  | write {fhandle : Int} {buffer : Nat → UInt8} {toWrite : Nat} {r : Ret}
      (hbad : (∀ k ∈ o, fhandle ≠ k) → r = ⟨-1, []⟩) :
      HandleStep count o (.tfsWrite fhandle buffer toWrite) r o
  | read {fhandle : Int} {len : Nat} {r : Ret} (hbad : (∀ k ∈ o, fhandle ≠ k) → r = ⟨-1, []⟩) :
      HandleStep count o (.tfsRead fhandle len) r o
  | unlink {target : Option CStr} {r : Ret} : HandleStep count o (.tfsUnlink target) r o

/-! ## Opens and closes -/

/-- The opens of a run that returned `h`. -/
def opensOf (h : Nat) (cs : List Call) (rs : List Ret) : Nat :=
  (cs.zip rs).countP fun e => match e.1 with
    | .tfsOpen _ _ => e.2.val = h
    | _ => false

/-- The closes of `h` that returned 0. -/
def closesOf (h : Nat) (cs : List Call) (rs : List Ret) : Nat :=
  (cs.zip rs).countP fun e => match e.1 with
    | .tfsClose fhandle => fhandle = h ∧ e.2.val = 0
    | _ => false

/-- 1 while `h` is open. -/
def isOpen (o : Finset Nat) (h : Nat) : Nat := if h ∈ o then 1 else 0

section
variable {count : Nat} {o o' : Finset Nat} {c : Call} {r : Ret} (h : Nat)

/-- What one call adds to the opens and the closes of `h`. -/
theorem handleStep_balance (hs : HandleStep count o c r o') :
    isOpen o h + opensOf h [c] [r] = closesOf h [c] [r] + isOpen o' h := by
  cases hs with
  | openFails =>
    have : ¬ (-1 : Int) = h := by omega
    simp [opensOf, closesOf, this]
  | opens k hlt hfree hleast =>
    by_cases hkh : h = k
    · subst hkh
      simp [opensOf, closesOf, isOpen, hfree]
    · have : ¬ (k : Int) = h := by omega
      simp [opensOf, closesOf, isOpen, hkh, this]
  | closeFails hbad => simp [opensOf, closesOf]
  | closes k hopen =>
    by_cases hkh : h = k
    · subst hkh
      simp [opensOf, closesOf, isOpen, hopen]
    · have : ¬ (k : Int) = h := by omega
      simp [opensOf, closesOf, isOpen, hkh, this]
  | write hbad => simp [opensOf, closesOf]
  | read hbad => simp [opensOf, closesOf]
  | unlink => simp [opensOf, closesOf]

/-- Each handle is opened and closed by turns. -/
theorem trace_balance {cs : List Call} {rs : List Ret}
    (ht : Trace (HandleStep count) o cs rs o') :
    isOpen o h + opensOf h cs rs = closesOf h cs rs + isOpen o' h := by
  induction ht with
  | nil => simp [opensOf, closesOf]
  | @cons a a₁ a' c r cs rs hstep hrest ih =>
    have hone := handleStep_balance h hstep
    have hopens : opensOf h (c :: cs) (r :: rs) = opensOf h [c] [r] + opensOf h cs rs := by
      simp only [opensOf, List.zip_cons_cons, List.zip_nil_right, List.countP_cons,
        List.countP_nil]
      omega
    have hcloses : closesOf h (c :: cs) (r :: rs) = closesOf h [c] [r] + closesOf h cs rs := by
      simp only [closesOf, List.zip_cons_cons, List.zip_nil_right, List.countP_cons,
        List.countP_nil]
      omega
    omega

end

/-! ## What the calls do -/

section
variable {s s' : Tfs}

theorem mem_handles {h : Nat} :
    h ∈ openHandles s ↔ h < s.maxOpenFiles ∧ s.freeOpenFileEntries.cell h = .taken := by
  simp [openHandles]

theorem handle_iff {fhandle : Int} :
    (∀ h, ¬ Handle s fhandle h) ↔ ∀ k ∈ openHandles s, fhandle ≠ k := by
  constructor
  · intro hbad k hk hfk
    rw [mem_handles] at hk
    exact hbad k ⟨hfk, hk⟩
  · rintro hbad h ⟨hfh, hlt, htaken⟩
    exact hbad h (mem_handles.mpr ⟨hlt, htaken⟩) hfh

theorem handles_congr (hcells : s'.freeOpenFileEntries = s.freeOpenFileEntries)
    (hp : s'.fsParams = s.fsParams) : openHandles s' = openHandles s := by
  unfold openHandles Tfs.maxOpenFiles
  rw [hcells, hp]

theorem addHandle_handles {i offset : Nat} {r : Int} {name : Option CStr} {mode : UInt32}
    (hr : AddHandle s i offset r s') :
    HandleStep s.maxOpenFiles (openHandles s) (.tfsOpen name mode) ⟨r, []⟩ (openHandles s') := by
  cases hr with
  | full hh => exact .openFails
  | slot h hh =>
    have hnew : openHandles (handleAdded s h i offset) = insert h (openHandles s) := by
      ext k
      rw [Finset.mem_insert, mem_handles, mem_handles]
      by_cases hkh : k = h
      · subst hkh
        simp only [handleAdded, Region.set_cell_self]
        exact iff_of_true ⟨hh.1, trivial⟩ (Or.inl trivial)
      · simp only [handleAdded, Region.set_cell_ne _ _ hkh, hkh, false_or]
        exact Iff.rfl
    rw [hnew]
    refine .opens h hh.1 ?_ fun k hk => ?_
    · rw [mem_handles]
      rintro ⟨-, htaken⟩
      have hfree : s.freeOpenFileEntries.cell h = .free := hh.2.1
      rw [htaken] at hfree
      cases hfree
    · rw [mem_handles]
      exact ⟨Nat.lt_trans hk hh.1, not_free_iff.mp (hh.2.2 k hk)⟩

theorem effect_handles {c : Call} {r : Ret} (he : Effect s c r s') :
    HandleStep s.maxOpenFiles (openHandles s) c r (openHandles s') := by
  cases he with
  | openBad hv => exact .openFails
  | openAbsent hv ha hm => exact .openFails
  | openNoInode hv ha hm hi => exact .openFails
  | openNoEntry i hv ha hm hi hn => exact .openFails
  | @openCreate path mode r s' i j hv ha hm hi hn hj hr =>
    have hsame : openHandles (created s i j path.tail) = openHandles s := handles_congr rfl rfl
    rw [← hsame]
    show HandleStep (created s i j path.tail).maxOpenFiles _ _ _ _
    exact addHandle_handles hr
  | @openFound path mode r s₁ s' j i hv hn h₁ hr =>
    have hsame : openHandles s₁ = openHandles s ∧ s₁.maxOpenFiles = s.maxOpenFiles := by
      rw [h₁]
      split
      · unfold truncated
        split
        · exact ⟨rfl, rfl⟩
        · exact ⟨rfl, rfl⟩
      · exact ⟨rfl, rfl⟩
    rw [← hsame.1, ← hsame.2]
    exact addHandle_handles hr
  | closeBad hh => exact .closeFails (handle_iff.mp hh)
  | close h hh =>
    have hgone : openHandles (handleFreed s h) = (openHandles s).erase h := by
      ext k
      rw [Finset.mem_erase, mem_handles, mem_handles]
      by_cases hkh : k = h
      · subst hkh
        simp [handleFreed]
      · simp only [handleFreed, Region.set_cell_ne _ _ hkh, ne_eq, hkh, not_false_eq_true,
          true_and]
        exact Iff.rfl
    obtain ⟨rfl, hlt, htaken⟩ := hh
    rw [hgone]
    exact .closes h (mem_handles.mpr ⟨hlt, htaken⟩)
  | writeBad hh => exact .write fun _ => rfl
  | writeZero h i hh hn => exact .write fun hbad => absurd hh.1 (handle_iff.mpr hbad h)
  | writeNoBlock h i hh hn hz hb => exact .write fun hbad => absurd hh.1 (handle_iff.mpr hbad h)
  | write h i b n hh => exact .write fun hbad => absurd hh.1 (handle_iff.mpr hbad h)
  | readBad hh => exact .read fun _ => rfl
  | readZero h i hh hn => exact .read fun hbad => absurd hh.1 (handle_iff.mpr hbad h)
  | read h i b n hh => exact .read fun hbad => absurd hh.1 (handle_iff.mpr hbad h)
  | unlinkBad hv => exact .unlink
  | unlinkAbsent hv ha => exact .unlink
  | unlink j i hv hn => exact .unlink

end

/-! ## Runs -/

theorem Initial.openHandles_empty {s : Tfs} (hi : Initial s) : openHandles s = ∅ := by
  ext h
  rw [mem_handles]
  constructor
  · rintro ⟨hlt, htaken⟩
    rw [hi.handles h hlt] at htaken
    cases htaken
  · intro hmem
    cases hmem

/-- In every run of calls that return, whatever they are, from a successful `tfs_init` the open
handles are those that the calls and their answers say, and each handle was opened as often as it
was closed, but for the open ones. -/
theorem handles_run {s₀ s₁ s : Tfs} {m : Mallocs} {params : Option TfsParams} {p : TfsParams}
    {cs : List Call} {rs : List Ret} (hparams : p = params.getD tfsDefaultParams)
    (hp : GoodParams p) (hinit : tfsInit s₀ m params = ok (0, s₁))
    (hrun : run exec s₁ cs = ok (rs, s)) :
    Trace (HandleStep p.maxOpenFilesCount) ∅ cs rs (openHandles s) ∧
      ∀ h, opensOf h cs rs = closesOf h cs rs + isOpen (openHandles s) h := by
  subst hparams
  obtain ⟨hini, heq, -⟩ := tfsInit_initial hp hinit
  have hstep : ∀ t c r t', (Inv t ∧ t.fsParams = s₁.fsParams) → exec t c = ok (r, t') →
      (Inv t' ∧ t'.fsParams = s₁.fsParams) ∧
        HandleStep s₁.maxOpenFiles (openHandles t) c r (openHandles t') := by
    rintro t c r t' ⟨hI, hsame⟩ hc
    have he := exec_effect hI hc
    have hcount : t.maxOpenFiles = s₁.maxOpenFiles := congrArg TfsParams.maxOpenFilesCount hsame
    refine ⟨⟨effect_inv hI he, (effect_shape hI he).size.trans hsame⟩, ?_⟩
    rw [← hcount]
    exact effect_handles he
  have ht := run_trace hstep ⟨hini.inv, rfl⟩ hrun
  rw [hini.openHandles_empty] at ht
  have hcount : s₁.maxOpenFiles = (params.getD tfsDefaultParams).maxOpenFilesCount :=
    congrArg TfsParams.maxOpenFilesCount heq
  rw [hcount] at ht
  refine ⟨ht, fun h => ?_⟩
  have hbalance := trace_balance h ht
  rw [isOpen, if_neg (Finset.notMem_empty h), Nat.zero_add] at hbalance
  exact hbalance

/-- `/a` is unlinked while handle 0 is open on it; the handle is closed, and given out again. -/
def reopenCalls : List Call :=
  [.tfsOpen (some pathA) tfsOCreat, .tfsUnlink (some pathA), .tfsClose 0, .tfsClose 0,
    .tfsOpen (some pathB) tfsOCreat]

theorem handles_run_reopen : Trace (HandleStep smallParams.maxOpenFilesCount) ∅ reopenCalls
      (answers smallDisk reopenCalls) (openHandles (stateAfter smallDisk reopenCalls)) ∧
    ∀ h, opensOf h reopenCalls (answers smallDisk reopenCalls) =
      closesOf h reopenCalls (answers smallDisk reopenCalls) +
        isOpen (openHandles (stateAfter smallDisk reopenCalls)) h := by
  have hparams : smallParams = (some smallParams).getD tfsDefaultParams := rfl
  exact handles_run hparams smallParams_good smallDisk_init (run_eq_answers (by decide +kernel))

end Mbroker
