import Mbroker.Fs.Init

/-!
# What a failed `tfs_init` leaves behind

`state_init` assigns `fs_params` before it looks whether there is a file system, and the
pointers to its tables before it looks whether they were allocated.  A file system that
exists keeps its parameters only if the call came with the same ones; one that does not can
be initialised later only if the call did not get as far as an inode table.

    failedInit_iff : a failed call is harmless iff its parameters are those of the file system,
      or there is none and the first allocation failed
    failedInit_run : the failed calls of a run are harmless iff each is one of those
-/

namespace Mbroker

open CLib CLib.Outcome

/-! ## The interface with its two administrative calls -/

inductive TfsCall where
  | tfsInit (m : Mallocs) (paramsPtr : Option TfsParams)
  | tfsDestroy
  | call (c : Call)

def execTfs (s : Tfs) : TfsCall → Outcome (Ret × Tfs)
  | .tfsInit m paramsPtr => do
    let (v, s) ← tfsInit s m paramsPtr
    return (⟨v, []⟩, s)
  | .tfsDestroy => ok (⟨(tfsDestroy s).1, []⟩, (tfsDestroy s).2)
  | .call c => exec s c

/-- Parameters and allocations with which a first `tfs_init` succeeds. -/
structure CanInit (m : Mallocs) (p : TfsParams) : Prop where
  good : GoodParams p
  inodes : 0 < p.maxInodeCount
  blocks : 0 < p.maxBlockCount
  mallocs : m.Succeed

/-- What a failed `tfs_init` is to leave: the file system, or, where there was none, a state from
which the next call does what it would have done. -/
structure AsBefore (s s' : Tfs) : Prop where
  initialised : s.inodeTable.isNull = false → s' = s
  uninitialised : s.inodeTable.isNull = true → ∀ m p, tfsInit s' m p = tfsInit s m p
  canInit : s.inodeTable.isNull = true → ∀ m p, CanInit m (p.getD tfsDefaultParams) →
    ∃ s'', tfsInit s' m p = ok (0, s'')

/-- If the `tfs_init` fails it has no effect. -/
def FailedInitHarmless (s : Tfs) : TfsCall → Prop
  | .tfsInit m p => ∀ s', tfsInit s m p = ok (-1, s') → AsBefore s s'
  | _ => True

/-- The parameters are the current ones, or there are none and no inode table was allocated. -/
def LeavesTfs (s : Tfs) (m : Mallocs) (p : TfsParams) : Prop :=
  if s.inodeTable.isNull then m.inodeTable = none else p = s.fsParams

/-- If the `tfs_init` fails it meets `LeavesTfs`. -/
def FailedInitLeaves (s : Tfs) : TfsCall → Prop
  | .tfsInit m p => (∃ s', tfsInit s m p = ok (-1, s')) → LeavesTfs s m (p.getD tfsDefaultParams)
  | _ => True

/-! ## One call -/

/-- The inode table stays where it is. -/
theorem rootCreate_table {s s' : Tfs} {r : Int} (h : inodeCreate s .tDirectory = ok (r, s')) :
    s'.inodeTable.isNull = s.inodeTable.isNull := by
  simp only [inodeCreate, bind_eq_ok] at h
  obtain ⟨⟨inumber, s₁⟩, halloc, h⟩ := h
  obtain ⟨ts, rfl⟩ := inodeAlloc_frame halloc
  split at h
  · cases h
    rfl
  · simp only [bind_eq_ok] at h
    obtain ⟨i, -, inode, -, table, hstore, ⟨b, s₂⟩, hblock, h⟩ := h
    obtain ⟨-, rfl⟩ := Region.store_eq_ok hstore
    obtain ⟨blocks, rfl⟩ := dataBlockAlloc_frame hblock
    split at h
    · simp only [bind_eq_ok] at h
      obtain ⟨inode₂, -, table₂, hstore₂, s₃, hdelete, h⟩ := h
      obtain ⟨-, rfl⟩ := Region.store_eq_ok hstore₂
      obtain ⟨ts₂, blocks₂, rfl⟩ := inodeDelete_frame hdelete
      cases h
      rfl
    · simp only [bind_eq_ok, pure_eq, ok.injEq, Prod.mk.injEq] at h
      obtain ⟨inode₂, -, table₂, hstore₂, dirEntry, -, -, -, fsData, -, -, rfl⟩ := h
      obtain ⟨-, rfl⟩ := Region.store_eq_ok hstore₂
      rfl

section
variable {s s' t : Tfs} {m : Mallocs} {p : Option TfsParams} {r : Int}

/-- There is a file system already: the call only assigns the parameters. -/
theorem tfsInit_initialised (hs : s.inodeTable.isNull = false) (m : Mallocs)
    (p : Option TfsParams) :
    tfsInit s m p = ok (-1, { s with fsParams := p.getD tfsDefaultParams }) := by
  simp [tfsInit, stateInit, hs]

/-- Without one, the call does not depend on the state. -/
theorem tfsInit_uninitialised (hs : s.inodeTable.isNull = true) (ht : t.inodeTable.isNull = true)
    (m : Mallocs) (p : Option TfsParams) : tfsInit s m p = tfsInit t m p := by
  have hstate : ∀ q, stateInit s m q = stateInit t m q := by
    intro q
    unfold stateInit
    simp only [hs, ht]
    rfl
  simp only [tfsInit, hstate]

/-- Once the inode table is allocated, the call leaves it there. -/
theorem tfsInit_allocated (hs : s.inodeTable.isNull = true) {junk : Nat → Inode}
    (hm : m.inodeTable = some junk) (h : tfsInit s m p = ok (r, s')) :
    s'.inodeTable.isNull = false := by
  simp only [tfsInit, bind_eq_ok] at h
  obtain ⟨⟨ret, s₁⟩, hstate, h⟩ := h
  have h₁ : s₁.inodeTable.isNull = false := by
    simp only [stateInit, hs, hm] at hstate
    split at hstate
    · next hnot => cases hnot
    · split at hstate
      · cases hstate
        rfl
      · simp only [bind_eq_ok, pure_eq, ok.injEq, Prod.mk.injEq] at hstate
        obtain ⟨_, -, _, -, _, -, -, rfl⟩ := hstate
        rfl
  simp only at h
  split at h
  · cases h
    exact h₁
  · simp only [bind_eq_ok] at h
    obtain ⟨⟨root, s₂⟩, hroot, h⟩ := h
    have h₂ := (rootCreate_table hroot).trans h₁
    simp only at h
    split at h
    · cases h
      exact h₂
    · cases h
      exact h₂

/-- Without an inode table there is still no file system. -/
theorem tfsInit_notAllocated (hs : s.inodeTable.isNull = true) (hm : m.inodeTable = none)
    (h : tfsInit s m p = ok (r, s')) : s'.inodeTable.isNull = true := by
  have hfail : ∃ s₁, stateInit s m (p.getD tfsDefaultParams) = ok (-1, s₁) ∧
      s₁.inodeTable.isNull = true := by
    simp [stateInit, hs, hm, Region.malloc, Region.null]
  obtain ⟨s₁, hstate, h₁⟩ := hfail
  simp only [tfsInit, hstate, ok_bind] at h
  cases h
  exact h₁

theorem zeroMallocs_succeed : zeroMallocs.Succeed := ⟨rfl, rfl, rfl, rfl, rfl, rfl⟩

theorem smallParams_canInit : CanInit zeroMallocs smallParams :=
  ⟨smallParams_good, by decide, by decide, zeroMallocs_succeed⟩

/-- Exactly then a failed call is harmless. -/
theorem failedInit_iff (h : tfsInit s m p = ok (-1, s')) :
    AsBefore s s' ↔ LeavesTfs s m (p.getD tfsDefaultParams) := by
  unfold LeavesTfs
  cases hs : s.inodeTable.isNull with
  | false =>
    rw [tfsInit_initialised hs, ok.injEq, Prod.mk.injEq] at h
    obtain ⟨-, rfl⟩ := h
    simp only [Bool.false_eq_true, if_false]
    constructor
    · intro hb
      exact congrArg Tfs.fsParams (hb.initialised hs)
    · intro hp
      refine ⟨fun _ => ?_, fun hn => ?_, fun hn => ?_⟩
      · rw [hp]
      · rw [hs] at hn
        cases hn
      · rw [hs] at hn
        cases hn
  | true =>
    simp only [if_true]
    constructor
    · intro hb
      cases hm : m.inodeTable with
      | none => rfl
      | some junk =>
        -- the next call finds the table
        have hnull := tfsInit_allocated hs hm h
        obtain ⟨s'', hnext⟩ := hb.canInit hs zeroMallocs (some smallParams) smallParams_canInit
        rw [tfsInit_initialised hnull, ok.injEq, Prod.mk.injEq] at hnext
        exact absurd hnext.1 (by decide)
    · intro hm
      have hnull := tfsInit_notAllocated hs hm h
      refine ⟨fun hn => ?_, fun _ m' p' => tfsInit_uninitialised hnull hs m' p', ?_⟩
      · rw [hs] at hn
        cases hn
      · intro _ m' p' hc
        exact tfsInit_succeeds hc.good hnull hc.mallocs hc.inodes hc.blocks

end

/-! ## Runs -/

theorem failedInitHarmless_iff (s : Tfs) (c : TfsCall) :
    FailedInitHarmless s c ↔ FailedInitLeaves s c := by
  cases c with
  | tfsInit m p =>
    constructor
    · rintro hh ⟨s', h⟩
      exact (failedInit_iff h).mp (hh s' h)
    · intro hc s' h
      exact (failedInit_iff h).mpr (hc ⟨s', h⟩)
  | tfsDestroy => exact Iff.rfl
  | call c => exact Iff.rfl

/-- In every run, from any state, of initialisations, destructions and the five operations. -/
theorem failedInit_run (s : Tfs) (cs : List TfsCall) :
    Allowed execTfs FailedInitHarmless s cs ↔ Allowed execTfs FailedInitLeaves s cs :=
  allowed_iff (I := fun _ => True) (fun _ _ _ _ _ _ => trivial)
    (fun s c _ => failedInitHarmless_iff s c) trivial

/-- The small disk gets the default parameters by a call that fails. -/
theorem not_failedInitHarmless :
    ¬ ∀ (s : Tfs) (cs : List TfsCall) (rs : List Ret) (c : TfsCall),
      run execTfs .zero cs = ok (rs, s) → FailedInitHarmless s c := by
  intro hall
  have hinit : run execTfs .zero [.tfsInit zeroMallocs (some smallParams)] =
      ok ([⟨0, []⟩], smallDisk) := by
    simp [run, execTfs, smallDisk_init]
  have hs : smallDisk.inodeTable.isNull = false := by decide +kernel
  have hkept := (hall smallDisk _ _ (.tfsInit zeroMallocs none) hinit _
    (tfsInit_initialised hs zeroMallocs none)).initialised hs
  have hparams : tfsDefaultParams = smallDisk.fsParams := congrArg Tfs.fsParams hkept
  revert hparams
  decide +kernel

end Mbroker
