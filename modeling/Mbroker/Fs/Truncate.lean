import Mathlib.Data.List.ReduceOption
import Mbroker.Fs.Lookup
import Mbroker.Fs.Reads
import Mbroker.Fs.Simulate

/-!
# The abstract file store with truncation

`fileStep` is the store of `Fs.Store` with a meaning for `TFS_O_TRUNC`: an open that
truncates empties the file, also when there is no handle left for it, and is then an
open without the flag.  `Store.Permits` is what a client keeps to, read off the store
alone: it truncates a file only while all its handles are at the first byte, it unlinks
none that is open, and its lengths are below `2 ^ 63`.

    open_truncates : an open with the flag is a truncation and an open without it
    permits_exec   : Refines p s a → a.Permits c →
      ∃ s', exec s c = ok ((fileStep p a c).1, s') ∧ Refines p s' (fileStep p a c).2
-/

namespace Mbroker

open CLib CLib.Outcome

namespace Store

/-- The file, if there is one, is empty from now on. -/
def truncate (a : Store) (name : CStr) : Store :=
  if name ∈ a.files then { a with files := a.files.insert name [] } else a

/-- The open files. -/
def opened (a : Store) : List OpenFile := a.slots.reduceOption

def Permits (a : Store) : Call → Prop
  | .tfsOpen (some path) mode => hasFlag mode tfsOTrunc = true →
      ∀ f ∈ a.opened, f.name = path.tail → f.offset = 0
  | .tfsWrite _ _ toWrite => toWrite < 2 ^ 63
  | .tfsRead _ len => len < 2 ^ 63
  | .tfsUnlink (some path) => ∀ f ∈ a.opened, f.name ≠ path.tail
  | _ => True

instance (a : Store) : (c : Call) → Decidable (a.Permits c)
  | .tfsOpen (some path) mode => inferInstanceAs (Decidable (hasFlag mode tfsOTrunc = true →
      ∀ f ∈ a.opened, f.name = path.tail → f.offset = 0))
  | .tfsOpen none _ => .isTrue trivial
  | .tfsClose _ => .isTrue trivial
  | .tfsWrite _ _ toWrite => inferInstanceAs (Decidable (toWrite < 2 ^ 63))
  | .tfsRead _ len => inferInstanceAs (Decidable (len < 2 ^ 63))
  | .tfsUnlink (some path) => inferInstanceAs (Decidable (∀ f ∈ a.opened, f.name ≠ path.tail))
  | .tfsUnlink none => .isTrue trivial

theorem mem_opened {a : Store} {fhandle : Int} {f : OpenFile} (h : a.slot fhandle = some f) :
    f ∈ a.opened := by
  unfold slot at h
  split at h
  · rw [Option.join_eq_some_iff] at h
    exact List.reduceOption_mem_iff.mpr (List.mem_of_getElem? h)
  · cases h

end Store

/-- The store, with `TFS_O_TRUNC`. -/
def fileStep (p : TfsParams) (a : Store) : Call → Ret × Store
  | .tfsOpen (some path) mode =>
    if validPathname (some path) ∧ hasFlag mode tfsOTrunc then
      storeStep p (a.truncate path.tail) (.tfsOpen (some path) mode)
    else storeStep p a (.tfsOpen (some path) mode)
  | c => storeStep p a c

/-! ## The flag -/

/-- The other flags of `mode`. -/
def withoutTrunc (mode : UInt32) : UInt32 := mode &&& ~~~ tfsOTrunc

@[simp] theorem hasFlag_withoutTrunc (mode : UInt32) :
    hasFlag (withoutTrunc mode) tfsOTrunc = false := by
  have h : ~~~ tfsOTrunc &&& tfsOTrunc = 0 := by decide
  simp [hasFlag, withoutTrunc, UInt32.and_assoc, h]

theorem hasFlag_withoutTrunc_of {mode flag : UInt32} (h : ~~~ tfsOTrunc &&& flag = flag) :
    hasFlag (withoutTrunc mode) flag = hasFlag mode flag := by
  rw [hasFlag, hasFlag, withoutTrunc, UInt32.and_assoc, h]

@[simp] theorem hasFlag_withoutTrunc_creat (mode : UInt32) :
    hasFlag (withoutTrunc mode) tfsOCreat = hasFlag mode tfsOCreat :=
  hasFlag_withoutTrunc_of (by decide)

@[simp] theorem hasFlag_withoutTrunc_append (mode : UInt32) :
    hasFlag (withoutTrunc mode) tfsOAppend = hasFlag mode tfsOAppend :=
  hasFlag_withoutTrunc_of (by decide)

/-- The store of `Fs.Store` does not look at the flag. -/
theorem storeStep_withoutTrunc (p : TfsParams) (a : Store) (path : CStr) (mode : UInt32) :
    storeStep p a (.tfsOpen (some path) (withoutTrunc mode)) =
      storeStep p a (.tfsOpen (some path) mode) := by
  simp only [storeStep, Store.openFile, hasFlag_withoutTrunc_creat, hasFlag_withoutTrunc_append]

/-! ## Truncation -/

section
variable {p : TfsParams} {s : Tfs} {a : Store}

theorem fileBytes_truncated_self (i : Nat) : fileBytes (truncated s i) i = [] := by
  apply fileBytes_empty
  unfold truncated
  split
  · rw [Region.set_cell_self]
  · omega

theorem fileBytes_truncated {i k : Nat} (hk : k ≠ i) :
    fileBytes (truncated s i) k = fileBytes s k := by
  unfold truncated
  split
  · exact fileBytes_congr rfl (Region.set_cell_ne _ _ hk) fun _ _ => rfl
  · rfl

/-- A truncation leaves the open files and the parameters. -/
theorem truncated_frame (s : Tfs) (i : Nat) :
    (truncated s i).freeOpenFileEntries = s.freeOpenFileEntries ∧
      (truncated s i).openFileTable = s.openFileTable ∧
      (truncated s i).fsParams = s.fsParams := by
  unfold truncated
  split
  · exact ⟨rfl, rfl, rfl⟩
  · exact ⟨rfl, rfl, rfl⟩

theorem truncated_inode_ne {i l : Nat} (h : l ≠ i) :
    (truncated s i).inodeTable.cell l = s.inodeTable.cell l := by
  unfold truncated
  split
  · exact Region.set_cell_ne _ _ h
  · rfl

variable (hR : Refines p s a)

include hR

/-- A handle on the file `name`. -/
theorem Refines.mem_opened {fhandle : Int} {name : CStr} {h i j : Nat} (hh : OpenOn s fhandle h i)
    (hn : Named s name j i) : ⟨name, (s.openFileTable.cell h).ofOffset⟩ ∈ a.opened := by
  obtain ⟨name', j', hn', hs, -⟩ := hR.openOn hh
  obtain ⟨rfl, -⟩ := hR.inv.named_inode hn hn'
  exact Store.mem_opened hs

theorem refines_truncated {name : CStr} {i j : Nat} (hn : Named s name j i)
    (hstart : ∀ fhandle h, OpenOn s fhandle h i → (s.openFileTable.cell h).ofOffset = 0) :
    Refines p (truncated s i) { a with files := a.files.insert name [] } := by
  have hI := hR.inv
  obtain ⟨hf, ht⟩ := hI.named_file hn
  obtain ⟨hentries, htable, hp⟩ := truncated_frame s i
  refine
    { inv := inv_truncated hI hf ht
      noLeak := noLeak_truncated hI hR.noLeak hf ht
      params := hp.trans hR.params
      named := fun name' j' i' hn' => ?_
      absent := fun name' ha' => ?_
      slotsLength := ?_
      freeSlot := fun k hk hfree => ?_
      takenSlot := fun k hk htaken => ?_ }
  · rw [named_truncated] at hn'
    by_cases hname : name' = name
    · subst hname
      obtain ⟨-, rfl⟩ := hI.named_unique hn hn'
      rw [fileBytes_truncated_self, Finmap.lookup_insert]
    · have hne : i' ≠ i := by
        rintro rfl
        exact hname (hI.named_inode hn' hn).1
      rw [fileBytes_truncated hne, Finmap.lookup_insert_of_ne _ hname]
      exact hR.named name' j' i' hn'
  · have habs : Absent s name' := by
      intro k hk hl
      rw [← truncated_fsData (s := s) i] at hl ⊢
      refine ha' k ?_ hl
      simpa only [Tfs.maxDirEntries, Tfs.blockSize, hp] using hk
    have hname : name' ≠ name := by
      rintro rfl
      exact habs j hn.1 hn.live hn.2.2
    rw [Finmap.lookup_insert_of_ne _ hname]
    exact hR.absent name' habs
  · rw [hR.slotsLength]
    simp only [Tfs.maxOpenFiles, hp]
  · rw [hentries] at hfree
    simp only [Tfs.maxOpenFiles, hp] at hk
    exact hR.freeSlot k hk hfree
  · rw [hentries] at htaken
    simp only [Tfs.maxOpenFiles, hp] at hk
    obtain ⟨name', j', l, hn', hl, hs, ho⟩ := hR.takenSlot k hk htaken
    refine ⟨name', j', l, named_truncated.mpr hn', ?_, ?_, ?_⟩
    · rw [htable]
      exact hl
    · rw [htable]
      exact hs
    · rw [htable]
      -- a handle on the file itself is at its first byte
      by_cases hli : l = i
      · subst hli
        rw [hstart k k ⟨⟨rfl, hk, htaken⟩, hl⟩]
        exact Nat.zero_le _
      · rw [truncated_inode_ne hli]
        exact ho

/-! ## Calls -/

/-- An open that truncates is the truncation of its file, if there is one, and then an open
without the flag. -/
theorem open_truncates {path : CStr} {mode : UInt32} {r : Ret} {s' : Tfs}
    (hv : validPathname (some path) = true) (hm : hasFlag mode tfsOTrunc = true)
    (hu : a.Permits (.tfsOpen (some path) mode)) (he : Effect s (.tfsOpen (some path) mode) r s') :
    ∃ s₁, Refines p s₁ (a.truncate path.tail) ∧
      Effect s₁ (.tfsOpen (some path) (withoutTrunc mode)) r s' := by
  have habsent : Absent s path.tail → a.truncate path.tail = a := by
    intro ha
    have hno : ¬ path.tail ∈ a.files := Finmap.lookup_eq_none.mp (hR.absent _ ha)
    exact if_neg hno
  cases he with
  | openBad hv' =>
    rw [hv] at hv'
    cases hv'
  | openAbsent hv ha hc =>
    rw [habsent ha]
    exact ⟨s, hR, .openAbsent hv ha (by simpa using hc)⟩
  | openNoInode hv ha hc hi =>
    rw [habsent ha]
    exact ⟨s, hR, .openNoInode hv ha (by simpa using hc) hi⟩
  | openNoEntry i hv ha hc hi hn =>
    rw [habsent ha]
    exact ⟨s, hR, .openNoEntry i hv ha (by simpa using hc) hi hn⟩
  | openCreate i j hv ha hc hi hn hj hr =>
    rw [habsent ha]
    exact ⟨s, hR, .openCreate i j hv ha (by simpa using hc) hi hn hj hr⟩
  | openFound j i hv hn h₁ hr =>
    rw [if_pos hm] at h₁
    subst h₁
    have hyes : path.tail ∈ a.files := hR.mem_files.mpr ⟨j, i, hn⟩
    refine ⟨truncated s i, ?_, .openFound j i hv (named_truncated.mpr hn) ?_ (by simpa using hr)⟩
    · rw [Store.truncate, if_pos hyes]
      apply refines_truncated hR hn
      intro fhandle h hh
      exact hu hm _ (hR.mem_opened hh hn) rfl
    · rw [hasFlag_withoutTrunc, if_neg (by decide)]

/-- All other calls that are permitted are as the broker makes them. -/
theorem permits_brokerUse {c : Call} (hu : a.Permits c)
    (hopen : ∀ name mode, c ≠ .tfsOpen name mode) : BrokerUse s c := by
  cases c with
  | tfsOpen name mode => exact absurd rfl (hopen name mode)
  | tfsClose fhandle => trivial
  | tfsWrite fhandle buffer toWrite => exact hu
  | tfsRead fhandle len => exact hu
  | tfsUnlink target =>
    cases target with
    | none => trivial
    | some path =>
      intro _ j i hn fhandle h hh
      exact hu _ (hR.mem_opened hh hn) rfl

theorem permits_exec {c : Call} (hb : p.blockSize < 2 ^ 63) (hu : a.Permits c) :
    ∃ s', exec s c = ok ((fileStep p a c).1, s') ∧ Refines p s' (fileStep p a c).2 := by
  cases c with
  | tfsOpen name mode =>
    obtain ⟨v, t, h, -⟩ := tfsOpen_effect hR.inv name mode
    have hexec : exec s (.tfsOpen name mode) = ok (⟨v, []⟩, t) := by
      simp only [exec, h, ok_bind, pure_eq]
    have he := exec_effect hR.inv hexec
    cases name with
    | none =>
      cases he with
      | openBad hv => exact ⟨s, hexec, hR⟩
    | some path =>
      by_cases hm : validPathname (some path) = true ∧ hasFlag mode tfsOTrunc = true
      · obtain ⟨s₁, hR₁, he₁⟩ := open_truncates hR hm.1 hm.2 hu he
        obtain ⟨hr, hR'⟩ := open_refines hR₁ (hasFlag_withoutTrunc mode) he₁
        rw [storeStep_withoutTrunc] at hr hR'
        simp only [fileStep, if_pos hm]
        exact ⟨t, by rw [hexec, hr], hR'⟩
      · simp only [fileStep, if_neg hm]
        cases hv : validPathname (some path) with
        | false =>
          cases he with
          | openBad hv' =>
            simp only [storeStep, hv, Bool.false_eq_true, if_false]
            exact ⟨s, hexec, hR⟩
          | openAbsent hv' => rw [hv] at hv'; cases hv'
          | openNoInode hv' => rw [hv] at hv'; cases hv'
          | openNoEntry i hv' => rw [hv] at hv'; cases hv'
          | openCreate i j hv' => rw [hv] at hv'; cases hv'
          | openFound j i hv' => rw [hv] at hv'; cases hv'
        | true =>
          have hno : hasFlag mode tfsOTrunc = false := by
            rw [← Bool.not_eq_true]
            exact fun h => hm ⟨hv, h⟩
          obtain ⟨hr, hR'⟩ := open_refines hR hno he
          exact ⟨t, by rw [hexec, hr], hR'⟩
  | tfsClose fhandle => exact refines_exec hR hb (permits_brokerUse hR hu fun _ _ h => by cases h)
  | tfsWrite fhandle buffer toWrite =>
    exact refines_exec hR hb (permits_brokerUse hR hu fun _ _ h => by cases h)
  | tfsRead fhandle len =>
    exact refines_exec hR hb (permits_brokerUse hR hu fun _ _ h => by cases h)
  | tfsUnlink target =>
    exact refines_exec hR hb (permits_brokerUse hR hu fun _ _ h => by cases h)

end

/-! ## Runs -/

theorem run_permits {p : TfsParams} {s : Tfs} {a : Store} {cs : List Call} (hR : Refines p s a)
    (hb : p.blockSize < 2 ^ 63) (hu : Permitted (fileStep p) Store.Permits a cs) :
    ∃ s', run exec s cs = ok ((arun (fileStep p) a cs).1, s') ∧
      Refines p s' (arun (fileStep p) a cs).2 := by
  have hstep : ∀ s a c, Refines p s a → a.Permits c →
      ∃ s', exec s c = ok ((fileStep p a c).1, s') ∧ Refines p s' (fileStep p a c).2 :=
    fun _ _ _ hR hu => permits_exec hR hb hu
  exact run_permitted hstep hR hu

section
variable {s₀ s₁ : Tfs} {m : Mallocs} {params : Option TfsParams} {p : TfsParams}

theorem refines_tfsInit (hparams : p = params.getD tfsDefaultParams) (hp : GoodParams p)
    (hinit : tfsInit s₀ m params = ok (0, s₁)) : Refines p s₁ (.init p) := by
  subst hparams
  obtain ⟨hini, heq, -⟩ := tfsInit_initial hp hinit
  have hR := refines_initial hini
  rwa [heq] at hR

/-- The answers of permitted calls to a new file system are those of the store, and the state is
the store's. -/
theorem permits_run {cs : List Call} (hparams : p = params.getD tfsDefaultParams)
    (hp : GoodParams p) (hb : p.blockSize < 2 ^ 63) (hinit : tfsInit s₀ m params = ok (0, s₁))
    (hu : Permitted (fileStep p) Store.Permits (.init p) cs) :
    ∃ s, run exec s₁ cs = ok ((arun (fileStep p) (.init p) cs).1, s) ∧
      Refines p s (arun (fileStep p) (.init p) cs).2 :=
  run_permits (refines_tfsInit hparams hp hinit) hb hu

end

/-- `/a` is written, and emptied while a second handle is at its first byte. -/
def truncateCalls : List Call :=
  [.tfsOpen (some pathA) tfsOCreat, .tfsWrite 0 (fun k => UInt8.ofNat k) 5,
    .tfsOpen (some pathA) 0, .tfsClose 0, .tfsOpen (some pathA) tfsOTrunc, .tfsRead 1 9]

theorem permits_run_truncate : ∃ s,
    run exec smallDisk truncateCalls =
      ok ((arun (fileStep smallParams) (.init smallParams) truncateCalls).1, s) ∧
    Refines smallParams s (arun (fileStep smallParams) (.init smallParams) truncateCalls).2 := by
  have hparams : smallParams = (some smallParams).getD tfsDefaultParams := rfl
  refine permits_run hparams smallParams_good (by decide) smallDisk_init ?_
  decide

end Mbroker
