import Mathlib.Data.Set.Finite.Lattice
import Mbroker.Fs.Refine
import Mbroker.Fs.History
import Mbroker.Fs.Structure

/-!
# The root directory as a finite map

`find_in_dir` skips entries by `d_inumber`, `clear_dir_entry` compares every name it
comes to.  They stop at the same slot all the same: slots are filled first fit and a
cleared slot has the empty name, so the slots before a live one are not fresh memory
(`EverFilled`).  Hence the directory is a map from names to inumbers (`dirMap`), which
`tfs_open` with `TFS_O_CREAT` and `tfs_unlink` update.

    unlink_lookup_run : `tfs_unlink` succeeds iff `find_in_dir` finds the name, and
      clears that slot only, having compared filled slots only
-/

namespace Mbroker

open CLib CLib.Outcome

/-- What `find_in_dir` answers about the root directory. -/
def dirMap (s : Tfs) (name : CStr) : Option Int :=
  match findInDir s 0 name with
  | .ok d => if d = -1 then none else some d
  | _ => none

/-- The path `"/" + name`. -/
def slash (name : CStr) : CStr :=
  ⟨47 :: name.toList, fun c hc => by
    rcases List.mem_cons.mp hc with rfl | hc
    · decide
    · exact name.nonul c hc⟩

/-- `find_in_dir` stops at slot `j`. -/
def FoundAt (s : Tfs) (name : CStr) (j : Nat) : Prop :=
  FirstAt (fun j => Live s.fsData 0 j ∧ slotName s.fsData 0 j = name.toList) s.maxDirEntries j

/-- The loop of `clear_dir_entry` comes to slot `k`. -/
def Compared (s : Tfs) (name : CStr) (k : Nat) : Prop :=
  k < s.maxDirEntries ∧ ∀ k', k' < k → strcmpEq s.fsData (dName 0 k') name = ok false

/-- Slot `k` held an entry at some time of the run `cs` from `s₁`. -/
def EverFilled (s₁ : Tfs) (cs : List Call) (k : Nat) : Prop :=
  ∃ pre rs s, pre <+: cs ∧ run exec s₁ pre = ok (rs, s) ∧ Live s.fsData 0 k

/-! ## The map -/

section
variable {s s' : Tfs} {name : CStr}

theorem validPathname_slash (h : name.toList ≠ []) : validPathname (some (slash name)) = true := by
  have hlen : 0 < name.toList.length := List.length_pos_iff.mpr h
  simp [validPathname, slash, CStr.strlen, hlen]

theorem dirMap_named (hI : Inv s) {j i : Nat} (h : Named s name j i) :
    dirMap s name = some (i : Int) := by
  unfold dirMap
  rw [findInDir_named hI.sane hI.root h]
  exact if_neg (by omega)

theorem dirMap_absent (hI : Inv s) (h : Absent s name) : dirMap s name = none := by
  unfold dirMap
  rw [findInDir_absent hI.sane hI.root h]
  exact if_pos rfl

theorem dirMap_eq_some (hI : Inv s) {d : Int} :
    dirMap s name = some d ↔ ∃ j i : Nat, Named s name j i ∧ d = i := by
  constructor
  · intro h
    rcases hI.named_or_absent name with ⟨j, i, hn⟩ | ha
    · rw [dirMap_named hI hn] at h
      exact ⟨j, i, hn, (Option.some.inj h).symm⟩
    · rw [dirMap_absent hI ha] at h
      cases h
  · rintro ⟨j, i, hn, rfl⟩
    exact dirMap_named hI hn

theorem dirMap_eq_none (hI : Inv s) : dirMap s name = none ↔ Absent s name := by
  constructor
  · intro h
    rcases hI.named_or_absent name with ⟨j, i, hn⟩ | ha
    · rw [dirMap_named hI hn] at h
      cases h
    · exact ha
  · exact dirMap_absent hI

/-- At most as many names as the directory has entries. -/
theorem dirMap_finite (hI : Inv s) : {name | dirMap s name ≠ none}.Finite := by
  have hslots : {name | dirMap s name ≠ none} ⊆
      (fun j => (⟨slotName s.fsData 0 j, cstr_nonul _ _ _⟩ : CStr)) '' Set.Iio s.maxDirEntries := by
    intro name hname
    obtain ⟨d, hd⟩ := Option.ne_none_iff_exists'.mp hname
    obtain ⟨j, i, hn, -⟩ := (dirMap_eq_some hI).mp hd
    exact ⟨j, hn.1, CStr.ext' hn.2.2⟩
  exact ((Set.finite_Iio s.maxDirEntries).image _).subset hslots

theorem dirMap_congr (hI : Inv s) (hI' : Inv s')
    (h : ∀ name j i, Named s' name j i ↔ Named s name j i) : dirMap s' = dirMap s := by
  funext name
  refine Option.ext fun d => ?_
  rw [dirMap_eq_some hI', dirMap_eq_some hI]
  simp only [h]

/-! ## What a call does to it -/

theorem AddHandle.fsData {i offset : Nat} {r : Int} (h : AddHandle s i offset r s') :
    s'.fsData = s.fsData := by
  cases h with
  | full hh => rfl
  | slot h hh => rfl

theorem AddHandle.named {i offset j k : Nat} {r : Int} (h : AddHandle s i offset r s') :
    Named s' name j k ↔ Named s name j k := by
  cases h with
  | full hh => exact Iff.rfl
  | slot h hh => exact Iff.rfl

theorem truncated_fsData (i : Nat) : (truncated s i).fsData = s.fsData := by
  unfold truncated
  split
  · rfl
  · rfl

theorem named_truncated {i j k : Nat} : Named (truncated s i) name j k ↔ Named s name j k := by
  unfold truncated
  split
  · exact Iff.rfl
  · exact Iff.rfl

/-- The new entry, in the map of the state behind `add_dir_entry`. -/
theorem dirMap_created (hI : Inv s) {i j : Nat} (hI' : Inv (created s i j name))
    (hi : i < 2 ^ 31) (hn : name.strlen ≤ 39) (ha : Absent s name) (hj : j < s.maxDirEntries)
    (hfree : ¬ Live s.fsData 0 j) :
    dirMap (created s i j name) = Function.update (dirMap s) name (some (i : Int)) := by
  funext name'
  by_cases hname : name' = name
  · subst hname
    rw [Function.update_self]
    exact dirMap_named hI' (named_created_self hj hi hn)
  · rw [Function.update_of_ne hname]
    refine Option.ext fun d => ?_
    rw [dirMap_eq_some hI', dirMap_eq_some hI]
    constructor
    · rintro ⟨j', i', h, rfl⟩
      rcases named_created hi hn h with ⟨he, -⟩ | ⟨-, h⟩
      · exact absurd he hname
      · exact ⟨j', i', h, rfl⟩
    · rintro ⟨j', i', h, rfl⟩
      exact ⟨j', i', named_created_other hfree h, rfl⟩

theorem dirMap_unlinked (hI : Inv s) {i j : Nat} (hn : Named s name j i) :
    dirMap (unlinked s i j) = Function.update (dirMap s) name none := by
  have hI' := inv_unlinked hI hn
  funext name'
  by_cases hname : name' = name
  · subst hname
    rw [Function.update_self, dirMap_eq_none hI']
    intro k hk hl he
    obtain ⟨i', hi', -⟩ := hI'.liveInode k hk hl
    obtain ⟨hkj, h⟩ := named_unlinked.mp (show Named (unlinked s i j) name' k i' from ⟨hk, hi', he⟩)
    exact hkj (hI.named_unique h hn).1
  · rw [Function.update_of_ne hname]
    refine Option.ext fun d => ?_
    rw [dirMap_eq_some hI', dirMap_eq_some hI]
    constructor
    · rintro ⟨j', i', h, rfl⟩
      exact ⟨j', i', (named_unlinked.mp h).2, rfl⟩
    · rintro ⟨j', i', h, rfl⟩
      refine ⟨j', i', named_unlinked.mpr ⟨fun e => ?_, h⟩, rfl⟩
      subst e
      exact hname (CStr.ext' (h.2.2.symm.trans hn.2.2))

end

/-- `tfs_open` is to create `path`, which is short enough, and an inode and an entry are free. -/
def Insertable (s : Tfs) (path : CStr) (mode : UInt32) : Prop :=
  validPathname (some path) = true ∧ hasFlag mode tfsOCreat = true ∧
    path.tail.strlen ≤ maxFileName - 1 ∧ (∃ i, i < s.inodeTableSize ∧ s.freeinodeTs.cell i = .free) ∧
    ∃ j, j < s.maxDirEntries ∧ slotInum s.fsData 0 j = -1

/-- `tfs_open` leaves the map or inserts the name with an inumber that no name has, and opens
what the name then stands for; it inserts an absent name just when there is room for it.
`tfs_unlink` erases the name; the others leave the map. -/
def DirStep (s : Tfs) (c : Call) (r : Ret) (s' : Tfs) : Prop :=
  match c with
  | .tfsOpen (some path) mode =>
    (dirMap s' = dirMap s ∨
      (hasFlag mode tfsOCreat = true ∧ dirMap s path.tail = none ∧ ∃ i : Nat,
        (∀ name, dirMap s name ≠ some (i : Int)) ∧
        dirMap s' = Function.update (dirMap s) path.tail (some (i : Int)))) ∧
    (dirMap s path.tail = none → (dirMap s' path.tail ≠ none ↔ Insertable s path mode)) ∧
    (0 ≤ r.val → ∃ h i : Nat, OpenOn s' r.val h i ∧ dirMap s' path.tail = some (i : Int))
  | .tfsUnlink (some path) =>
    dirMap s' = if r.val = 0 then Function.update (dirMap s) path.tail none else dirMap s
  | _ => dirMap s' = dirMap s

section
variable {s s' : Tfs}

/-- The handle that `tfs_open` returns is open on its inode. -/
theorem AddHandle.openOn {i offset : Nat} {r : Int} (h : AddHandle s i offset r s') (hr : 0 ≤ r) :
    ∃ k, OpenOn s' r k i := by
  cases h with
  | full hh => omega
  | slot h hh =>
    refine ⟨h, ⟨rfl, hh.1, ?_⟩, ?_⟩
    · simp [handleAdded]
    · simp [handleAdded]

/-- Nothing is inserted where there is no room. -/
theorem dirStep_notInserted {path : CStr} {mode : UInt32} {r : Ret}
    (hmap : dirMap s' = dirMap s) (hr : ¬ 0 ≤ r.val) (hno : ¬ Insertable s path mode) :
    DirStep s (.tfsOpen (some path) mode) r s' :=
  ⟨Or.inl hmap, fun hnone => iff_of_false (fun h => h (by rw [hmap, hnone])) hno,
    fun h0 => absurd h0 hr⟩

theorem dirStep_openCreate (hI : Inv s) (hI' : Inv s') {path : CStr} {mode : UInt32} {i j : Nat}
    {r : Int} (hv : validPathname (some path) = true) (ha : Absent s path.tail)
    (hm : hasFlag mode tfsOCreat = true)
    (hi : FirstAt (fun i => s.freeinodeTs.cell i = .free) s.inodeTableSize i)
    (hn : 1 ≤ path.tail.strlen ∧ path.tail.strlen ≤ 39)
    (hj : FirstAt (fun j => ¬ Live s.fsData 0 j) s.maxDirEntries j)
    (hr : AddHandle (created s i j path.tail) i 0 r s') :
    DirStep s (.tfsOpen (some path) mode) ⟨r, []⟩ s' := by
  have hlt : i < 2 ^ 31 := by have := hI.sane.inodeInt; have := hi.1; omega
  have hIc := inv_created hI hi hn ha hj
  have hmap : dirMap s' = Function.update (dirMap s) path.tail (some (i : Int)) := by
    rw [dirMap_congr hIc hI' (fun _ _ _ => hr.named)]
    exact dirMap_created hI hIc hlt hn.2 ha hj.1 hj.2.1
  have hfree : ∀ name, dirMap s name ≠ some (i : Int) := by
    intro name hname
    obtain ⟨j', i', hn', he⟩ := (dirMap_eq_some hI).mp hname
    have hii : i = i' := by omega
    subst hii
    have htaken := (hI.named_file hn').2
    rw [hi.2.1] at htaken
    cases htaken
  have hfits : path.tail.strlen ≤ maxFileName - 1 := hn.2
  refine ⟨Or.inr ⟨hm, dirMap_absent hI ha, i, hfree, hmap⟩, fun _ => ?_, fun h0 => ?_⟩
  · rw [hmap, Function.update_self]
    exact iff_of_true nofun ⟨hv, hm, hfits, ⟨i, hi.1, hi.2.1⟩,
      j, hj.1, Classical.not_not.mp hj.2.1⟩
  obtain ⟨h, hh⟩ := hr.openOn h0
  exact ⟨h, i, hh, by rw [hmap, Function.update_self]⟩

theorem dirStep_openFound (hI : Inv s) (hI' : Inv s') {path : CStr} {mode : UInt32} {i j : Nat}
    {r : Int} {s₁ : Tfs} (hn : Named s path.tail j i)
    (h₁ : s₁ = if hasFlag mode tfsOTrunc then truncated s i else s)
    (hr : AddHandle s₁ i (if hasFlag mode tfsOAppend then (s₁.inodeTable.cell i).iSize else 0)
      r s') : DirStep s (.tfsOpen (some path) mode) ⟨r, []⟩ s' := by
  have hnamed : ∀ name j' i', Named s' name j' i' ↔ Named s name j' i' := by
    intro name j' i'
    rw [hr.named, h₁]
    split
    · exact named_truncated
    · exact Iff.rfl
  refine ⟨Or.inl (dirMap_congr hI hI' hnamed), fun hnone => ?_, fun h0 => ?_⟩
  · rw [dirMap_named hI hn] at hnone
    cases hnone
  obtain ⟨h, hh⟩ := hr.openOn h0
  exact ⟨h, i, hh, dirMap_named hI' ((hnamed _ _ _).mpr hn)⟩

theorem effect_dirStep (hI : Inv s) {c : Call} {r : Ret} (h : Effect s c r s') :
    DirStep s c r s' := by
  have hI' := effect_inv hI h
  cases h with
  | @openBad name mode hv =>
    cases name with
    | none => rfl
    | some path =>
      refine dirStep_notInserted rfl (by decide) fun ⟨hvalid, _⟩ => ?_
      rw [hv] at hvalid
      cases hvalid
  | openAbsent hv ha hm =>
    refine dirStep_notInserted rfl (by decide) fun ⟨_, hcreat, _⟩ => ?_
    rw [hm] at hcreat
    cases hcreat
  | openNoInode hv ha hm hi =>
    refine dirStep_notInserted rfl (by decide) fun ⟨_, _, _, ⟨i, hlt, hfree⟩, _⟩ => ?_
    exact hi i hlt hfree
  | @openNoEntry path mode i hv ha hm hi hn =>
    refine dirStep_notInserted (dirMap_congr hI hI' fun _ _ _ => Iff.rfl) (by decide)
      fun ⟨_, _, hfits, _, j, hlt, hj⟩ => ?_
    rcases hn with hlong | hfull
    · have hfits : path.tail.strlen ≤ 39 := hfits
      omega
    · exact hfull j hlt hj
  | openCreate i j hv ha hm hi hn hj hr => exact dirStep_openCreate hI hI' hv ha hm hi hn hj hr
  | openFound j i hv hn h₁ hr => exact dirStep_openFound hI hI' hn h₁ hr
  | closeBad hh => rfl
  | close h hh => exact dirMap_congr hI hI' fun _ _ _ => Iff.rfl
  | writeBad hh => rfl
  | writeZero h i hh hn => rfl
  | writeNoBlock h i hh hn hz hb => rfl
  | write h i b n hh hn hclamp hmin hb hnew hold =>
    exact dirMap_congr hI hI' fun _ _ _ => named_written hb.1
  | readBad hh => rfl
  | readZero h i hh hn => rfl
  | read h i b n hh hn hlen hb hin => exact dirMap_congr hI hI' fun _ _ _ => Iff.rfl
  | @unlinkBad target hv =>
    cases target with
    | none => rfl
    | some path => exact (if_neg (by decide)).symm
  | unlinkAbsent hv ha => exact (if_neg (by decide)).symm
  | unlink j i hv hn => exact (dirMap_unlinked hI hn).trans (if_pos rfl).symm

/-! ## Slots that were filled -/

/-- A call fills at most the first slot that is not live. -/
theorem effect_live {c : Call} {r : Ret} (h : Effect s c r s') {j : Nat}
    (hj : j < s.maxDirEntries) (hl : Live s'.fsData 0 j) :
    Live s.fsData 0 j ∨ ∀ k, k < j → Live s.fsData 0 k := by
  cases h with
  | openBad hv => exact Or.inl hl
  | openAbsent hv ha hm => exact Or.inl hl
  | openNoInode hv ha hm hi => exact Or.inl hl
  | openNoEntry i hv ha hm hi hn => exact Or.inl hl
  | openCreate i k hv ha hm hi hn hk hr =>
    rw [hr.fsData] at hl
    by_cases hjk : j = k
    · subst hjk
      exact Or.inr fun k' hk' => Classical.not_not.mp (hk.2.2 k' hk')
    · exact Or.inl ((live_created (s := s) (i := i) hjk).mp hl)
  | openFound k i hv hn h₁ hr =>
    have hdata : s'.fsData = s.fsData := by
      rw [hr.fsData, h₁]
      split
      · exact truncated_fsData i
      · rfl
    exact Or.inl (hdata ▸ hl)
  | closeBad hh => exact Or.inl hl
  | close h hh => exact Or.inl hl
  | writeBad hh => exact Or.inl hl
  | writeZero h i hh hn => exact Or.inl hl
  | writeNoBlock h i hh hn hz hb => exact Or.inl hl
  | write h i b n hh hn hclamp hmin hb hnew hold =>
    exact Or.inl ((live_congr (slot_written _ hb.1 hj).1).mp hl)
  | readBad hh => exact Or.inl hl
  | readZero h i hh hn => exact Or.inl hl
  | read h i b n hh hn hlen hb hin => exact Or.inl hl
  | unlinkBad hv => exact Or.inl hl
  | unlinkAbsent hv ha => exact Or.inl hl
  | unlink k i hv hn =>
    exact Or.inl (live_unlinked hl).2

end

/-- Every slot up to a live one was filled. -/
theorem everFilled_run {s₁ : Tfs} (hini : Initial s₁) :
    ∀ {cs : List Call} {rs : List Ret} {s : Tfs}, run exec s₁ cs = ok (rs, s) →
      s.maxDirEntries = s₁.maxDirEntries ∧
      ∀ j k, j < s.maxDirEntries → Live s.fsData 0 j → k ≤ j → EverFilled s₁ cs k := by
  intro cs
  induction cs using List.reverseRecOn with
  | nil =>
    intro rs s hrun
    simp only [run, ok.injEq, Prod.mk.injEq] at hrun
    obtain ⟨-, rfl⟩ := hrun
    exact ⟨rfl, fun j k hj hl _ => absurd hl (hini.noFile j hj)⟩
  | append_singleton cs c ih =>
    intro rs s' hrun
    obtain ⟨rs₁, s, rs₂, hcs, hlast, -⟩ := run_append_eq_ok hrun
    obtain ⟨r, s'', rs₃, hc, hnil, -⟩ := run_cons_eq_ok hlast
    simp only [run, ok.injEq, Prod.mk.injEq] at hnil
    obtain ⟨-, rfl⟩ := hnil
    obtain ⟨hsize, hfilled⟩ := ih hcs
    have hI := run_exec_inv hini.inv hcs
    have heff := exec_effect hI hc
    have hparams : s''.maxDirEntries = s.maxDirEntries := by
      unfold Tfs.maxDirEntries Tfs.blockSize
      rw [(effect_shape hI heff).size]
    have hnow : ∀ k, Live s.fsData 0 k → EverFilled s₁ (cs ++ [c]) k :=
      fun k hk => ⟨cs, rs₁, s, List.prefix_append _ _, hcs, hk⟩
    refine ⟨hparams.trans hsize, fun j k hj hl hkj => ?_⟩
    rw [hparams] at hj
    rcases effect_live heff hj hl with hold | hbefore
    · obtain ⟨pre, rs', t, hpre, ht, hk⟩ := hfilled j k hj hold hkj
      exact ⟨pre, rs', t, hpre.trans (List.prefix_append _ _), ht, hk⟩
    · rcases Nat.lt_or_eq_of_le hkj with hlt | rfl
      · exact hnow k (hbefore k hlt)
      · exact ⟨cs ++ [c], rs, s'', List.prefix_refl _, hrun, hl⟩

/-! ## Lookup and unlink -/

/-- `tfs_unlink` behind the run `cs` of a name that `find_in_dir` finds, at slot `j`. -/
structure UnlinkedAt (s₁ : Tfs) (cs : List Call) (s : Tfs) (name : CStr) (s' : Tfs) (j : Nat) :
    Prop where
  found : FoundAt s name j
  inumber : findInDir s 0 name = ok (slotInum s.fsData 0 j)
  cleared : ∃ s₂, inodeDelete s (slotInum s.fsData 0 j) = ok s₂ ∧ s₂.fsData = s.fsData ∧
    clearDirEntry s₂ 0 name = ok (0, s')
  slot : s'.fsData = clearEntry s.fsData 0 j
  compared : ∀ k, Compared s name k → EverFilled s₁ cs k
  gone : findInDir s' 0 name = ok (-1)
  others : ∀ name', name' ≠ name → findInDir s' 0 name' = findInDir s 0 name'

section
variable {s : Tfs}

theorem foundAt_named (hI : Inv s) {name : CStr} {j i : Nat} (hn : Named s name j i) :
    FoundAt s name j := by
  refine ⟨hn.1, ⟨hn.live, hn.2.2⟩, fun k hk ⟨hl, he⟩ => ?_⟩
  have := hI.root.dir.names k j (by have := hn.1; omega) hn.1 hl hn.live (he.trans hn.2.2.symm)
  omega

/-- The loop of `clear_dir_entry` ends at the slot that `find_in_dir` finds. -/
theorem Compared.le (hI : Inv s) {name : CStr} {j i k : Nat} (hn : Named s name j i)
    (h : Compared s name k) : k ≤ j := by
  by_contra hlt
  have hstop := h.2 j (by omega)
  rw [strcmpEq_slot hI.root.dir hn.1 (Or.inl hn.live), hn.2.2] at hstop
  simp at hstop

theorem findInDir_of_dirMap {s' : Tfs} (hI : Inv s) (hI' : Inv s') {name : CStr}
    (h : dirMap s' name = dirMap s name) : findInDir s' 0 name = findInDir s 0 name := by
  rcases hI.named_or_absent name with ⟨j, i, hn⟩ | ha
  · rw [dirMap_named hI hn] at h
    obtain ⟨j', i', hn', he⟩ := (dirMap_eq_some hI').mp h
    rw [findInDir_named hI'.sane hI'.root hn', findInDir_named hI.sane hI.root hn, he]
  · rw [dirMap_absent hI ha] at h
    rw [findInDir_absent hI'.sane hI'.root ((dirMap_eq_none hI').mp h),
      findInDir_absent hI.sane hI.root ha]

theorem unlinkedAt_named {s₁ : Tfs} {cs : List Call} {rs : List Ret} (hini : Initial s₁)
    (hrun : run exec s₁ cs = ok (rs, s)) {name : CStr} {j i : Nat} (hn : Named s name j i) :
    UnlinkedAt s₁ cs s name (unlinked s i j) j := by
  have hI := run_exec_inv hini.inv hrun
  have hI' := inv_unlinked hI hn
  obtain ⟨hf, ht⟩ := hI.named_file hn
  have hmap := dirMap_unlinked hI hn
  refine ⟨foundAt_named hI hn, ?_, ⟨inodeFreed s i, ?_, rfl, ?_⟩, rfl, fun k hk => ?_, ?_,
    fun name' hname => ?_⟩
  · rw [findInDir_named hI.sane hI.root hn, hn.2.1]
  · rw [hn.2.1]
    exact inodeDelete_ok hI.sane hf.2 ht (hI.fileBlock hf ht)
  · exact clearDirEntry_freed hI hn
  · exact (everFilled_run hini hrun).2 j k hn.1 hn.live (hk.le hI hn)
  · refine findInDir_absent hI'.sane hI'.root ((dirMap_eq_none hI').mp ?_)
    rw [hmap, Function.update_self]
  · refine findInDir_of_dirMap hI hI' ?_
    rw [hmap, Function.update_of_ne hname]

end

/-- Whatever the bytes of fresh memory are, and also when files are unlinked or truncated while
they are open. -/
theorem unlink_lookup_run {s₀ s₁ s : Tfs} {m : Mallocs} {p : Option TfsParams} {cs : List Call}
    {rs : List Ret} (hp : GoodParams (p.getD tfsDefaultParams))
    (hinit : tfsInit s₀ m p = ok (0, s₁)) (hrun : run exec s₁ cs = ok (rs, s)) :
    (∀ name, name.toList ≠ [] → ∃ d r s', findInDir s 0 name = ok d ∧
      exec s (.tfsUnlink (some (slash name))) = ok (r, s') ∧ (r.val = 0 ↔ d ≠ -1) ∧
      (d = -1 → s' = s) ∧ (d ≠ -1 → ∃ j, UnlinkedAt s₁ cs s name s' j)) ∧
    {name | dirMap s name ≠ none}.Finite ∧
    ∀ c r s', exec s c = ok (r, s') → DirStep s c r s' := by
  have hini := (tfsInit_initial hp hinit).1
  have hI := run_exec_inv hini.inv hrun
  refine ⟨fun name hname => ?_, dirMap_finite hI,
    fun c r s' h => effect_dirStep hI (exec_effect hI h)⟩
  have hv := validPathname_slash hname
  rcases hI.named_or_absent name with ⟨j, i, hn⟩ | ha
  · refine ⟨i, ⟨0, []⟩, unlinked s i j, findInDir_named hI.sane hI.root hn,
      effect_exec hI (.unlink j i hv hn), ⟨fun _ => by omega, fun _ => rfl⟩, fun h => by omega,
      fun _ => ⟨j, unlinkedAt_named hini hrun hn⟩⟩
  · refine ⟨-1, ⟨-1, []⟩, s, findInDir_absent hI.sane hI.root ha,
      effect_exec hI (.unlinkAbsent hv ha), ⟨fun h => absurd h (by decide), fun h => absurd rfl h⟩,
      fun _ => rfl, fun h => absurd rfl h⟩

/-- `/a` is unlinked while it is open, and `/b` gets its slot. -/
theorem unlink_lookup_run_stale :
    (∀ name, name.toList ≠ [] → ∃ d r s', findInDir (stateAfter smallDisk staleCalls) 0 name = ok d ∧
      exec (stateAfter smallDisk staleCalls) (.tfsUnlink (some (slash name))) = ok (r, s') ∧
      (r.val = 0 ↔ d ≠ -1) ∧ (d = -1 → s' = stateAfter smallDisk staleCalls) ∧
      (d ≠ -1 → ∃ j, UnlinkedAt smallDisk staleCalls (stateAfter smallDisk staleCalls) name s' j)) ∧
    {name | dirMap (stateAfter smallDisk staleCalls) name ≠ none}.Finite ∧
    ∀ c r s', exec (stateAfter smallDisk staleCalls) c = ok (r, s') →
      DirStep (stateAfter smallDisk staleCalls) c r s' :=
  unlink_lookup_run (p := some smallParams) smallParams_good smallDisk_init
    (run_eq_answers (by decide +kernel))

end Mbroker
