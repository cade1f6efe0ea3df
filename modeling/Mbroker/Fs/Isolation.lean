import Mbroker.Fs.Identity

/-!
# What a reader of one file can learn about the others

Two runs make the same calls, but the bytes written through handles of other files
than `f`, and the first contents of `fs_data`, may differ.  As long as the calls meet
`IsolatedUse`, the two states differ in `fs_data` only, and there neither in the
directory nor in the content of `f`.

    isolated_run : reads on handles of `f` return the same in both runs
-/

namespace Mbroker

open CLib CLib.Outcome

def Tfs.withData (s : Tfs) (m : Region UInt8) : Tfs := { s with fsData := m }

def Call.isWrite : Call → Bool
  | .tfsWrite _ _ _ => true
  | _ => false

/-- The same call, or a write of other bytes, as many, to another file than `f`. -/
def SameCall (f : Nat) (sg : Tfs × History) (c d : Call) : Prop :=
  d = c ∨ ∃ fhandle buffer buffer' toWrite, c = .tfsWrite fhandle buffer toWrite ∧
    d = .tfsWrite fhandle buffer' toWrite ∧ ∀ h i, OpenOn sg.1 fhandle h i → sg.2.opened h ≠ f

/-- Handles of `f` that are read are not displaced and not past the end.  A write that could
reach the content of `f` is through a handle of `f` and leaves no hole. -/
def IsolatedUse (f : Nat) (sg : Tfs × History) : Call → Prop
  | .tfsRead fhandle len => ∀ h i, OpenOn sg.1 fhandle h i → sg.2.opened h = f → len = 0 ∨
      (sg.1.openFileTable.cell h).ofOffset = (sg.1.inodeTable.cell i).iSize ∨
      (sg.1.openFileTable.cell h).ofOffset < (sg.1.inodeTable.cell i).iSize ∧
        sg.2.displaced h = false
  | .tfsWrite fhandle _ toWrite => ∀ h i, OpenOn sg.1 fhandle h i → toWrite = 0 ∨
      sg.1.blockSize ≤ (sg.1.openFileTable.cell h).ofOffset ∨
      ∀ k, Held sg.1 sg.2 k → sg.2.file k = f →
        (k = i → sg.2.opened h = f ∧
          (sg.1.openFileTable.cell h).ofOffset ≤ (sg.1.inodeTable.cell i).iSize) ∧
        (k ≠ i → 0 < (sg.1.inodeTable.cell i).iSize → 0 < (sg.1.inodeTable.cell k).iSize →
          (sg.1.inodeTable.cell i).iDataBlock ≠ (sg.1.inodeTable.cell k).iDataBlock)
  | _ => True

/-! ## The directory -/

/-- The directory in `m` is that of `s`, up to the names of empty slots. -/
def SameDirectory (s : Tfs) (m : Region UInt8) : Prop :=
  ∀ j, j < s.maxDirEntries → slotInum m 0 j = slotInum s.fsData 0 j ∧
    (Live s.fsData 0 j → slotName m 0 j = slotName s.fsData 0 j)

section
variable {s : Tfs} {m : Region UInt8} (hd : SameDirectory s m)

include hd

theorem SameDirectory.live {j : Nat} (hj : j < s.maxDirEntries) :
    Live m 0 j ↔ Live s.fsData 0 j :=
  live_congr (hd j hj).1

theorem SameDirectory.named {name : CStr} {j i : Nat} (h : Named s name j i) :
    Named (s.withData m) name j i :=
  ⟨h.1, (hd j h.1).1.trans h.2.1, ((hd j h.1).2 h.live).trans h.2.2⟩

theorem SameDirectory.absent {name : CStr} (h : Absent s name) : Absent (s.withData m) name := by
  intro j hj hl he
  have hl' := (hd.live hj).mp hl
  exact h j hj hl' (((hd j hj).2 hl').symm.trans he)

theorem SameDirectory.firstFree {j : Nat}
    (hj : FirstAt (fun j => ¬ Live s.fsData 0 j) s.maxDirEntries j) :
    FirstAt (fun j => ¬ Live m 0 j) s.maxDirEntries j := by
  obtain ⟨hlt, hfree, hmin⟩ := hj
  refine ⟨hlt, fun hl => hfree ((hd.live hlt).mp hl), fun k hk hn => hmin k hk (fun hl => ?_)⟩
  exact hn ((hd.live (by omega)).mpr hl)

theorem SameDirectory.created {i j : Nat} {name : CStr} (hi : i < 2 ^ 31)
    (hn : name.strlen ≤ 39) : SameDirectory (created s i j name) (addEntry m 0 j name i) := by
  intro k hk
  simp only [Mbroker.created]
  by_cases hkj : k = j
  · subst hkj
    rw [addEntry_inum (by omega), addEntry_inum (by omega), addEntry_name hn, addEntry_name hn]
    exact ⟨rfl, fun _ => rfl⟩
  · rw [(addEntry_ne hkj).1, (addEntry_ne hkj).1, (addEntry_ne hkj).2, (addEntry_ne hkj).2,
      live_congr (addEntry_ne hkj).1]
    exact hd k hk

theorem SameDirectory.unlinked (i j : Nat) :
    SameDirectory (unlinked s i j) (clearEntry m 0 j) := by
  intro k hk
  simp only [Mbroker.unlinked]
  by_cases hkj : k = j
  · subst hkj
    rw [clearEntry_inum, clearEntry_inum]
    exact ⟨rfl, fun hl => absurd hl (clearEntry_not_live k)⟩
  · rw [(clearEntry_ne hkj).1, (clearEntry_ne hkj).1, (clearEntry_ne hkj).2, (clearEntry_ne hkj).2,
      live_congr (clearEntry_ne hkj).1]
    exact hd k hk

theorem SameDirectory.truncated (i : Nat) : SameDirectory (truncated s i) m := by
  unfold Mbroker.truncated
  split
  · exact hd
  · exact hd

theorem SameDirectory.written {h i b n : Nat} (buffer buffer' : Nat → UInt8) (hb : 0 < b) :
    SameDirectory (written s h i b buffer n) (written (s.withData m) h i b buffer' n).fsData := by
  intro j hj
  obtain ⟨h1, h2⟩ := slot_written (s := s) (h := h) (i := i) (n := n) buffer hb hj
  obtain ⟨h1', h2'⟩ := slot_written (s := s.withData m) (h := h) (i := i) (n := n) buffer' hb hj
  rw [h1, h1', h2, h2', live_congr h1]
  exact hd j hj

end

theorem truncated_withData (s : Tfs) (m : Region UInt8) (i : Nat) :
    truncated (s.withData m) i = (truncated s i).withData m := by
  unfold truncated
  split
  · next h => rw [if_pos (show 0 < (s.inodeTable.cell i).iSize from h)]; rfl
  · next h => rw [if_neg (show ¬ 0 < (s.inodeTable.cell i).iSize from h)]

section
variable {s s' : Tfs} {m : Region UInt8}

theorem AddHandle.withData {i offset : Nat} {r : Int} (h : AddHandle s i offset r s') :
    AddHandle (s.withData m) i offset r (s'.withData m) := by
  cases h with
  | full hh => exact .full hh
  | slot h hh => exact .slot h hh

theorem AddHandle.sameDirectory {i offset : Nat} {r : Int} (h : AddHandle s i offset r s')
    (hd : SameDirectory s m) : SameDirectory s' m := by
  cases h with
  | full hh => exact hd
  | slot h hh => exact hd

/-- What a call other than a write does depends on the directory and the tables only. -/
theorem effect_withData (hI : Inv s) (hd : SameDirectory s m) {c : Call} {r : Ret}
    (hc : c.isWrite = false) (h : Effect s c r s') :
    ∃ r' m', Effect (s.withData m) c r' (s'.withData m') ∧ SameDirectory s' m' := by
  cases h with
  | openBad hv => exact ⟨_, m, .openBad hv, hd⟩
  | openAbsent hv ha hm => exact ⟨_, m, .openAbsent hv (hd.absent ha) hm, hd⟩
  | openNoInode hv ha hm hi => exact ⟨_, m, .openNoInode hv (hd.absent ha) hm hi, hd⟩
  | openNoEntry i hv ha hm hi hn =>
    have hn' := hn.imp_right (fun hall j hj => (hd.live hj).mpr (hall j hj))
    exact ⟨_, m, .openNoEntry i hv (hd.absent ha) hm hi hn', hd⟩
  | @openCreate path _ _ _ i j hv ha hm hi hn hj hr =>
    have hlt : i < 2 ^ 31 := by have := hI.sane.inodeInt; have := hi.1; omega
    have hd' : SameDirectory (created s i j path.tail) (addEntry m 0 j path.tail i) :=
      hd.created hlt hn.2
    exact ⟨_, _, .openCreate i j hv (hd.absent ha) hm hi hn (hd.firstFree hj) hr.withData,
      hr.sameDirectory hd'⟩
  | openFound j i hv hn h₁ hr =>
    subst h₁
    have hr' := hr.withData (m := m)
    refine ⟨_, m, .openFound j i hv (hd.named hn) ?_ hr', hr.sameDirectory ?_⟩
    · split
      · exact (truncated_withData s m i).symm
      · rfl
    · split
      · exact hd.truncated i
      · exact hd
  | closeBad hh => exact ⟨_, m, .closeBad hh, hd⟩
  | close h hh => exact ⟨_, m, .close h hh, hd⟩
  | writeBad hh => cases hc
  | writeZero h i hh hn => cases hc
  | writeNoBlock h i hh hn hz hb => cases hc
  | write h i b n hh hn hclamp hmin hb hnew hold => cases hc
  | readBad hh => exact ⟨_, m, .readBad hh, hd⟩
  | readZero h i hh hn => exact ⟨_, m, .readZero h i hh hn, hd⟩
  | read h i b n hh hn hlen hb hin => exact ⟨_, m, .read h i b n hh hn hlen hb hin, hd⟩
  | unlinkBad hv => exact ⟨_, m, .unlinkBad hv, hd⟩
  | unlinkAbsent hv ha => exact ⟨_, m, .unlinkAbsent hv (hd.absent ha), hd⟩
  | unlink j i hv hn => exact ⟨_, _, .unlink j i hv (hd.named hn), hd.unlinked i j⟩

end

/-! ## Calls that write no file -/

/-- Inodes that are not empty are as before, and so is what is behind the directory. -/
structure Quiet (s s' : Tfs) : Prop where
  size : s'.fsParams = s.fsParams
  inode : ∀ k, 0 < (s'.inodeTable.cell k).iSize → s'.inodeTable.cell k = s.inodeTable.cell k
  data : ∀ x, s.blockSize ≤ x → s'.fsData.cell x = s.fsData.cell x

section
variable {s s' : Tfs}

theorem quiet_self : Quiet s s := ⟨rfl, fun _ _ => rfl, fun _ _ => rfl⟩

theorem quiet_set {i : Nat} {z : Inode} (hz : z.iSize = 0)
    (hp : s'.fsParams = s.fsParams) (hi : s'.inodeTable = s.inodeTable.set i z)
    (hd : ∀ x, s.blockSize ≤ x → s'.fsData.cell x = s.fsData.cell x) : Quiet s s' where
  size := hp
  inode k hk := by
    rw [hi] at hk ⊢
    by_cases hki : k = i
    · subst hki
      rw [Region.set_cell_self] at hk
      omega
    · exact Region.set_cell_ne _ _ hki
  data := hd

theorem quiet_truncated (i : Nat) : Quiet s (truncated s i) := by
  unfold truncated
  split
  · exact quiet_set rfl rfl rfl (fun _ _ => rfl)
  · exact quiet_self

theorem quiet_addHandle {s₁ : Tfs} {i offset : Nat} {r : Int} (hq : Quiet s s₁)
    (hr : AddHandle s₁ i offset r s') : Quiet s s' := by
  cases hr with
  | full hh => exact hq
  | slot h hh => exact ⟨hq.size, hq.inode, hq.data⟩

theorem effect_quiet {c : Call} {r : Ret} (hc : c.isWrite = false) (h : Effect s c r s') :
    Quiet s s' := by
  cases h with
  | openBad hv => exact quiet_self
  | openAbsent hv ha hm => exact quiet_self
  | openNoInode hv ha hm hi => exact quiet_self
  | openNoEntry i hv ha hm hi hn => exact quiet_set rfl rfl rfl (fun _ _ => rfl)
  | openCreate i j hv ha hm hi hn hj hr =>
    refine quiet_addHandle ?_ hr
    exact quiet_set (i := i) (z := ⟨.tFile, 0, -1⟩) rfl rfl rfl
      (fun _ hx => addEntry_behind hj.1 _ _ hx)
  | openFound j i hv hn h₁ hr =>
    subst h₁
    refine quiet_addHandle ?_ hr
    split
    · exact quiet_truncated i
    · exact quiet_self
  | closeBad hh => exact quiet_self
  | close h hh => exact ⟨rfl, fun _ _ => rfl, fun _ _ => rfl⟩
  | writeBad hh => cases hc
  | writeZero h i hh hn => cases hc
  | writeNoBlock h i hh hn hz hb => cases hc
  | write h i b n hh hn hclamp hmin hb hnew hold => cases hc
  | readBad hh => exact quiet_self
  | readZero h i hh hn => exact quiet_self
  | read h i b n hh hn hlen hb hin => exact ⟨rfl, fun _ _ => rfl, fun _ _ => rfl⟩
  | unlinkBad hv => exact quiet_self
  | unlinkAbsent hv ha => exact quiet_self
  | unlink j i hv hn => exact ⟨rfl, fun _ _ => rfl, fun _ hx => clearEntry_behind hn.1 hx⟩

theorem fileBytes_quiet (hq : Quiet s s') {k : Nat}
    (hok : FileOk s.fsParams (s.inodeTable.cell k)) (hz : 0 < (s'.inodeTable.cell k).iSize) :
    fileBytes s' k = fileBytes s k :=
  fileBytes_congr (congrArg TfsParams.blockSize hq.size) (hq.inode k hz)
    (fun _ hx => hq.data _ (content_behind hok hx))

end

/-! ## Two states that a reader of `f` cannot tell apart -/

structure Alike (f : Nat) (s : Tfs) (g : History) (m : Region UInt8) : Prop where
  inv : Inv s
  inv' : Inv (s.withData m)
  hist : Hist s g
  directory : SameDirectory s m
  content : ∀ i, Held s g i → g.file i = f → fileBytes (s.withData m) i = fileBytes s i

section
variable {f : Nat} {s s' : Tfs} {g : History} {m m' : Region UInt8}

/-- What is left to prove of a step: the content of `f` is the same behind it. -/
theorem alike_step (hA : Alike f s g m) {c d : Call} {r r' : Ret} (he : Effect s c r s')
    (he' : Effect (s.withData m) d r' (s'.withData m')) (hd : SameDirectory s' m')
    (hcontent : ∀ i, Held s' (g.step c r s s') i → Held s g i → g.file i = f →
      0 < (s'.inodeTable.cell i).iSize → fileBytes (s'.withData m') i = fileBytes s' i) :
    Alike f s' (g.step c r s s') m' := by
  have hS := effect_shape hA.inv he
  refine ⟨effect_inv hA.inv he, effect_inv hA.inv' he', hist_step hA.inv hA.hist hS, hd, ?_⟩
  intro i hi hf
  rcases Nat.eq_zero_or_pos (s'.inodeTable.cell i).iSize with hz | hz
  · rw [fileBytes_empty hz, fileBytes_empty (s := s'.withData m') hz]
  have hout : ¬ HandedOut c s s' i := fun ho => by have := hS.emptied i ho; omega
  have hf' : g.file i = f := by
    simp only [History.step, History.nextFile, hout, if_false] at hf
    exact hf
  exact hcontent i hi (held_step hA.inv hS hi hout).1 hf' hz

theorem alike_quiet (hA : Alike f s g m) {c : Call} {r : Ret} (hc : c.isWrite = false)
    (h : exec s c = ok (r, s')) :
    ∃ r' m', exec (s.withData m) c = ok (r', s'.withData m') ∧
      Alike f s' (g.step c r s s') m' := by
  have he := exec_effect hA.inv h
  obtain ⟨r', m', he', hd⟩ := effect_withData hA.inv hA.directory hc he
  refine ⟨r', m', effect_exec hA.inv' he', alike_step hA he he' hd ?_⟩
  intro i _ hi hf hz
  have hok := hi.fileOk hA.inv
  rw [fileBytes_quiet (effect_quiet hc he) hok hz]
  rw [fileBytes_quiet (s := s.withData m) (effect_quiet hc he') hok hz]
  exact hA.content i hi hf

theorem alike_write (hA : Alike f s g m) {fhandle : Int} {buffer buffer' : Nat → UInt8}
    {toWrite : Nat} {r : Ret} (hu : IsolatedUse f (s, g) (.tfsWrite fhandle buffer toWrite))
    (hb : buffer' = buffer ∨ ∀ h i, OpenOn s fhandle h i → g.opened h ≠ f)
    (hex : exec s (.tfsWrite fhandle buffer toWrite) = ok (r, s')) :
    ∃ r' m', exec (s.withData m) (.tfsWrite fhandle buffer' toWrite) = ok (r', s'.withData m') ∧
      Alike f s' (g.step (.tfsWrite fhandle buffer toWrite) r s s') m' := by
  have he := exec_effect hA.inv hex
  have hself : ∀ r r', Effect s (.tfsWrite fhandle buffer toWrite) r s →
      Effect (s.withData m) (.tfsWrite fhandle buffer' toWrite) r' (s.withData m) →
      ∃ r' m', exec (s.withData m) (.tfsWrite fhandle buffer' toWrite) = ok (r', s.withData m') ∧
        Alike f s (g.step (.tfsWrite fhandle buffer toWrite) r s s) m' :=
    fun r r' h h' => ⟨r', m, effect_exec hA.inv' h',
      alike_step hA h h' hA.directory (fun i _ hi hf _ => hA.content i hi hf)⟩
  cases id he with
  | writeBad hh => exact hself _ _ he (.writeBad hh)
  | writeZero h i hh hn => exact hself _ _ he (.writeZero h i hh hn)
  | writeNoBlock h i hh hn hz hb => exact hself _ _ he (.writeNoBlock h i hh hn hz hb)
  | write h i b n hh hn hclamp hmin hb' hnew hold =>
    have he' : Effect (s.withData m) (.tfsWrite fhandle buffer' toWrite) ⟨castSsize n, []⟩
      ((written s h i b buffer n).withData (written (s.withData m) h i b buffer' n).fsData) :=
      .write h i b n hh hn hclamp hmin hb' hnew hold
    have hfit : (s.openFileTable.cell h).ofOffset + n ≤ s.blockSize := by omega
    refine ⟨_, _, effect_exec hA.inv' he', alike_step hA he he'
      (hA.directory.written buffer buffer' hb'.1) ?_⟩
    intro k hk hheld hf hz
    have hreach := hu h i hh
    simp only at hreach
    obtain ⟨hself, hother⟩ := (hreach.resolve_left (by omega)).resolve_left (by omega) k hheld hf
    have hnew' := fun hz => (hnew hz).2.1
    by_cases hki : k = i
    · subst hki
      obtain ⟨hown, hoff⟩ := hself rfl
      have hbuf : buffer' = buffer := hb.resolve_right (fun hne => hne h k hh hown)
      subst hbuf
      rw [fileBytes_written_self buffer' hoff hold, ← hA.content k hheld hf]
      exact fileBytes_written_self (s := s.withData m) buffer' hoff hold
    · have hne := written_block_ne hA.inv hnew' hold hk (hother hki)
      have hsize := (hheld.fileOk hA.inv).sizeLe
      rw [fileBytes_written buffer hki hfit hsize hne, ← hA.content k hheld hf]
      exact fileBytes_written (s := s.withData m) buffer' hki hfit hsize hne

theorem alike_exec (hA : Alike f s g m) {c d : Call} {r : Ret} (hu : IsolatedUse f (s, g) c)
    (hs : SameCall f (s, g) c d) (h : exec s c = ok (r, s')) :
    ∃ r' m', exec (s.withData m) d = ok (r', s'.withData m') ∧
      Alike f s' (g.step c r s s') m' := by
  rcases hs with rfl | ⟨fhandle, buffer, buffer', toWrite, rfl, rfl, hb⟩
  · cases hc : d.isWrite with
    | false => exact alike_quiet hA hc h
    | true =>
      cases d with
      | tfsWrite fhandle buffer toWrite => exact alike_write hA hu (Or.inl rfl) h
      | _ => cases hc
  · exact alike_write hA hu (Or.inr hb) h

/-- A read on a handle of `f` is the same in both states. -/
theorem alike_read (hA : Alike f s g m) {fhandle : Int} {len h i : Nat} {r : Ret}
    (hh : OpenOn s fhandle h i) (hf : g.opened h = f)
    (hu : IsolatedUse f (s, g) (.tfsRead fhandle len))
    (hr : exec s (.tfsRead fhandle len) = ok (r, s')) :
    ∃ m', exec (s.withData m) (.tfsRead fhandle len) = ok (r, s'.withData m') := by
  cases exec_effect hA.inv hr with
  | readBad hbad => exact absurd hh.1 (hbad h)
  | readZero h' i' hh' hn => exact ⟨m, effect_exec hA.inv' (.readZero h' i' hh' hn)⟩
  | read h' i' b n hh' hn hlen hb hin =>
    obtain ⟨rfl, rfl⟩ := hh.unique hh'
    have hcases := hu h i hh hf
    simp only at hcases
    rcases hcases with rfl | heq | ⟨hlt, hdis⟩
    · have hle := clampRead_le (s.inodeTable.cell i).iSize (s.openFileTable.cell h).ofOffset 0
      omega
    · rw [hA.inv.clampRead_openOn hh len (by omega)] at hlen
      omega
    · have hmin := hlen
      rw [hA.inv.clampRead_openOn hh len (by omega)] at hmin
      have hfile : g.file i = f := (hA.hist.owner fhandle h i hh hdis).symm.trans hf
      have hcells : m.cells (b * s.blockSize + (s.openFileTable.cell h).ofOffset) n =
          s.fsData.cells (b * s.blockSize + (s.openFileTable.cell h).ofOffset) n := by
        rw [cells_eq_slice hb.1 hmin, ← hA.content i (held_of_openOn hA.inv hh hdis) hfile]
        exact cells_eq_slice (s := s.withData m) hb.1 hmin
      refine ⟨m, effect_exec hA.inv' ?_⟩
      rw [← hcells]
      exact .read h i b n hh hn hlen hb hin

end

theorem History.step_withData {f : Nat} {sg : Tfs × History} {c d : Call} (g : History)
    (hs : SameCall f sg c d) (r r' : Ret) (s s' : Tfs) (m m' : Region UInt8) :
    g.step d r' (s.withData m) (s'.withData m') = g.step c r s s' := by
  rcases hs with rfl | ⟨fhandle, buffer, buffer', toWrite, rfl, rfl, -⟩
  · rfl
  · rfl

/-! ## Runs -/

/-- Two disks that are formatted over other bytes. -/
theorem alike_initial {f : Nat} {s₀ s t : Tfs} {m : Mallocs} {junk : Option (Nat → UInt8)}
    {p : Option TfsParams} (hp : GoodParams (p.getD tfsDefaultParams))
    (hinit : tfsInit s₀ m p = ok (0, s))
    (hinit' : tfsInit s₀ { m with fsData := junk } p = ok (0, t)) :
    t = s.withData t.fsData ∧ Alike f s .init t.fsData := by
  obtain ⟨hs, hps, hes⟩ := tfsInit_initial hp hinit
  obtain ⟨ht, -, het⟩ := tfsInit_initial hp hinit'
  have heq : t = s.withData t.fsData := by
    conv_lhs => rw [het]
    conv_rhs => rw [hes]
    rfl
  have hdirs : t.maxDirEntries = s.maxDirEntries := by rw [heq]; rfl
  refine ⟨heq, hs.inv, heq ▸ ht.inv, hist_initial hs, fun j hj => ?_, fun i hi => ?_⟩
  · have hs' := Classical.not_not.mp (hs.noFile j hj)
    have ht' := Classical.not_not.mp (ht.noFile j (hdirs ▸ hj))
    exact ⟨ht'.trans hs'.symm, fun hl => absurd hl (hs.noFile j hj)⟩
  · exact absurd hi hs.not_held

/-- Two runs of the same calls that differ in what is written to other files than `f`, and in the
first contents of `fs_data`. -/
theorem isolated_run {f : Nat} {s₀ s₁ t₁ s : Tfs} {m : Mallocs} {junk : Option (Nat → UInt8)}
    {p : Option TfsParams} {cs ds : List Call} {rs : List Ret} {g : History}
    (hp : GoodParams (p.getD tfsDefaultParams)) (hinit : tfsInit s₀ m p = ok (0, s₁))
    (hinit' : tfsInit s₀ { m with fsData := junk } p = ok (0, t₁))
    (hsame : Paired (withHistory exec History.step) (SameCall f) (s₁, .init) cs ds)
    (hu : Allowed (withHistory exec History.step) (IsolatedUse f) (s₁, .init) cs)
    (hrun : run (withHistory exec History.step) (s₁, .init) cs = ok (rs, (s, g))) :
    ∃ rs' t, run (withHistory exec History.step) (t₁, .init) ds = ok (rs', (t, g)) ∧
      ∀ fhandle len h i r s', OpenOn s fhandle h i → g.opened h = f →
        IsolatedUse f (s, g) (.tfsRead fhandle len) → exec s (.tfsRead fhandle len) = ok (r, s') →
        ∃ t', exec t (.tfsRead fhandle len) = ok (r, t') := by
  obtain ⟨heq, hA⟩ := alike_initial (f := f) hp hinit hinit'
  obtain ⟨rs', t, hrun', m', rfl, hA'⟩ := run_paired
    (R := fun sg th => ∃ m, th = (sg.1.withData m, sg.2) ∧ Alike f sg.1 sg.2 m)
    (fun sg th c d r sg' hR hu hs h => by
      obtain ⟨s, g⟩ := sg
      obtain ⟨s', g'⟩ := sg'
      obtain ⟨m, rfl, hA⟩ := hR
      obtain ⟨hex, rfl⟩ := withHistory_eq_ok.mp h
      obtain ⟨r', m', hex', hA'⟩ := alike_exec hA hu hs hex
      refine ⟨r', (s'.withData m', _), withHistory_eq_ok.mpr ⟨hex', ?_⟩, m', rfl, hA'⟩
      exact (History.step_withData g hs r r' s s' m m').symm)
    ⟨t₁.fsData, by rw [← heq], hA⟩ hu hsame hrun
  refine ⟨rs', _, hrun', fun fhandle len h i r s' hh hf hu hr => ?_⟩
  obtain ⟨m'', hr'⟩ := alike_read hA' hh hf hu hr
  exact ⟨_, hr'⟩

/-- The small disk, formatted over other bytes. -/
def otherDisk : Tfs :=
  ((tfsInit .zero { zeroMallocs with fsData := some fun _ => 255 } (some smallParams)).getD
    (0, .zero)).2

theorem otherDisk_init :
    tfsInit .zero { zeroMallocs with fsData := some fun _ => 255 } (some smallParams) =
      ok (0, otherDisk) := by
  rw [eq_ok_getD (0, .zero) (by decide +kernel : (tfsInit .zero _ _).isOk = true)]
  rfl

/-- Two bytes into `/a`, which is file 1, and three into `/b`. -/
def twoFiles (v : UInt8) : List Call :=
  [.tfsOpen (some pathA) tfsOCreat, .tfsWrite 0 (fun _ => 5) 2, .tfsOpen (some pathB) tfsOCreat,
    .tfsWrite 1 (fun _ => v) 3]

theorem isolated_run_twoFiles :
    ∃ rs' t, run (withHistory exec History.step) (otherDisk, .init) (twoFiles 2) =
        ok (rs', (t, (reached smallDisk (twoFiles 1)).2)) ∧
      ∀ fhandle len h i r s', OpenOn (reached smallDisk (twoFiles 1)).1 fhandle h i →
        (reached smallDisk (twoFiles 1)).2.opened h = 1 →
        IsolatedUse 1 (reached smallDisk (twoFiles 1)) (.tfsRead fhandle len) →
        exec (reached smallDisk (twoFiles 1)).1 (.tfsRead fhandle len) = ok (r, s') →
        ∃ t', exec t (.tfsRead fhandle len) = ok (r, t') := by
  obtain ⟨rs, hrun⟩ := run_reached smallDisk (twoFiles 1) (by decide +kernel)
  refine @isolated_run 1 _ _ _ _ _ _ (some smallParams) (twoFiles 1) (twoFiles 2) _ _ smallParams_good
    smallDisk_init otherDisk_init ?_ ?_ hrun
  · refine ⟨Or.inl rfl, fun r₁ sg₁ h₁ => ⟨Or.inl rfl, fun r₂ sg₂ h₂ => ⟨Or.inl rfl,
      fun r₃ sg₃ h₃ => ⟨Or.inr ⟨1, _, _, 3, rfl, rfl, fun h i hh => ?_⟩, fun _ _ _ => trivial⟩⟩⟩⟩
    have he : sg₃ = reached smallDisk ((twoFiles 1).take 3) :=
      reached_eq (run_cons h₁ (run_cons h₂ (run_cons h₃ rfl)))
    subst he
    have h1 : h = 1 := by have := hh.1.1; omega
    subst h1
    decide +kernel
  · refine ⟨trivial, fun r₁ sg₁ h₁ => ⟨fun h i hh => ?_, fun r₂ sg₂ h₂ => ⟨trivial,
      fun r₃ sg₃ h₃ => ⟨fun h i hh => ?_, fun _ _ _ => trivial⟩⟩⟩⟩
    · have he : sg₁ = reached smallDisk ((twoFiles 1).take 1) := reached_eq (run_cons h₁ rfl)
      subst he
      have h0 : h = 0 := by have := hh.1.1; omega
      subst h0
      have hi : i = 1 := by
        have h1 := hh.2
        rw [show (_ : OpenFileEntry).ofInumber = 1 by decide +kernel] at h1
        omega
      subst hi
      exact Or.inr (Or.inr fun k _ _ => ⟨fun _ => by decide +kernel,
        fun _ hz => absurd hz (by decide +kernel)⟩)
    · have he : sg₃ = reached smallDisk ((twoFiles 1).take 3) :=
        reached_eq (run_cons h₁ (run_cons h₂ (run_cons h₃ rfl)))
      subst he
      have h0 : h = 1 := by have := hh.1.1; omega
      subst h0
      have hi : i = 2 := by
        have h1 := hh.2
        rw [show (_ : OpenFileEntry).ofInumber = 2 by decide +kernel] at h1
        omega
      subst hi
      refine Or.inr (Or.inr fun k _ hf => ⟨fun hk => ?_, fun _ hz => absurd hz (by decide +kernel)⟩)
      subst hk
      revert hf
      decide +kernel

/-- `/a` is truncated while another handle is at its end. -/
def truncCalls : List Call :=
  [.tfsOpen (some pathA) tfsOCreat, .tfsWrite 0 (fun _ => 7) 5, .tfsOpen (some pathA) tfsOTrunc]

/-- The old handle is past the end, and reads what `malloc` left in the block. -/
theorem truncCalls_leftover :
    ¬ ∀ (s₀ s₁ t₁ s t s' t' : Tfs) (m : Mallocs) (junk : Option (Nat → UInt8))
      (p : Option TfsParams) (cs : List Call) (rs rs' : List Ret) (g g' : History) (fhandle : Int)
      (len h i : Nat) (r r' : Ret),
      GoodParams (p.getD tfsDefaultParams) → tfsInit s₀ m p = ok (0, s₁) →
      tfsInit s₀ { m with fsData := junk } p = ok (0, t₁) →
      run (withHistory exec History.step) (s₁, .init) cs = ok (rs, (s, g)) →
      run (withHistory exec History.step) (t₁, .init) cs = ok (rs', (t, g')) →
      OpenOn s fhandle h i → OpenOn t fhandle h i → g'.opened h = g.opened h →
      exec s (.tfsRead fhandle len) = ok (r, s') → exec t (.tfsRead fhandle len) = ok (r', t') →
      r = r' := by
  intro hall
  obtain ⟨rs, hrun⟩ := run_reached smallDisk truncCalls (by decide +kernel)
  obtain ⟨rs', hrun'⟩ := run_reached otherDisk truncCalls (by decide +kernel)
  have h := hall .zero smallDisk otherDisk _ _ _ _ zeroMallocs _ (some smallParams) truncCalls rs rs'
    _ _ 0 1 0 1 ⟨1, [0]⟩ ⟨1, [255]⟩ smallParams_good smallDisk_init otherDisk_init hrun hrun'
    ⟨⟨by decide +kernel, by decide +kernel, by decide +kernel⟩, by decide +kernel⟩
    ⟨⟨by decide +kernel, by decide +kernel, by decide +kernel⟩, by decide +kernel⟩
    (by decide +kernel)
    (exec_eq_answers (by decide +kernel) (by decide +kernel))
    (exec_eq_answers (by decide +kernel) (by decide +kernel))
  revert h
  decide +kernel

end Mbroker
