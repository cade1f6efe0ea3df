import Mbroker.Fs.Refine

/-!
# Every call simulates the abstract store

    refines_exec : Refines p s a → BrokerUse s c →
      ∃ s', exec s c = ok ((storeStep p a c).1, s') ∧ Refines p s' (storeStep p a c).2
    refines_run  : every answer of a run from `tfs_init` is that of the store
-/

namespace Mbroker

open CLib CLib.Outcome

section
variable {p : TfsParams} {s : Tfs} {a : Store} (hR : Refines p s a)

include hR

/-! ## The relation is kept by the updates -/

theorem refines_handleAdded {name : CStr} {h i j offset : Nat} (hh : h < s.maxOpenFiles)
    (hn : Named s name j i) (ho : offset ≤ (s.inodeTable.cell i).iSize) :
    Refines p (handleAdded s h i offset) (a.setSlot h (some ⟨name, offset⟩)) := by
  have hI := hR.inv
  obtain ⟨hf, ht⟩ := hI.named_file hn
  have hsize := hI.sizeLe hf ht
  have hlt := hI.blockSize_lt
  refine
    { inv := inv_handleAdded hI h hf (hI.file i hf ht) (by omega)
      noLeak := hR.noLeak
      params := hR.params
      named := hR.named
      absent := hR.absent
      slotsLength := (List.length_set ..).trans hR.slotsLength
      freeSlot := fun k hk hfree => ?_
      takenSlot := fun k hk htaken => ?_ }
  · have hkh : k ≠ h := fun e => by
      subst e
      simp [handleAdded] at hfree
    simp only [handleAdded, Region.set_cell_ne _ _ hkh] at hfree
    simp only [Store.setSlot, Int.toNat_natCast, List.getElem?_set_ne (Ne.symm hkh)]
    exact hR.freeSlot k hk hfree
  · by_cases hkh : k = h
    · subst hkh
      refine ⟨name, j, i, hn, ?_, ?_, ?_⟩
      · simp [handleAdded]
      · simp only [handleAdded, Region.set_cell_self, Store.setSlot, Int.toNat_natCast]
        exact List.getElem?_set_self (by rw [hR.slotsLength]; exact hk)
      · simp only [handleAdded, Region.set_cell_self]
        exact ho
    · simp only [handleAdded, Region.set_cell_ne _ _ hkh] at htaken ⊢
      simp only [Store.setSlot, Int.toNat_natCast, List.getElem?_set_ne (Ne.symm hkh)]
      exact hR.takenSlot k hk htaken

theorem refines_openSlot {name : CStr} {i j offset : Nat} {r : Int} {s' : Tfs}
    (hn : Named s name j i) (ho : offset ≤ (s.inodeTable.cell i).iSize)
    (hr : AddHandle s i offset r s') :
    r = (a.openSlot ⟨name, offset⟩).1 ∧ Refines p s' (a.openSlot ⟨name, offset⟩).2 := by
  unfold Store.openSlot
  cases hr with
  | full hh =>
    rw [hR.findIdx_none hh]
    exact ⟨rfl, hR⟩
  | slot h hh =>
    rw [hR.findIdx_some hh]
    exact ⟨rfl, refines_handleAdded hR hh.1 hn ho⟩

theorem refines_handleFreed {h : Nat} :
    Refines p (handleFreed s h) (a.setSlot h none) := by
  refine
    { inv := inv_handleFreed hR.inv h
      noLeak := hR.noLeak
      params := hR.params
      named := hR.named
      absent := hR.absent
      slotsLength := (List.length_set ..).trans hR.slotsLength
      freeSlot := fun k hk hfree => ?_
      takenSlot := fun k hk htaken => ?_ }
  · simp only [Store.setSlot, Int.toNat_natCast]
    by_cases hkh : k = h
    · subst hkh
      exact List.getElem?_set_self (by rw [hR.slotsLength]; exact hk)
    · simp only [handleFreed, Region.set_cell_ne _ _ hkh] at hfree
      rw [List.getElem?_set_ne (Ne.symm hkh)]
      exact hR.freeSlot k hk hfree
  · have hkh : k ≠ h := fun e => by
      subst e
      simp [handleFreed] at htaken
    simp only [handleFreed, Region.set_cell_ne _ _ hkh] at htaken ⊢
    simp only [Store.setSlot, Int.toNat_natCast, List.getElem?_set_ne (Ne.symm hkh)]
    exact hR.takenSlot k hk htaken

theorem refines_inodeReset {i : Nat}
    (hi : FirstAt (fun i => s.freeinodeTs.cell i = .free) s.inodeTableSize i) :
    Refines p (inodeReset s i) a := by
  have hI := hR.inv
  have hne : ∀ {k}, s.freeinodeTs.cell k = .taken → k ≠ i := by
    rintro k hk rfl
    have hfree : s.freeinodeTs.cell k = .free := hi.2.1
    rw [hk] at hfree
    cases hfree
  refine
    { inv := inv_inodeReset hI hi
      noLeak := noLeak_of_owns hR.noLeak rfl rfl (owns_inodeReset hi.2.1)
      params := hR.params
      named := fun name j k hn => ?_
      absent := hR.absent
      slotsLength := hR.slotsLength
      freeSlot := hR.freeSlot
      takenSlot := fun k hk htaken => ?_ }
  · rw [fileBytes_inodeReset (hne (hI.named_file hn).2)]
    exact hR.named name j k hn
  · obtain ⟨name, j, l, hn, hl, hs, ho⟩ := hR.takenSlot k hk htaken
    refine ⟨name, j, l, hn, hl, hs, ?_⟩
    simp only [inodeReset, Region.set_cell_ne _ _ (hne (hI.named_file hn).2)]
    exact ho

theorem refines_created {i j : Nat} {name : CStr}
    (hi : FirstAt (fun i => s.freeinodeTs.cell i = .free) s.inodeTableSize i)
    (hn : 1 ≤ name.strlen ∧ name.strlen ≤ 39) (ha : Absent s name)
    (hj : FirstAt (fun j => ¬ Live s.fsData 0 j) s.maxDirEntries j) :
    Refines p (created s i j name) { a with files := a.files.insert name [] } := by
  have hI := hR.inv
  have hint : i < 2 ^ 31 := Nat.lt_trans hi.1 hI.sane.inodeInt
  have hne : ∀ {k}, s.freeinodeTs.cell k = .taken → k ≠ i := by
    rintro k hk rfl
    have hfree : s.freeinodeTs.cell k = .free := hi.2.1
    rw [hk] at hfree
    cases hfree
  refine
    { inv := inv_created hI hi hn ha hj
      noLeak := noLeak_of_owns hR.noLeak rfl rfl (owns_created hi.2.1)
      params := hR.params
      named := fun name' j' i' hn' => ?_
      absent := fun name' ha' => ?_
      slotsLength := hR.slotsLength
      freeSlot := hR.freeSlot
      takenSlot := fun k hk htaken => ?_ }
  · rcases named_created hint hn.2 hn' with ⟨rfl, rfl⟩ | ⟨-, hold⟩
    · rw [fileBytes_created_self, Finmap.lookup_insert]
    · obtain ⟨hf, ht⟩ := hI.named_file hold
      have hname : name' ≠ name := by
        rintro rfl
        exact ha j' hold.1 hold.live hold.2.2
      rw [fileBytes_created hj.1 (hne ht) (hI.file i' hf ht), Finmap.lookup_insert_of_ne _ hname]
      exact hR.named name' j' i' hold
  · obtain ⟨hname, habs⟩ := absent_created hint hn.2 ⟨hj.1, hj.2.1⟩ ha'
    rw [Finmap.lookup_insert_of_ne _ hname]
    exact hR.absent name' habs
  · obtain ⟨name', j', l, hn', hl, hs, ho⟩ := hR.takenSlot k hk htaken
    refine ⟨name', j', l, named_created_other hj.2.1 hn', hl, hs, ?_⟩
    simp only [created, inodeCreated, Region.set_cell_ne _ _ (hne (hI.named_file hn').2)]
    exact ho

theorem refines_unlinked {name : CStr} {i j : Nat} (hn : Named s name j i)
    (hopen : ∀ fhandle h, ¬ OpenOn s fhandle h i) :
    Refines p (unlinked s i j) { a with files := a.files.erase name } := by
  have hI := hR.inv
  refine
    { inv := inv_unlinked hI hn
      noLeak := noLeak_unlinked hI hR.noLeak hn
      params := hR.params
      named := fun name' j' i' hn' => ?_
      absent := fun name' ha' => ?_
      slotsLength := hR.slotsLength
      freeSlot := hR.freeSlot
      takenSlot := fun k hk htaken => ?_ }
  · obtain ⟨hj, hold⟩ := named_unlinked.mp hn'
    obtain ⟨hf, ht⟩ := hI.named_file hold
    have hname : name' ≠ name := by
      rintro rfl
      exact hj (hI.named_unique hold hn).1
    rw [fileBytes_unlinked hn.1 (hI.file i' hf ht), Finmap.lookup_erase_ne hname]
    exact hR.named name' j' i' hold
  · by_cases hname : name' = name
    · rw [hname]
      exact Finmap.lookup_erase _ _
    · rw [Finmap.lookup_erase_ne hname]
      exact hR.absent name' (absent_unlinked hn hname ha')
  · obtain ⟨name', j', l, hn', hl, hs, ho⟩ := hR.takenSlot k hk htaken
    have hli : l ≠ i := by
      rintro rfl
      exact hopen k k ⟨⟨rfl, hk, htaken⟩, hl⟩
    have hjj : j' ≠ j := by
      rintro rfl
      have := hn'.2.1
      have := hn.2.1
      omega
    exact ⟨name', j', l, named_unlinked.mpr ⟨hjj, hn'⟩, hl, hs, ho⟩

theorem refines_readAdvanced {fhandle : Int} {name : CStr} {h i j n : Nat}
    (hh : OpenOn s fhandle h i) (hn : Named s name j i)
    (hle : (s.openFileTable.cell h).ofOffset + n ≤ (s.inodeTable.cell i).iSize) :
    Refines p (readAdvanced s h n)
      (a.setSlot fhandle (some ⟨name, (s.openFileTable.cell h).ofOffset + n⟩)) := by
  have hI := hR.inv
  obtain ⟨⟨rfl, hlt, hth⟩, hi⟩ := hh
  obtain ⟨hf, ht⟩ := hI.named_file hn
  have hsize := hI.sizeLe hf ht
  have hbs := hI.blockSize_lt
  refine
    { inv := inv_readAdvanced hI (by omega)
      noLeak := hR.noLeak
      params := hR.params
      named := hR.named
      absent := hR.absent
      slotsLength := (List.length_set ..).trans hR.slotsLength
      freeSlot := fun k hk hfree => ?_
      takenSlot := fun k hk htaken => ?_ }
  · have hkh : k ≠ h := fun e => by
      subst e
      have hfree' : s.freeOpenFileEntries.cell k = .free := hfree
      rw [hth] at hfree'
      cases hfree'
    simp only [Store.setSlot, Int.toNat_natCast, List.getElem?_set_ne (Ne.symm hkh)]
    exact hR.freeSlot k hk hfree
  · by_cases hkh : k = h
    · subst hkh
      refine ⟨name, j, i, hn, ?_, ?_, ?_⟩
      · simpa [readAdvanced] using hi
      · simp only [readAdvanced, Region.set_cell_self, Store.setSlot, Int.toNat_natCast]
        exact List.getElem?_set_self (by rw [hR.slotsLength]; exact hk)
      · simp only [readAdvanced, Region.set_cell_self]
        exact hle
    · simp only [readAdvanced, Region.set_cell_ne _ _ hkh]
      simp only [Store.setSlot, Int.toNat_natCast, List.getElem?_set_ne (Ne.symm hkh)]
      exact hR.takenSlot k hk htaken

theorem refines_written {fhandle : Int} {name : CStr} {h i j b n : Nat} (buffer : Nat → UInt8)
    (hh : OpenOn s fhandle h i) (hn : Named s name j i) (hpos : 0 < n)
    (ho : (s.openFileTable.cell h).ofOffset ≤ (s.inodeTable.cell i).iSize)
    (hfit : (s.openFileTable.cell h).ofOffset + n ≤ s.blockSize)
    (hb : 0 < b ∧ b < s.dataBlocks)
    (hnew : (s.inodeTable.cell i).iSize = 0 →
      FirstAt (fun b => s.freeBlocks.cell b = .free) s.dataBlocks b)
    (hold : 0 < (s.inodeTable.cell i).iSize → (s.inodeTable.cell i).iDataBlock = b) :
    Refines p (written s h i b buffer n)
      (({ a with
          files := a.files.insert name (overwrite (a.content name)
            (s.openFileTable.cell h).ofOffset ((List.range n).map buffer)) }).setSlot fhandle
        (some ⟨name, (s.openFileTable.cell h).ofOffset + n⟩)) := by
  have hI := hR.inv
  have hinv := inv_written hI buffer hh hfit hb hnew hold
  obtain ⟨⟨rfl, hlt, hth⟩, hi⟩ := hh
  obtain ⟨hf, ht⟩ := hI.named_file hn
  -- the blocks of the other files are other blocks
  have hother : ∀ k, FileIndex s k → s.freeinodeTs.cell k = .taken → k ≠ i →
      fileBytes (written s h i b buffer n) k = fileBytes s k := by
    intro k hfk htk hki
    refine fileBytes_written buffer hki hfit (hI.sizeLe hfk htk) (fun hz => ?_)
    obtain ⟨c, hc, -⟩ := (hI.file k hfk htk).block hz
    have hne := written_other hI hf (fun hzi => (hnew hzi).2.1) hold hfk hki htk ht hz
    rw [hc] at hne ⊢
    simp only [Int.toNat_natCast]
    omega
  refine
    { inv := hinv
      noLeak := ?_
      params := hR.params
      named := fun name' j' k hn' => ?_
      absent := fun name' ha' => ?_
      slotsLength := (List.length_set ..).trans hR.slotsLength
      freeSlot := fun k hk hfree => ?_
      takenSlot := fun k hk htaken => ?_ }
  · refine (noLeak_written hI hR.noLeak buffer hf.2 hpos hb.2 (fun hz => (hnew hz).2.1) hold).mpr ?_
    rw [ht]
    simp
  · have hn'' := (named_written hb.1).mp hn'
    simp only [Store.setSlot]
    by_cases hname : name' = name
    · subst hname
      obtain ⟨rfl, rfl⟩ := hI.named_unique hn'' hn
      rw [Finmap.lookup_insert, fileBytes_written_self buffer ho hold, hR.content hn]
    · obtain ⟨hfk, htk⟩ := hI.named_file hn''
      have hki : k ≠ i := fun e => by
        subst e
        exact hname (hI.named_inode hn'' hn).1
      rw [Finmap.lookup_insert_of_ne _ hname, hother k hfk htk hki]
      exact hR.named name' j' k hn''
  · have ha'' := absent_written hb.1 ha'
    have hname : name' ≠ name := by
      rintro rfl
      exact ha'' j hn.1 hn.live hn.2.2
    simp only [Store.setSlot]
    rw [Finmap.lookup_insert_of_ne _ hname]
    exact hR.absent name' ha''
  · have hkh : k ≠ h := fun e => by
      subst e
      have hfree' : s.freeOpenFileEntries.cell k = .free := hfree
      rw [hth] at hfree'
      cases hfree'
    simp only [Store.setSlot, Int.toNat_natCast, List.getElem?_set_ne (Ne.symm hkh)]
    exact hR.freeSlot k hk hfree
  · by_cases hkh : k = h
    · subst hkh
      refine ⟨name, j, i, (named_written hb.1).mpr hn, ?_, ?_, ?_⟩
      · simpa [written] using hi
      · simp only [written, Region.set_cell_self, Store.setSlot, Int.toNat_natCast]
        exact List.getElem?_set_self (by rw [hR.slotsLength]; exact hk)
      · simp only [written, Region.set_cell_self]
        exact Nat.le_max_right _ _
    · obtain ⟨name', j', l, hn', hl, hs, ho'⟩ := hR.takenSlot k hk htaken
      refine ⟨name', j', l, (named_written hb.1).mpr hn', ?_, ?_, ?_⟩
      · simp only [written, Region.set_cell_ne _ _ hkh]; exact hl
      · simp only [written, Region.set_cell_ne _ _ hkh, Store.setSlot, Int.toNat_natCast,
          List.getElem?_set_ne (Ne.symm hkh)]
        exact hs
      · simp only [written, Region.set_cell_ne _ _ hkh]
        by_cases hli : l = i
        · subst hli
          rw [Region.set_cell_self]
          exact Nat.le_trans ho' (Nat.le_max_left _ _)
        · rw [Region.set_cell_ne _ _ hli]
          exact ho'

/-! ## Calls -/

/-- Writing a file back changes nothing. -/
theorem Refines.insert_self {name : CStr} {i j : Nat} (hn : Named s name j i) :
    a.files.insert name (a.content name) = a.files := by
  apply Store.insert_self
  rw [hR.content hn]
  exact hR.named name j i hn

theorem open_refines {path : CStr} {mode : UInt32} {r : Ret} {s' : Tfs}
    (hu : hasFlag mode tfsOTrunc = false) (he : Effect s (.tfsOpen (some path) mode) r s') :
    r = (storeStep p a (.tfsOpen (some path) mode)).1 ∧
      Refines p s' (storeStep p a (.tfsOpen (some path) mode)).2 := by
  have hI := hR.inv
  cases he with
  | openBad hv =>
    simp only [storeStep, hv, Bool.false_eq_true, if_false]
    exact ⟨trivial, hR⟩
  | openAbsent hv ha hm =>
    simp only [storeStep, hv, if_true, Store.openFile, hR.absent _ ha, hm, Bool.false_and,
      Bool.false_eq_true, if_false]
    exact ⟨trivial, hR⟩
  | openNoInode hv ha hm hi =>
    have hno : a.canCreate p path.tail = false := by
      rw [← Bool.not_eq_true, hR.canCreate_iff]
      rintro ⟨-, ⟨i, hlt, hfree⟩, -⟩
      exact hi i hlt hfree
    simp only [storeStep, hv, if_true, Store.openFile, hR.absent _ ha, hno, Bool.and_false,
      Bool.false_eq_true, if_false]
    exact ⟨trivial, hR⟩
  | openNoEntry i hv ha hm hi hn =>
    have hno : a.canCreate p path.tail = false := by
      rw [← Bool.not_eq_true, hR.canCreate_iff]
      rintro ⟨hlen, -, j, hj, hl⟩
      rcases hn with hn | hn
      · omega
      · exact hl (hn j hj)
    simp only [storeStep, hv, if_true, Store.openFile, hR.absent _ ha, hno, Bool.and_false,
      Bool.false_eq_true, if_false]
    exact ⟨trivial, refines_inodeReset hR hi⟩
  | openCreate i j hv ha hm hi hn hj hr =>
    have hyes : a.canCreate p path.tail = true :=
      (hR.canCreate_iff _).mpr ⟨hn, ⟨i, hi.1, hi.2.1⟩, j, hj.1, hj.2.1⟩
    simp only [storeStep, hv, if_true, Store.openFile, hR.absent _ ha, hm, hyes, Bool.and_true]
    have hint := Nat.lt_trans hi.1 hI.sane.inodeInt
    obtain ⟨h1, h2⟩ := refines_openSlot (refines_created hR hi hn ha hj)
      (named_created_self hj.1 hint hn.2) (Nat.zero_le _) hr
    exact ⟨by rw [h1], h2⟩
  | openFound j i hv hn h₁ hr =>
    rw [hu, if_neg (by decide)] at h₁
    subst h₁
    simp only [storeStep, hv, if_true, Store.openFile, hR.named _ j i hn, fileBytes_length]
    obtain ⟨h1, h2⟩ := refines_openSlot hR hn (by split <;> omega) hr
    exact ⟨by rw [h1], h2⟩

theorem write_refines {fhandle : Int} {buffer : Nat → UInt8} {toWrite : Nat} {r : Ret} {s' : Tfs}
    (hb : p.blockSize < 2 ^ 63) (hu : toWrite < 2 ^ 63)
    (he : Effect s (.tfsWrite fhandle buffer toWrite) r s') :
    r = (storeStep p a (.tfsWrite fhandle buffer toWrite)).1 ∧
      Refines p s' (storeStep p a (.tfsWrite fhandle buffer toWrite)).2 := by
  have hI := hR.inv
  have hsize : p.blockSize = s.blockSize := by rw [← hR.params]; rfl
  -- a write of `n` bytes that finds a block
  have hclamp : ∀ {h i}, OpenOn s fhandle h i →
      clampWrite s.blockSize (s.openFileTable.cell h).ofOffset toWrite =
        min toWrite (s.blockSize - (s.openFileTable.cell h).ofOffset) := by
    intro h i hh
    obtain ⟨name, j, hn, -, ho⟩ := hR.openOn hh
    obtain ⟨hf, ht⟩ := hI.named_file hn
    have := hI.sizeLe hf ht
    exact clampWrite_of_le hI.blockSize_lt (by omega) (by omega)
  cases he with
  | writeBad hh =>
    simp only [storeStep, hR.slot_none hh]
    exact ⟨trivial, hR⟩
  | writeZero h i hh hn =>
    obtain ⟨name, j, hname, hs, ho⟩ := hR.openOn hh
    obtain ⟨hf, ht⟩ := hI.named_file hname
    have hpos := hI.sane.blockPos
    rw [hclamp hh] at hn
    have hroom : ¬ (a.content name = [] ∧ 0 < toWrite ∧
        a.nonEmpty.card = p.maxBlockCount - 1) := by
      rintro ⟨hnil, hw, -⟩
      rw [hR.content hname, ← List.length_eq_zero_iff, fileBytes_length] at hnil
      omega
    simp only [storeStep, hs, Store.write, hroom, if_false, hsize, hn, List.range_zero,
      List.map_nil, overwrite_nil, Nat.add_zero, hR.insert_self hname]
    exact ⟨rfl, (Store.setSlot_self hs).symm ▸ hR⟩
  | writeNoBlock h i hh hn hz hnone =>
    obtain ⟨name, j, hname, hs, ho⟩ := hR.openOn hh
    rw [hclamp hh] at hn
    have hfull : a.content name = [] ∧ 0 < toWrite ∧ a.nonEmpty.card = p.maxBlockCount - 1 :=
      ⟨by rw [hR.content hname, fileBytes_empty hz], by omega, hR.blocks_full_iff.mp hnone⟩
    simp only [storeStep, hs, Store.write]
    rw [if_pos hfull]
    exact ⟨rfl, hR⟩
  | write h i b n hh hn hcl hmin hblk hnew hold =>
    obtain ⟨name, j, hname, hs, ho⟩ := hR.openOn hh
    have hroom : ¬ (a.content name = [] ∧ 0 < toWrite ∧
        a.nonEmpty.card = p.maxBlockCount - 1) := by
      rintro ⟨hnil, -, hcard⟩
      rw [hR.content hname, ← List.length_eq_zero_iff, fileBytes_length] at hnil
      exact hR.blocks_full_iff.mpr hcard b hblk.2 (hnew hnil).2.1
    simp only [storeStep, hs, Store.write, hroom, if_false, hsize, ← hmin]
    refine ⟨by rw [castSsize_of_lt (by omega)], ?_⟩
    exact refines_written hR buffer hh hname hn ho (by omega) hblk hnew hold

theorem read_refines {fhandle : Int} {len : Nat} {r : Ret} {s' : Tfs} (hu : len < 2 ^ 63)
    (he : Effect s (.tfsRead fhandle len) r s') :
    r = (storeStep p a (.tfsRead fhandle len)).1 ∧
      Refines p s' (storeStep p a (.tfsRead fhandle len)).2 := by
  have hI := hR.inv
  cases he with
  | readBad hh =>
    simp only [storeStep, hR.slot_none hh]
    exact ⟨trivial, hR⟩
  | readZero h i hh hn =>
    obtain ⟨name, j, hname, hs, ho⟩ := hR.openOn hh
    rw [hI.clampRead_openOn hh len ho] at hn
    have hnil : a.chunk ⟨name, (s.openFileTable.cell h).ofOffset⟩ len = [] := by
      unfold Store.chunk
      rw [hR.content hname, ← List.length_eq_zero_iff, slice_length]
      exact hn
    simp only [storeStep, hs, hnil, List.length_nil, Nat.add_zero]
    exact ⟨rfl, (Store.setSlot_self hs).symm ▸ hR⟩
  | read h i b n hh hn hlen hblk hin =>
    obtain ⟨name, j, hname, hs, ho⟩ := hR.openOn hh
    rw [hI.clampRead_openOn hh len ho] at hlen
    have hchunk : a.chunk ⟨name, (s.openFileTable.cell h).ofOffset⟩ len =
        s.fsData.cells (b * s.blockSize + (s.openFileTable.cell h).ofOffset) n := by
      unfold Store.chunk
      rw [hR.content hname]
      exact (cells_eq_slice hblk.1 hlen).symm
    simp only [storeStep, hs, hchunk, Region.cells_length]
    exact ⟨by rw [castSsize_of_lt (by omega)], refines_readAdvanced hR hh hname (by omega)⟩

theorem effect_refines {c : Call} {r : Ret} {s' : Tfs} (hb : p.blockSize < 2 ^ 63)
    (hu : BrokerUse s c) (he : Effect s c r s') :
    r = (storeStep p a c).1 ∧ Refines p s' (storeStep p a c).2 := by
  cases c with
  | tfsOpen name mode =>
    cases name with
    | none =>
      cases he with
      | openBad hv => exact ⟨rfl, hR⟩
    | some path => exact open_refines hR hu he
  | tfsClose fhandle =>
    cases he with
    | closeBad hh =>
      simp only [storeStep, hR.slot_none hh]
      exact ⟨trivial, hR⟩
    | close h hh =>
      obtain ⟨i, hoi⟩ := hR.inv.handle_openOn hh
      obtain ⟨name, j, -, hs, -⟩ := hR.openOn hoi
      rw [hh.1] at hs ⊢
      simp only [storeStep, hs]
      exact ⟨trivial, refines_handleFreed hR⟩
  | tfsWrite fhandle buffer toWrite => exact write_refines hR hb hu he
  | tfsRead fhandle len => exact read_refines hR hu he
  | tfsUnlink target =>
    cases target with
    | none =>
      cases he with
      | unlinkBad hv => exact ⟨rfl, hR⟩
    | some path =>
      cases he with
      | unlinkBad hv =>
        simp only [storeStep, hv, Bool.false_eq_true, false_and, if_false]
        exact ⟨trivial, hR⟩
      | unlinkAbsent hv ha =>
        have hno : ¬ path.tail ∈ a.files := Finmap.lookup_eq_none.mp (hR.absent _ ha)
        simp only [storeStep, hno, and_false, if_false]
        exact ⟨trivial, hR⟩
      | unlink j i hv hn =>
        have hyes : path.tail ∈ a.files := hR.mem_files.mpr ⟨j, i, hn⟩
        simp only [storeStep, hv, hyes, and_self, if_true]
        exact ⟨trivial, refines_unlinked hR hn (hu hv j i hn)⟩

omit hR in
/-- As the broker uses it, every call returns. -/
theorem broker_isOk (hR : Refines p s a) (hb : p.blockSize < 2 ^ 63) {c : Call}
    (hu : BrokerUse s c) : ∃ r s', exec s c = ok (r, s') := by
  have hI := hR.inv
  have hsize : p.blockSize = s.blockSize := by rw [← hR.params]; rfl
  cases c with
  | tfsOpen name mode =>
    obtain ⟨v, t, h, -⟩ := tfsOpen_effect hI name mode
    exact ⟨⟨v, []⟩, t, by simp only [exec, h, ok_bind, pure_eq]⟩
  | tfsClose fhandle =>
    obtain ⟨v, t, h, -⟩ := tfsClose_effect hI fhandle
    exact ⟨⟨v, []⟩, t, by simp only [exec, h, ok_bind, pure_eq]⟩
  | tfsUnlink target =>
    obtain ⟨v, t, h, -⟩ := tfsUnlink_effect hI target
    exact ⟨⟨v, []⟩, t, by simp only [exec, h, ok_bind, pure_eq]⟩
  | tfsWrite fhandle buffer toWrite =>
    suffices h : ∃ v t, tfsWrite s fhandle buffer toWrite = ok (v, t) by
      obtain ⟨v, t, h⟩ := h
      exact ⟨⟨v, []⟩, t, by simp only [exec, h, ok_bind, pure_eq]⟩
    by_cases hex : ∃ h, Handle s fhandle h
    swap
    · exact ⟨_, _, tfsWrite_bad hI.sane (fun h h' => hex ⟨h, h'⟩) _ _⟩
    obtain ⟨h, hh⟩ := hex
    obtain ⟨i, hh⟩ := hI.handle_openOn hh
    obtain ⟨name, j, hn, -, ho⟩ := hR.openOn hh
    obtain ⟨hf, ht⟩ := hI.named_file hn
    have hle := hI.sizeLe hf ht
    have hu' : toWrite < 2 ^ 63 := hu
    exact tfsWrite_returns hI hh buffer (Nat.le_trans ho hle) (sumFits_of_lt (by omega))
  | tfsRead fhandle len =>
    suffices h : ∃ v bytes t, tfsRead s fhandle len = ok (v, bytes, t) by
      obtain ⟨v, bytes, t, h⟩ := h
      exact ⟨⟨v, bytes⟩, t, by simp only [exec, h, ok_bind, pure_eq]⟩
    by_cases hex : ∃ h, Handle s fhandle h
    swap
    · exact ⟨_, _, _, tfsRead_bad hI.sane (fun h h' => hex ⟨h, h'⟩) _⟩
    obtain ⟨h, hh⟩ := hex
    obtain ⟨i, hh⟩ := hI.handle_openOn hh
    obtain ⟨name, j, -, -, ho⟩ := hR.openOn hh
    exact ⟨_, _, _, tfsRead_within hI hh len ho⟩

theorem refines_exec {c : Call} (hb : p.blockSize < 2 ^ 63) (hu : BrokerUse s c) :
    ∃ s', exec s c = ok ((storeStep p a c).1, s') ∧ Refines p s' (storeStep p a c).2 := by
  obtain ⟨r, s', h⟩ := broker_isOk hR hb hu
  obtain ⟨rfl, hR'⟩ := effect_refines hR hb hu (exec_effect hR.inv h)
  exact ⟨s', h, hR'⟩

end

/-! ## Runs -/

theorem refines_initial {s : Tfs} (hi : Initial s) : Refines s.fsParams s (.init s.fsParams) where
  inv := hi.inv
  noLeak := noLeak_initial hi
  params := rfl
  named _ j _ hn := absurd hn.live (hi.noFile j hn.1)
  absent _ _ := Finmap.lookup_empty _
  slotsLength := List.length_replicate
  freeSlot h hh _ := by
    simp only [Store.init, List.getElem?_replicate]
    exact if_pos hh
  takenSlot h hh ht := by
    rw [hi.handles h hh] at ht
    cases ht

theorem Refines.length_le {p : TfsParams} {s : Tfs} {a : Store} (hR : Refines p s a) {name : CStr}
    {bytes : List UInt8} (h : a.files.lookup name = some bytes) : bytes.length ≤ p.blockSize := by
  obtain ⟨j, i, hn, rfl⟩ := hR.lookup_some h
  obtain ⟨hf, ht⟩ := hR.inv.named_file hn
  rw [fileBytes_length, ← hR.params]
  exact hR.inv.sizeLe hf ht

/-- Every answer of a run from a successful `tfs_init` is that of the abstract store, whose
files have at most `block_size` bytes. -/
theorem refines_run {s₀ s₁ : Tfs} {m : Mallocs} {params : Option TfsParams} {p : TfsParams}
    {cs : List Call} (hparams : p = params.getD tfsDefaultParams) (hp : GoodParams p)
    (hb : p.blockSize < 2 ^ 63) (hinit : tfsInit s₀ m params = ok (0, s₁))
    (hu : Allowed exec BrokerUse s₁ cs) :
    ∃ s a, run exec s₁ cs = ok ((arun (storeStep p) (.init p) cs).1, s) ∧
      a = (arun (storeStep p) (.init p) cs).2 ∧ Refines p s a ∧
      ∀ name bytes, a.files.lookup name = some bytes → bytes.length ≤ p.blockSize := by
  subst hparams
  obtain ⟨hini, heq, -⟩ := tfsInit_initial hp hinit
  have hR := refines_initial hini
  rw [heq] at hR
  have hstep : ∀ s a c, Refines (params.getD tfsDefaultParams) s a → BrokerUse s c →
      ∃ s', exec s c = ok ((storeStep (params.getD tfsDefaultParams) a c).1, s') ∧
        Refines (params.getD tfsDefaultParams) s' (storeStep (params.getD tfsDefaultParams) a c).2 :=
    fun _ _ _ hR hu => refines_exec hR hb hu
  obtain ⟨s, hrun, hR'⟩ := run_refine hstep hR hu
  exact ⟨s, _, hrun, rfl, hR', fun _ _ h => hR'.length_le h⟩

/-- `/a` is created and written, and read through a second handle. -/
def shareCalls : List Call :=
  [.tfsOpen (some pathA) tfsOCreat, .tfsWrite 0 (fun k => UInt8.ofNat k) 5,
    .tfsOpen (some pathA) 0, .tfsRead 1 3, .tfsWrite 0 (fun _ => 7) 90, .tfsRead 1 90]

theorem refines_run_share : ∃ s a,
    run exec smallDisk shareCalls = ok ((arun (storeStep smallParams) (.init smallParams)
      shareCalls).1, s) ∧ a = (arun (storeStep smallParams) (.init smallParams) shareCalls).2 ∧
      Refines smallParams s a ∧
      ∀ name bytes, a.files.lookup name = some bytes → bytes.length ≤ smallParams.blockSize := by
  have hparams : smallParams = (some smallParams).getD tfsDefaultParams := rfl
  refine refines_run hparams smallParams_good (by decide) smallDisk_init (allowed_of_forall ?_)
  simp only [shareCalls, List.forall_mem_cons, BrokerUse]
  simp [hasFlag, tfsOCreat, tfsOTrunc]
  exact fun _ => rfl

end Mbroker
