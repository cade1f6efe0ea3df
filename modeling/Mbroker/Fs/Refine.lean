import Mbroker.Fs.Content
import Mbroker.Fs.Store

/-!
# TécnicoFS refines the abstract file store

As the broker uses it, TécnicoFS is the store of `Fs.Store`: it truncates no file and
unlinks none that is open.  `Refines p s a` reads the store `a` off the state `s`: the
live directory entries are its files, the TAKEN handles its open files.

    card_inodes, card_entries, card_nonEmpty : how many files there are and how many are
      not empty, counted in the inode table, the directory and the block table
    canCreate_iff : there is room for a file just when the store says so
-/

namespace Mbroker

open CLib CLib.Outcome

/-- No truncation, no unlink of an open file, and lengths below `2 ^ 63`. -/
def BrokerUse (s : Tfs) : Call → Prop
  | .tfsOpen _ mode => hasFlag mode tfsOTrunc = false
  | .tfsClose _ => True
  | .tfsWrite _ _ toWrite => toWrite < 2 ^ 63
  | .tfsRead _ len => len < 2 ^ 63
  | .tfsUnlink none => True
  | .tfsUnlink (some path) => validPathname (some path) = true →
      ∀ j i, Named s path.tail j i → ∀ fhandle h, ¬ OpenOn s fhandle h i

structure Refines (p : TfsParams) (s : Tfs) (a : Store) : Prop where
  inv : Inv s
  noLeak : NoLeak s
  params : s.fsParams = p
  named : ∀ name j i, Named s name j i → a.files.lookup name = some (fileBytes s i)
  absent : ∀ name, Absent s name → a.files.lookup name = none
  slotsLength : a.slots.length = s.maxOpenFiles
  freeSlot : ∀ h, h < s.maxOpenFiles → s.freeOpenFileEntries.cell h = .free →
    a.slots[h]? = some none
  takenSlot : ∀ h, h < s.maxOpenFiles → s.freeOpenFileEntries.cell h = .taken →
    ∃ name j i, Named s name j i ∧ (s.openFileTable.cell h).ofInumber = (i : Int) ∧
      a.slots[h]? = some (some ⟨name, (s.openFileTable.cell h).ofOffset⟩) ∧
      (s.openFileTable.cell h).ofOffset ≤ (s.inodeTable.cell i).iSize

/-! ## Names and inodes -/

section
variable {s : Tfs}

theorem Inv.named_unique (hI : Inv s) {name : CStr} {j i j' i' : Nat} (h : Named s name j i)
    (h' : Named s name j' i') : j = j' ∧ i = i' := by
  have hj : j = j' := hI.root.dir.names j j' h.1 h'.1 h.live h'.live (h.2.2.trans h'.2.2.symm)
  subst hj
  have := h.2.1
  have := h'.2.1
  exact ⟨rfl, by omega⟩

theorem Inv.named_inode (hI : Inv s) {name name' : CStr} {j i j' : Nat} (h : Named s name j i)
    (h' : Named s name' j' i) : name = name' ∧ j = j' := by
  have hj : j = j' := hI.inums j j' h.1 h'.1 h.live (h.2.1.trans h'.2.1.symm)
  subst hj
  exact ⟨CStr.ext' (h.2.2.symm.trans h'.2.2), rfl⟩

/-- Every TAKEN inode but the root has a name. -/
theorem Inv.taken_named (hI : Inv s) {i : Nat} (hf : FileIndex s i)
    (ht : s.freeinodeTs.cell i = .taken) : ∃ name j, Named s name j i := by
  obtain ⟨j, hj, hi⟩ := hI.takenLive i hf ht
  exact ⟨⟨slotName s.fsData 0 j, cstr_nonul _ _ _⟩, j, hj, hi, rfl⟩

theorem named_created {i j : Nat} {name name' : CStr} {j' i' : Nat} (hi : i < 2 ^ 31)
    (hn : name.strlen ≤ 39) (h : Named (created s i j name) name' j' i') :
    (name' = name ∧ i' = i) ∨ (j' ≠ j ∧ Named s name' j' i') := by
  obtain ⟨h1, h2, h3⟩ := h
  simp only [created] at h2 h3
  by_cases hj : j' = j
  · subst hj
    rw [addEntry_inum (by omega)] at h2
    rw [addEntry_name hn] at h3
    exact Or.inl ⟨CStr.ext' h3.symm, by omega⟩
  · rw [(addEntry_ne hj).1] at h2
    rw [(addEntry_ne hj).2] at h3
    exact Or.inr ⟨hj, h1, h2, h3⟩

theorem named_created_other {i j : Nat} {name name' : CStr} {j' i' : Nat}
    (hj : ¬ Live s.fsData 0 j) (h : Named s name' j' i') : Named (created s i j name) name' j' i' := by
  have hne : j' ≠ j := fun e => hj (e ▸ h.live)
  refine ⟨h.1, ?_, ?_⟩
  · simp only [created]; rw [(addEntry_ne hne).1]; exact h.2.1
  · simp only [created]; rw [(addEntry_ne hne).2]; exact h.2.2

theorem named_created_self {i j : Nat} {name : CStr} (hj : j < s.maxDirEntries) (hi : i < 2 ^ 31)
    (hn : name.strlen ≤ 39) : Named (created s i j name) name j i := by
  refine ⟨hj, ?_, ?_⟩
  · simp only [created]; rw [addEntry_inum (by omega)]
  · simp only [created]; rw [addEntry_name hn]

theorem absent_created {i j : Nat} {name name' : CStr} (hi : i < 2 ^ 31)
    (hn : name.strlen ≤ 39) (hj : j < s.maxDirEntries ∧ ¬ Live s.fsData 0 j)
    (h : Absent (created s i j name) name') : name' ≠ name ∧ Absent s name' := by
  constructor
  · rintro rfl
    have hself := named_created_self hj.1 hi hn
    exact h j hj.1 hself.live hself.2.2
  · intro k hk hl he
    have hne : k ≠ j := fun e => hj.2 (e ▸ hl)
    refine h k hk ((live_created hne).mpr hl) ?_
    simp only [created]
    rw [(addEntry_ne hne).2]
    exact he

theorem named_unlinked {i j : Nat} {name' : CStr} {j' i' : Nat} :
    Named (unlinked s i j) name' j' i' ↔ j' ≠ j ∧ Named s name' j' i' := by
  have hne : j' ≠ j → (Named (unlinked s i j) name' j' i' ↔ Named s name' j' i') := by
    intro hj
    unfold Named
    simp only [unlinked, (clearEntry_ne hj).1, (clearEntry_ne hj).2]
    exact Iff.rfl
  constructor
  · intro h
    have hj : j' ≠ j := (live_unlinked h.live).1
    exact ⟨hj, (hne hj).mp h⟩
  · rintro ⟨hj, h⟩
    exact (hne hj).mpr h

theorem absent_unlinked {i j : Nat} {name name' : CStr} (hn : Named s name j i)
    (hne : name' ≠ name) (h : Absent (unlinked s i j) name') : Absent s name' := by
  intro k hk hl he
  by_cases hkj : k = j
  · subst hkj
    exact hne (CStr.ext' (he.symm.trans hn.2.2))
  · refine h k hk ?_ ?_
    · simp only [unlinked]
      exact (live_congr (clearEntry_ne hkj).1).mpr hl
    · simp only [unlinked]
      rw [(clearEntry_ne hkj).2]
      exact he

theorem named_written {h i b n : Nat} {buffer : Nat → UInt8} (hb : 0 < b) {name : CStr}
    {j k : Nat} : Named (written s h i b buffer n) name j k ↔ Named s name j k := by
  have hslot : j < s.maxDirEntries → _ := slot_written (h := h) (i := i) (n := n) buffer hb
  constructor
  · rintro ⟨h1, h2, h3⟩
    exact ⟨h1, (hslot h1).1 ▸ h2, (hslot h1).2 ▸ h3⟩
  · rintro ⟨h1, h2, h3⟩
    exact ⟨h1, (hslot h1).1.trans h2, (hslot h1).2.trans h3⟩

theorem absent_written {h i b n : Nat} {buffer : Nat → UInt8} (hb : 0 < b) {name : CStr}
    (ha : Absent (written s h i b buffer n) name) : Absent s name := by
  intro j hj hl he
  have hslot := slot_written (s := s) (h := h) (i := i) (n := n) buffer hb hj
  exact ha j hj ((live_congr hslot.1).mpr hl) (hslot.2.trans he)

end

/-! ## Files and handles of related states -/

section
variable {p : TfsParams} {s : Tfs} {a : Store} (hR : Refines p s a)

include hR

theorem Refines.lookup_some {name : CStr} {bytes : List UInt8}
    (h : a.files.lookup name = some bytes) :
    ∃ j i, Named s name j i ∧ bytes = fileBytes s i := by
  rcases hR.inv.named_or_absent name with ⟨j, i, hn⟩ | ha
  · have := (hR.named name j i hn).symm.trans h
    exact ⟨j, i, hn, (Option.some.inj this).symm⟩
  · rw [hR.absent name ha] at h
    cases h

theorem Refines.mem_files {name : CStr} : name ∈ a.files ↔ ∃ j i, Named s name j i := by
  rw [Finmap.mem_iff]
  constructor
  · rintro ⟨bytes, h⟩
    obtain ⟨j, i, hn, -⟩ := hR.lookup_some h
    exact ⟨j, i, hn⟩
  · rintro ⟨j, i, hn⟩
    exact ⟨_, hR.named name j i hn⟩

theorem Refines.content {name : CStr} {j i : Nat} (h : Named s name j i) :
    a.content name = fileBytes s i := by
  unfold Store.content
  rw [hR.named name j i h]
  rfl

theorem Refines.slot_none {fhandle : Int} (hh : ∀ h, ¬ Handle s fhandle h) :
    a.slot fhandle = none := by
  unfold Store.slot
  split
  · next h0 =>
    rcases Nat.lt_or_ge fhandle.toNat s.maxOpenFiles with hlt | hge
    · cases hts : s.freeOpenFileEntries.cell fhandle.toNat with
      | free => rw [hR.freeSlot _ hlt hts]; rfl
      | taken => exact absurd ⟨by omega, hlt, hts⟩ (hh fhandle.toNat)
    · rw [List.getElem?_eq_none (by rw [hR.slotsLength]; exact hge)]
      rfl
  · rfl

/-- An open handle and the inode and file behind it. -/
theorem Refines.openOn {fhandle : Int} {h i : Nat} (hh : OpenOn s fhandle h i) :
    ∃ name j, Named s name j i ∧
      a.slot fhandle = some ⟨name, (s.openFileTable.cell h).ofOffset⟩ ∧
      (s.openFileTable.cell h).ofOffset ≤ (s.inodeTable.cell i).iSize := by
  obtain ⟨⟨rfl, hlt, ht⟩, hi⟩ := hh
  obtain ⟨name, j, k, hn, hk, hs, ho⟩ := hR.takenSlot h hlt ht
  have : k = i := by omega
  subst this
  refine ⟨name, j, hn, ?_, ho⟩
  unfold Store.slot
  rw [if_pos (by omega), Int.toNat_natCast, hs]
  rfl

theorem Refines.findIdx_some {h : Nat}
    (hh : FirstAt (fun h => s.freeOpenFileEntries.cell h = .free) s.maxOpenFiles h) :
    a.slots.findIdx? Option.isNone = some h := by
  have hlen := hR.slotsLength
  rw [List.findIdx?_eq_some_iff_getElem]
  refine ⟨by rw [hlen]; exact hh.1, ?_, ?_⟩
  · have := hR.freeSlot h hh.1 hh.2.1
    rw [List.getElem?_eq_getElem (by rw [hlen]; exact hh.1)] at this
    rw [Option.some.inj this]
    rfl
  · intro k hk
    have hklt : k < s.maxOpenFiles := Nat.lt_trans hk hh.1
    obtain ⟨name, j, i, -, -, hs, -⟩ := hR.takenSlot k hklt (not_free_iff.mp (hh.2.2 k hk))
    rw [List.getElem?_eq_getElem (by rw [hlen]; exact hklt)] at hs
    rw [Option.some.inj hs]
    simp

theorem Refines.findIdx_none (hh : ∀ h, h < s.maxOpenFiles → ¬ s.freeOpenFileEntries.cell h = .free) :
    a.slots.findIdx? Option.isNone = none := by
  rw [List.findIdx?_eq_none_iff]
  intro x hx
  obtain ⟨k, hk, rfl⟩ := List.mem_iff_getElem.mp hx
  have hklt : k < s.maxOpenFiles := by rw [← hR.slotsLength]; exact hk
  obtain ⟨name, j, i, -, -, hs, -⟩ := hR.takenSlot k hklt (not_free_iff.mp (hh k hklt))
  rw [List.getElem?_eq_getElem hk] at hs
  rw [Option.some.inj hs]
  rfl

/-! ## Room for a file, room for a block -/

/-- The files are the TAKEN inodes behind the root. -/
theorem Refines.card_inodes :
    a.files.keys.card = Nat.count (fun k => s.freeinodeTs.cell (k + 1) = .taken)
      (s.inodeTableSize - 1) := by
  have hI := hR.inv
  refine card_eq_count_of_rel (fun name k => ∃ j, Named s name j (k + 1)) ?_ ?_ ?_ ?_
  · intro name hname
    obtain ⟨j, i, hn⟩ := hR.mem_files.mp (Finmap.mem_keys.mp hname)
    obtain ⟨⟨h0, hlt⟩, ht⟩ := hI.named_file hn
    have hi : i - 1 + 1 = i := by omega
    exact ⟨i - 1, by omega, by rw [hi]; exact ht, j, by rw [hi]; exact hn⟩
  · intro k hk ht
    obtain ⟨name, j, hn⟩ := hI.taken_named ⟨by omega, by omega⟩ ht
    exact ⟨name, Finmap.mem_keys.mpr (hR.mem_files.mpr ⟨j, k + 1, hn⟩), j, hn⟩
  · rintro name name' k ⟨j, hn⟩ ⟨j', hn'⟩
    exact (hI.named_inode hn hn').1
  · rintro name k k' ⟨j, hn⟩ ⟨j', hn'⟩
    have := (hI.named_unique hn hn').2
    omega

/-- The files are the live entries. -/
theorem Refines.card_entries :
    a.files.keys.card = Nat.count (fun j => Live s.fsData 0 j) s.maxDirEntries := by
  have hI := hR.inv
  refine card_eq_count_of_rel (fun name j => ∃ i, Named s name j i) ?_ ?_ ?_ ?_
  · intro name hname
    obtain ⟨j, i, hn⟩ := hR.mem_files.mp (Finmap.mem_keys.mp hname)
    exact ⟨j, hn.1, hn.live, i, hn⟩
  · intro j hj hl
    obtain ⟨i, hi, -⟩ := hI.liveInode j hj hl
    have hn : Named s ⟨slotName s.fsData 0 j, cstr_nonul _ _ _⟩ j i := ⟨hj, hi, rfl⟩
    exact ⟨_, Finmap.mem_keys.mpr (hR.mem_files.mpr ⟨j, i, hn⟩), i, hn⟩
  · rintro name name' j ⟨i, hn⟩ ⟨i', hn'⟩
    exact CStr.ext' (hn.2.2.symm.trans hn'.2.2)
  · rintro name j j' ⟨i, hn⟩ ⟨i', hn'⟩
    exact (hI.named_unique hn hn').1

/-- The files that are not empty have the TAKEN blocks behind the root's. -/
theorem Refines.card_nonEmpty :
    a.nonEmpty.card = Nat.count (fun k => s.freeBlocks.cell (k + 1) = .taken)
      (s.dataBlocks - 1) := by
  have hI := hR.inv
  refine card_eq_count_of_rel (fun name k => ∃ j i, Named s name j i ∧ Owns s i (k + 1)) ?_ ?_ ?_ ?_
  · intro name hname
    obtain ⟨hname, hne⟩ := Finset.mem_filter.mp hname
    obtain ⟨j, i, hn⟩ := hR.mem_files.mp (Finmap.mem_keys.mp hname)
    obtain ⟨hf, ht⟩ := hI.named_file hn
    have hz : 0 < (s.inodeTable.cell i).iSize := by
      rw [← fileBytes_length, ← hR.content hn]
      exact List.length_pos_of_ne_nil hne
    obtain ⟨b, hb, hlt, htb, hb0⟩ := hI.nonEmpty_block ⟨⟨hf.2, ht⟩, hz⟩
    have hpos := hf.1
    have hb1 : b - 1 + 1 = b := by omega
    exact ⟨b - 1, by omega, by rw [hb1]; exact htb, j, i, hn, ⟨⟨hf.2, ht⟩, hz⟩, by rw [hb1]; exact hb⟩
  · intro k hk ht
    obtain ⟨i, ho⟩ := hR.noLeak (k + 1) (by omega) ht
    obtain ⟨b, hb, -, -, hb0⟩ := hI.nonEmpty_block ho.1
    have hi0 : i ≠ 0 := by have := ho.2; omega
    obtain ⟨name, j, hn⟩ := hI.taken_named ⟨by omega, ho.1.1.1⟩ ho.1.1.2
    refine ⟨name, Finset.mem_filter.mpr ⟨Finmap.mem_keys.mpr (hR.mem_files.mpr ⟨j, i, hn⟩), ?_⟩,
      j, i, hn, ho⟩
    rw [hR.content hn]
    intro he
    have := ho.1.2
    rw [← fileBytes_length, he] at this
    exact absurd this (Nat.lt_irrefl 0)
  · rintro name name' k ⟨j, i, hn, ho⟩ ⟨j', i', hn', ho'⟩
    have hii := owns_inj hI ho ho'
    subst hii
    exact (hI.named_inode hn hn').1
  · rintro name k k' ⟨j, i, hn, ho⟩ ⟨j', i', hn', ho'⟩
    obtain ⟨-, rfl⟩ := hI.named_unique hn hn'
    have := ho.2
    have := ho'.2
    omega

theorem Refines.inodes_full_iff :
    (∀ i, i < s.inodeTableSize → ¬ s.freeinodeTs.cell i = .free) ↔
      a.files.keys.card = p.maxInodeCount - 1 := by
  have hpos := hR.inv.root.inodePos
  have hsize : s.inodeTableSize = p.maxInodeCount := by rw [← hR.params]; rfl
  rw [hR.card_inodes, ← hsize, Nat.count_iff_forall]
  constructor
  · intro h k hk
    exact not_free_iff.mp (h (k + 1) (by omega))
  · intro h i hi
    rcases Nat.eq_zero_or_pos i with rfl | hi0
    · exact not_free_iff.mpr hR.inv.rootTaken
    · have := h (i - 1) (by omega)
      rw [show i - 1 + 1 = i by omega] at this
      exact not_free_iff.mpr this

theorem Refines.entries_full_iff :
    (∀ j, j < s.maxDirEntries → Live s.fsData 0 j) ↔
      a.files.keys.card = p.blockSize / sizeofDirEntry := by
  have hsize : s.maxDirEntries = p.blockSize / sizeofDirEntry := by rw [← hR.params]; rfl
  rw [hR.card_entries, ← hsize, Nat.count_iff_forall]

theorem Refines.blocks_full_iff :
    (∀ b, b < s.dataBlocks → ¬ s.freeBlocks.cell b = .free) ↔
      a.nonEmpty.card = p.maxBlockCount - 1 := by
  have hpos := hR.inv.root.blockPos
  have hsize : s.dataBlocks = p.maxBlockCount := by rw [← hR.params]; rfl
  rw [hR.card_nonEmpty, ← hsize, Nat.count_iff_forall]
  constructor
  · intro h k hk
    exact not_free_iff.mp (h (k + 1) (by omega))
  · intro h b hb
    rcases Nat.eq_zero_or_pos b with rfl | hb0
    · exact not_free_iff.mpr hR.inv.rootBlock
    · have := h (b - 1) (by omega)
      rw [show b - 1 + 1 = b by omega] at this
      exact not_free_iff.mpr this

theorem Refines.canCreate_iff (name : CStr) :
    a.canCreate p name = true ↔ (1 ≤ name.strlen ∧ name.strlen ≤ 39) ∧
      (∃ i, i < s.inodeTableSize ∧ s.freeinodeTs.cell i = .free) ∧
      ∃ j, j < s.maxDirEntries ∧ ¬ Live s.fsData 0 j := by
  have h1 := hR.inodes_full_iff
  have h2 := hR.entries_full_iff
  have hle1 : a.files.keys.card ≤ p.maxInodeCount - 1 := by
    rw [hR.card_inodes, ← hR.params]
    exact Nat.count_le _
  have hle2 : a.files.keys.card ≤ p.blockSize / sizeofDirEntry := by
    rw [hR.card_entries, ← hR.params]
    exact Nat.count_le _
  have e1 : (∃ i, i < s.inodeTableSize ∧ s.freeinodeTs.cell i = .free) ↔
      a.files.keys.card < p.maxInodeCount - 1 := by
    rw [Nat.lt_iff_le_and_ne, ne_eq, ← h1]
    push Not
    exact ⟨fun h => ⟨hle1, h⟩, fun h => h.2⟩
  have e2 : (∃ j, j < s.maxDirEntries ∧ ¬ Live s.fsData 0 j) ↔
      a.files.keys.card < p.blockSize / sizeofDirEntry := by
    rw [Nat.lt_iff_le_and_ne, ne_eq, ← h2]
    push Not
    exact ⟨fun h => ⟨hle2, h⟩, fun h => h.2⟩
  unfold Store.canCreate
  rw [decide_eq_true_eq, e1, e2, Nat.lt_min, and_assoc]

end

end Mbroker
