import Mbroker.Fs.Simulate

/-!
# A box file is an append-only stream

One handle `w`, opened with `TFS_O_APPEND`, writes a file; the other handles on it
read.  `StreamLog` records what `tfs_write` accepted through `w` and what each handle
read since it was opened.

    stream_run : in every run, the content is what it was when `w` was opened and then
      what was accepted, and every handle has read the content from where it was opened

The proof is about the abstract store: the offset of `w` is the length of the file.
-/

namespace Mbroker

open CLib CLib.Outcome

/-- Where a handle was opened, and the bytes read through it since. -/
structure Reading where
  start : Nat
  got : List UInt8

structure StreamLog where
  accepted : List UInt8
  reading : Nat → Reading

/-- The log behind a call with answer `r`; `offset` is that of a handle just opened. -/
def StreamLog.update (w : Int) (g : StreamLog) (c : Call) (r : Ret) (offset : Nat) : StreamLog :=
  match c with
  | .tfsOpen _ _ =>
    if 0 ≤ r.val then
      { g with reading := fun h => if h = r.val.toNat then ⟨offset, []⟩ else g.reading h }
    else g
  | .tfsRead fhandle _ =>
    { g with
      reading := fun h =>
        if h = fhandle.toNat then ⟨(g.reading h).start, (g.reading h).got ++ r.bytes⟩
        else g.reading h }
  | .tfsWrite fhandle buffer _ =>
    if fhandle = w then { g with accepted := g.accepted ++ (List.range r.val.toNat).map buffer }
    else g
  | _ => g

def logStep (w : Int) (g : StreamLog) (c : Call) (r : Ret) (_ s' : Tfs) : StreamLog :=
  g.update w c r (s'.openFileTable.cell r.val.toNat).ofOffset

/-- Nothing accepted; every handle is read from where it is. -/
def StreamLog.init (s : Tfs) : StreamLog := ⟨[], fun h => ⟨(s.openFileTable.cell h).ofOffset, []⟩⟩

/-- `w` stays open, and writes to its file go through it. -/
def StreamUse (w : Int) (s : Tfs) (c : Call) : Prop :=
  BrokerUse s c ∧
    match c with
    | .tfsClose fhandle => fhandle ≠ w
    | .tfsWrite fhandle _ _ => ∀ h i k, OpenOn s fhandle h i → OpenOn s w k i → fhandle = w
    | _ => True

/-- The content behind `c₀` is what was accepted; each other handle on the file has read the
content from its start up to its offset. -/
structure Stream (w : Int) (name : CStr) (c₀ : List UInt8) (s : Tfs) (g : StreamLog) (i : Nat) :
    Prop where
  named : ∃ j, Named s name j i
  writer : ∃ h, OpenOn s w h i
  content : fileBytes s i = c₀ ++ g.accepted
  reader : ∀ fhandle h, fhandle ≠ w → OpenOn s fhandle h i →
    (g.reading h).got <+: (fileBytes s i).drop (g.reading h).start ∧
    (s.openFileTable.cell h).ofOffset = (g.reading h).start + (g.reading h).got.length

/-- What a write of `n` bytes to the end of file `i` does: it accepts the bytes for which the block has
room, or none when the file is empty and no block is FREE. -/
def Accepts (s : Tfs) (i : Nat) (buffer : Nat → UInt8) (n : Nat) (r : Ret) (s' : Tfs) : Prop :=
  (r.val = (min n (s.blockSize - (fileBytes s i).length) : Nat) ∧
    fileBytes s' i = fileBytes s i ++ (List.range r.val.toNat).map buffer) ∨
  (r.val = -1 ∧ fileBytes s' i = fileBytes s i ∧ fileBytes s i = [] ∧
    ∀ b, b < s.dataBlocks → ¬ s.freeBlocks.cell b = .free)

/-- What a read of `len` bytes through handle `h` of file `i` does: it gets what comes next in the
content, as far as there is any, and moves the offset behind it. -/
def ReadsNext (s : Tfs) (h i len : Nat) (r : Ret) (s' : Tfs) : Prop :=
  r.val = (min len ((fileBytes s i).length - (s.openFileTable.cell h).ofOffset) : Nat) ∧
    r.bytes = ((fileBytes s i).drop (s.openFileTable.cell h).ofOffset).take len ∧
    s' = readAdvanced s h r.bytes.length

/-! ## The stream in the abstract store -/

structure StreamStore (w : Int) (name : CStr) (c₀ : List UInt8) (a : Store) (g : StreamLog) :
    Prop where
  file : a.files.lookup name = some (c₀ ++ g.accepted)
  writer : a.slot w = some ⟨name, (c₀ ++ g.accepted).length⟩
  reader : ∀ fhandle offset, fhandle ≠ w → a.slot fhandle = some ⟨name, offset⟩ →
    (g.reading fhandle.toNat).got <+: (c₀ ++ g.accepted).drop (g.reading fhandle.toNat).start ∧
    offset = (g.reading fhandle.toNat).start + (g.reading fhandle.toNat).got.length

/-- A prefix followed by what comes next is a prefix. -/
theorem prefix_append_take {l got : List UInt8} {start : Nat} (len : Nat)
    (h : got <+: l.drop start) :
    got ++ (l.drop (start + got.length)).take len <+: l.drop start := by
  obtain ⟨rest, hrest⟩ := h
  have hdrop : l.drop (start + got.length) = rest := by
    rw [← List.drop_drop, ← hrest, List.drop_left]
  rw [hdrop, ← hrest]
  exact List.prefix_append_right_inj got |>.mpr (List.take_prefix _ _)

theorem drop_prefix_append (l d : List UInt8) (k : Nat) : l.drop k <+: (l ++ d).drop k := by
  rw [List.drop_append]
  exact List.prefix_append _ _

section
variable {w : Int} {name : CStr} {c₀ : List UInt8} {a : Store} {g : StreamLog} {p : TfsParams}
variable (hS : StreamStore w name c₀ a g)

include hS

theorem StreamStore.content : a.content name = c₀ ++ g.accepted := by
  unfold Store.content
  rw [hS.file]
  rfl

/-- A new handle. -/
theorem streamStore_openSlot {f : OpenFile} {r : Ret} {offset : Nat} {path : Option CStr}
    {mode : UInt32} (hr : r.val = (a.openSlot f).1)
    (ho : ∀ f', (a.openSlot f).2.slot r.val = some f' → f'.offset = offset) :
    StreamStore w name c₀ (a.openSlot f).2 (g.update w (.tfsOpen path mode) r offset) := by
  rcases Store.openSlot_cases a f with hfull | ⟨h, hlt, hnone, hslot⟩
  · rw [hfull] at hr ⊢
    have hneg : ¬ 0 ≤ r.val := by rw [hr]; simp
    simp only [StreamLog.update, hneg, if_false]
    exact hS
  · rw [hslot] at hr ho ⊢
    simp only at hr ho ⊢
    rw [hr] at ho
    have hpos : (0 : Int) ≤ h := by omega
    have hwh : w ≠ h := by
      rintro rfl
      rw [hS.writer] at hnone
      cases hnone
    simp only [StreamLog.update, hr, hpos, if_true, Int.toNat_natCast]
    refine ⟨hS.file, ?_, fun fhandle o hw hf => ?_⟩
    · rw [Store.slot_setSlot_ne _ _ (by omega) hwh]
      exact hS.writer
    · by_cases hfh : fhandle = h
      · subst hfh
        have hoff : o = offset := ho _ hf
        simp only [Int.toNat_natCast, if_true]
        exact ⟨List.nil_prefix, by simp [hoff]⟩
      · rw [Store.slot_setSlot_ne _ _ (by omega) hfh] at hf
        have hb := Store.slot_bounds hf
        simp only [show fhandle.toNat ≠ h by omega, if_false]
        exact hS.reader fhandle o hw hf

/-- A call that fails leaves the log alone. -/
theorem streamStore_failed (c : Call) (offset : Nat) :
    StreamStore w name c₀ a (g.update w c ⟨-1, []⟩ offset) := by
  cases c with
  | tfsOpen path mode => exact hS
  | tfsClose fhandle => exact hS
  | tfsUnlink target => exact hS
  | tfsWrite fhandle buffer n =>
    have haccepted : g.accepted ++ (List.range (-1 : Int).toNat).map buffer = g.accepted := by simp
    simp only [StreamLog.update, haccepted]
    split <;> exact hS
  | tfsRead fhandle len =>
    have hreading : (fun h => if h = fhandle.toNat then
        (⟨(g.reading h).start, (g.reading h).got ++ []⟩ : Reading) else g.reading h) =
        g.reading := by
      funext h
      rw [List.append_nil]
      split <;> rfl
    simp only [StreamLog.update, hreading]
    exact hS

theorem streamStore_open {path : Option CStr} {mode : UInt32} {offset : Nat}
    (hoff : ∀ f, (storeStep p a (.tfsOpen path mode)).2.slot
      (storeStep p a (.tfsOpen path mode)).1.val = some f → f.offset = offset) :
    StreamStore w name c₀ (storeStep p a (.tfsOpen path mode)).2
      (g.update w (.tfsOpen path mode) (storeStep p a (.tfsOpen path mode)).1 offset) := by
  cases path with
  | none => exact streamStore_failed hS _ offset
  | some path =>
    simp only [storeStep] at hoff ⊢
    split at hoff
    swap
    · next hv =>
      rw [if_neg hv]
      exact streamStore_failed hS _ offset
    next hv =>
    rw [if_pos hv]
    simp only at hoff ⊢
    unfold Store.openFile at hoff ⊢
    cases hl : a.files.lookup path.tail with
    | some bytes =>
      simp only [hl] at hoff ⊢
      exact streamStore_openSlot hS rfl hoff
    | none =>
      simp only [hl] at hoff ⊢
      split at hoff
      · next hc =>
        rw [if_pos hc]
        have hne : name ≠ path.tail := by
          rintro rfl
          rw [hS.file] at hl
          cases hl
        have hS' : StreamStore w name c₀ { a with files := a.files.insert path.tail [] } g := by
          refine ⟨?_, hS.writer, hS.reader⟩
          simp only
          rw [Finmap.lookup_insert_of_ne _ hne]
          exact hS.file
        exact streamStore_openSlot hS' rfl hoff
      · next hc =>
        rw [if_neg hc]
        exact streamStore_failed hS _ offset

theorem streamStore_close {fhandle : Int} (hw : fhandle ≠ w) (offset : Nat) :
    StreamStore w name c₀ (storeStep p a (.tfsClose fhandle)).2
      (g.update w (.tfsClose fhandle) (storeStep p a (.tfsClose fhandle)).1 offset) := by
  cases hs : a.slot fhandle with
  | none =>
    simp only [storeStep, hs]
    exact hS
  | some f =>
    simp only [storeStep, hs]
    have hb := Store.slot_bounds hs
    refine ⟨hS.file, ?_, fun fhandle' o hw' hf => ?_⟩
    · rw [Store.slot_setSlot_ne _ _ hb.1 (Ne.symm hw)]
      exact hS.writer
    · have hne : fhandle' ≠ fhandle := by
        rintro rfl
        rw [Store.slot_setSlot_self _ _ (by exact hb)] at hf
        cases hf
      rw [Store.slot_setSlot_ne _ _ hb.1 hne] at hf
      exact hS.reader fhandle' o hw' hf

/-- What the writer writes is behind what the readers have read. -/
theorem streamStore_append (buffer : Nat → UInt8) (n : Nat) :
    StreamStore w name c₀
      (({ a with files := a.files.insert name (overwrite (c₀ ++ g.accepted)
        (c₀ ++ g.accepted).length ((List.range n).map buffer)) }).setSlot w
          (some ⟨name, (c₀ ++ g.accepted).length + n⟩))
      { g with accepted := g.accepted ++ (List.range n).map buffer } := by
  have hb := Store.slot_bounds hS.writer
  rw [overwrite_append, List.append_assoc]
  refine ⟨Finmap.lookup_insert _, ?_, fun fhandle o hw hf => ?_⟩
  · rw [Store.slot_setSlot_self _ _ (by exact hb)]
    simp only [List.length_append, List.length_map, List.length_range, Nat.add_assoc]
  · rw [Store.slot_setSlot_ne _ _ hb.1 hw] at hf
    obtain ⟨hpre, ho⟩ := hS.reader fhandle o hw hf
    refine ⟨hpre.trans ?_, ho⟩
    simp only [← List.append_assoc]
    exact drop_prefix_append _ _ _

theorem streamStore_write {fhandle : Int} {buffer : Nat → UInt8} {n : Nat}
    (hother : ∀ f, fhandle ≠ w → a.slot fhandle = some f → f.name ≠ name) (offset : Nat) :
    StreamStore w name c₀ (storeStep p a (.tfsWrite fhandle buffer n)).2
      (g.update w (.tfsWrite fhandle buffer n) (storeStep p a (.tfsWrite fhandle buffer n)).1
        offset) := by
  cases hs : a.slot fhandle with
  | none =>
    simp only [storeStep, hs]
    exact streamStore_failed hS _ offset
  | some f =>
    simp only [storeStep, hs, Store.write]
    split
    · exact streamStore_failed hS _ offset
    by_cases hw : fhandle = w
    · subst hw
      rw [hS.writer] at hs
      cases hs
      simp only [hS.content, StreamLog.update, if_true, Int.toNat_natCast]
      exact streamStore_append hS _ _
    · have hne := hother f hw hs
      have hb := Store.slot_bounds hs
      simp only [StreamLog.update, hw, if_false]
      refine ⟨?_, ?_, fun fhandle' o hw' hf => ?_⟩
      · simp only [Store.setSlot]
        rw [Finmap.lookup_insert_of_ne _ (Ne.symm hne)]
        exact hS.file
      · rw [Store.slot_setSlot_ne _ _ hb.1 (Ne.symm hw)]
        exact hS.writer
      · by_cases hff : fhandle' = fhandle
        · subst hff
          rw [Store.slot_setSlot_self _ _ (by exact hb)] at hf
          cases hf
          exact absurd rfl hne
        · rw [Store.slot_setSlot_ne _ _ hb.1 hff] at hf
          exact hS.reader fhandle' o hw' hf

theorem streamStore_read {fhandle : Int} {len : Nat} (offset : Nat) :
    StreamStore w name c₀ (storeStep p a (.tfsRead fhandle len)).2
      (g.update w (.tfsRead fhandle len) (storeStep p a (.tfsRead fhandle len)).1 offset) := by
  cases hs : a.slot fhandle with
  | none =>
    simp only [storeStep, hs]
    exact streamStore_failed hS _ offset
  | some f =>
    simp only [storeStep, hs, StreamLog.update]
    have hb := Store.slot_bounds hs
    refine ⟨hS.file, ?_, fun fhandle' o hw' hf => ?_⟩
    · by_cases hw : w = fhandle
      · -- the writer is at the end of the file
        subst hw
        rw [hS.writer] at hs
        cases hs
        rw [Store.slot_setSlot_self _ _ (by exact hb)]
        simp only [Store.chunk, hS.content, List.drop_length, List.take_nil, List.length_nil,
          Nat.add_zero]
      · rw [Store.slot_setSlot_ne _ _ hb.1 hw]
        exact hS.writer
    · by_cases hff : fhandle' = fhandle
      · subst hff
        rw [Store.slot_setSlot_self _ _ (by exact hb)] at hf
        obtain ⟨fname, foffset⟩ := f
        simp only [Option.some.injEq, OpenFile.mk.injEq] at hf
        obtain ⟨rfl, rfl⟩ := hf
        obtain ⟨hpre, ho⟩ := hS.reader fhandle' foffset hw' hs
        simp only [if_true, Store.chunk, hS.content, ho]
        exact ⟨prefix_append_take len hpre, by rw [List.length_append, Nat.add_assoc]⟩
      · rw [Store.slot_setSlot_ne _ _ hb.1 hff] at hf
        have hb' := Store.slot_bounds hf
        simp only [show fhandle'.toNat ≠ fhandle.toNat by omega, if_false]
        exact hS.reader fhandle' o hw' hf

theorem streamStore_unlink {target : Option CStr} (offset : Nat)
    (hother : ∀ path, target = some path → validPathname (some path) = true →
      path.tail ≠ name) :
    StreamStore w name c₀ (storeStep p a (.tfsUnlink target)).2
      (g.update w (.tfsUnlink target) (storeStep p a (.tfsUnlink target)).1 offset) := by
  cases target with
  | none => exact hS
  | some path =>
    simp only [storeStep]
    split
    · next hv =>
      refine ⟨?_, hS.writer, hS.reader⟩
      simp only
      rw [Finmap.lookup_erase_ne (Ne.symm (hother path rfl hv.1))]
      exact hS.file
    · exact hS

end

/-! ## The stream in TécnicoFS -/

section
variable {w : Int} {name : CStr} {c₀ : List UInt8} {p : TfsParams} {s : Tfs} {a : Store}
  {g : StreamLog}

/-- The open file behind a slot of the store. -/
theorem Refines.openOn_of_slot (hR : Refines p s a) {fhandle : Int} {f : OpenFile}
    (hs : a.slot fhandle = some f) :
    ∃ h i j, OpenOn s fhandle h i ∧ Named s f.name j i ∧
      f.offset = (s.openFileTable.cell h).ofOffset := by
  by_cases hex : ∃ h, Handle s fhandle h
  · obtain ⟨h, hh⟩ := hex
    obtain ⟨i, hoi⟩ := hR.inv.handle_openOn hh
    obtain ⟨name, j, hn, hs', -⟩ := hR.openOn hoi
    rw [hs'] at hs
    cases hs
    exact ⟨h, i, j, hoi, hn, rfl⟩
  · rw [hR.slot_none (fun h hh => hex ⟨h, hh⟩)] at hs
    cases hs

theorem stream_exec (hR : Refines p s a) (hS : StreamStore w name c₀ a g)
    (hb : p.blockSize < 2 ^ 63) {c : Call} (hu : StreamUse w s c) :
    ∃ r s', exec s c = ok (r, s') ∧ Refines p s' (storeStep p a c).2 ∧
      StreamStore w name c₀ (storeStep p a c).2 (logStep w g c r s s') := by
  obtain ⟨s', hex, hR'⟩ := refines_exec hR hb hu.1
  refine ⟨_, s', hex, hR', ?_⟩
  -- the handle that a `tfs_open` returns is at the offset in the table
  have hoff : ∀ f, (storeStep p a c).2.slot (storeStep p a c).1.val = some f →
      f.offset = (s'.openFileTable.cell (storeStep p a c).1.val.toNat).ofOffset := by
    intro f hf
    obtain ⟨h, i, j, hoi, -, ho⟩ := hR'.openOn_of_slot hf
    rw [ho, hoi.1.1, Int.toNat_natCast]
  obtain ⟨hw, iw, jw, how, hnw, -⟩ := hR.openOn_of_slot hS.writer
  unfold logStep
  cases c with
  | tfsOpen path mode => exact streamStore_open hS hoff
  | tfsClose fhandle => exact streamStore_close hS hu.2 _
  | tfsRead fhandle len => exact streamStore_read hS _
  | tfsWrite fhandle buffer n =>
    refine streamStore_write hS (fun f hne hs hname => ?_) _
    obtain ⟨h, i, j, hoi, hn, -⟩ := hR.openOn_of_slot hs
    rw [hname] at hn
    obtain ⟨-, rfl⟩ := hR.inv.named_unique hn hnw
    exact hne (hu.2 h i hw hoi how)
  | tfsUnlink target =>
    refine streamStore_unlink hS _ (fun path hpath hv hname => ?_)
    subst hpath hname
    exact hu.1 hv jw iw hnw w hw how

/-- The stream as the state of TécnicoFS shows it. -/
theorem StreamStore.stream (hR : Refines p s a) (hS : StreamStore w name c₀ a g) :
    ∃ i, Stream w name c₀ s g i := by
  obtain ⟨hw, i, j, how, hn, -⟩ := hR.openOn_of_slot hS.writer
  have hcontent : fileBytes s i = c₀ ++ g.accepted := by rw [← hR.content hn, hS.content]
  refine ⟨i, ⟨j, hn⟩, ⟨hw, how⟩, hcontent, fun fhandle h hne hh => ?_⟩
  obtain ⟨name', j', hn', hs, -⟩ := hR.openOn hh
  obtain ⟨rfl, -⟩ := hR.inv.named_inode hn' hn
  obtain ⟨hpre, ho⟩ := hS.reader fhandle _ hne hs
  rw [hh.1.1, Int.toNat_natCast] at hpre ho
  rw [hcontent]
  exact ⟨hpre, ho⟩

theorem StreamStore.accepts (hR : Refines p s a) (hS : StreamStore w name c₀ a g)
    (hb : p.blockSize < 2 ^ 63) {i : Nat} (hi : Stream w name c₀ s g i) (buffer : Nat → UInt8)
    {n : Nat} (hn : n < 2 ^ 63) :
    ∃ r s', exec s (.tfsWrite w buffer n) = ok (r, s') ∧ Accepts s i buffer n r s' := by
  obtain ⟨h, hh⟩ := hi.writer
  have hI := hR.inv
  have hsize : p.blockSize = s.blockSize := by rw [← hR.params]; rfl
  obtain ⟨s', hex, -⟩ := refines_exec (c := .tfsWrite w buffer n) hR hb hn
  have hoff : (s.openFileTable.cell h).ofOffset = (s.inodeTable.cell i).iSize := by
    obtain ⟨name', j, -, hs, -⟩ := hR.openOn hh
    rw [hS.writer] at hs
    simp only [Option.some.injEq, OpenFile.mk.injEq] at hs
    rw [← hs.2, ← hi.content, fileBytes_length]
  obtain ⟨hf, ht⟩ : FileIndex s i ∧ s.freeinodeTs.cell i = .taken := by
    obtain ⟨j, hname⟩ := hi.named
    exact hI.named_file hname
  have hle := hI.sizeLe hf ht
  refine ⟨_, s', hex, ?_⟩
  generalize (storeStep p a (.tfsWrite w buffer n)).1 = r at hex
  cases exec_effect hI hex with
  | writeBad hbad => exact absurd hh.1 (hbad h)
  | writeZero h' i' hh' hz =>
    obtain ⟨rfl, rfl⟩ := hh.unique hh'
    rw [clampWrite_of_le hI.blockSize_lt (by omega) (by omega), hoff] at hz
    refine Or.inl ⟨?_, by simp⟩
    rw [fileBytes_length, hz]
    rfl
  | writeNoBlock h' i' hh' hpos hz hnone =>
    obtain ⟨rfl, rfl⟩ := hh.unique hh'
    exact Or.inr ⟨rfl, rfl, fileBytes_empty hz, hnone⟩
  | write h' i' b k hh' hpos hclamp hmin hblk hnew hold =>
    obtain ⟨rfl, rfl⟩ := hh.unique hh'
    have hself := fileBytes_written_self (n := k) buffer (Nat.le_of_eq hoff) hold
    have hlen := @fileBytes_length s i
    rw [hoff, ← hlen, overwrite_append] at hself
    refine Or.inl ⟨?_, ?_⟩
    · rw [castSsize_of_lt (by omega), hlen, ← hoff, hmin]
    · rw [castSsize_of_lt (by omega), Int.toNat_natCast]
      exact hself

end

theorem Refines.readsNext {p : TfsParams} {s : Tfs} {a : Store} (hR : Refines p s a) {fhandle : Int}
    {h i : Nat} (hh : OpenOn s fhandle h i) (len : Nat) :
    ∃ r s', exec s (.tfsRead fhandle len) = ok (r, s') ∧ ReadsNext s h i len r s' := by
  obtain ⟨name, j, -, -, ho⟩ := hR.openOn hh
  obtain ⟨bytes, hbytes⟩ : ∃ bytes,
    bytes = ((fileBytes s i).drop (s.openFileTable.cell h).ofOffset).take len := ⟨_, rfl⟩
  have hread := tfsRead_slice hR.inv hh (Or.inr ho) hbytes
  refine ⟨⟨bytes.length, bytes⟩, readAdvanced s h bytes.length, by simp [exec, hread], ?_,
    hbytes, rfl⟩
  simp only [hbytes, slice_length, fileBytes_length]

/-- The file that an open with `TFS_O_APPEND` returns a handle at the end of. -/
theorem openFile_append {p : TfsParams} {a : Store} {name : CStr} {mode : UInt32}
    (happend : hasFlag mode tfsOAppend = true) (hw : 0 ≤ (a.openFile p name mode).1) :
    ∃ c₀, (a.openFile p name mode).2.files.lookup name = some c₀ ∧
      (a.openFile p name mode).2.slot (a.openFile p name mode).1 = some ⟨name, c₀.length⟩ := by
  have hopen : ∀ {a : Store} {f : OpenFile}, 0 ≤ (a.openSlot f).1 →
      (a.openSlot f).2.files = a.files ∧ (a.openSlot f).2.slot (a.openSlot f).1 = some f := by
    intro a f h0
    rcases Store.openSlot_cases a f with hfull | ⟨h, hlt, -, hslot⟩
    · rw [hfull] at h0
      exact absurd h0 (by simp)
    · rw [hslot]
      exact ⟨rfl, Store.slot_setSlot_self a _ ⟨by simp, by simpa using hlt⟩⟩
  unfold Store.openFile at hw ⊢
  cases hl : a.files.lookup name with
  | some bytes =>
    simp only [hl, happend, if_true] at hw ⊢
    obtain ⟨h1, h2⟩ := hopen hw
    exact ⟨bytes, by rw [h1, hl], h2⟩
  | none =>
    simp only [hl] at hw ⊢
    split at hw
    · next hc =>
      rw [if_pos hc]
      obtain ⟨h1, h2⟩ := hopen hw
      exact ⟨[], by rw [h1]; exact Finmap.lookup_insert _, h2⟩
    · exact absurd hw (by simp)

/-- A stream begins where a handle is opened with `TFS_O_APPEND`. -/
theorem streamStore_init {p : TfsParams} {s s' : Tfs} {a : Store} (hR : Refines p s a)
    (hb : p.blockSize < 2 ^ 63) {path : CStr} {mode : UInt32} {w : Int}
    (happend : hasFlag mode tfsOAppend = true) (htrunc : hasFlag mode tfsOTrunc = false)
    (hopen : exec s (.tfsOpen (some path) mode) = ok (⟨w, []⟩, s')) (hw : 0 ≤ w) :
    ∃ a' c₀, Refines p s' a' ∧ StreamStore w path.tail c₀ a' (.init s') := by
  obtain ⟨t, hex, hR'⟩ := refines_exec (c := .tfsOpen (some path) mode) hR hb htrunc
  rw [hopen] at hex
  simp only [ok.injEq, Prod.mk.injEq] at hex
  obtain ⟨hret, rfl⟩ := hex
  have hval : validPathname (some path) = true := by
    by_contra hv
    simp only [storeStep, hv, if_false, Ret.mk.injEq] at hret
    omega
  simp only [storeStep, hval, if_true, Ret.mk.injEq, and_true] at hret hR'
  subst hret
  obtain ⟨c₀, hfile, hslot⟩ := openFile_append happend hw
  refine ⟨_, c₀, hR', ?_, ?_, fun fhandle o _ hs => ?_⟩
  · rw [hfile]
    simp [StreamLog.init]
  · rw [hslot]
    simp [StreamLog.init]
  · obtain ⟨h, i, j, hoi, -, ho⟩ := hR'.openOn_of_slot hs
    simp only [StreamLog.init, hoi.1.1, Int.toNat_natCast]
    exact ⟨List.nil_prefix, ho⟩

/-- Any interleaving of writes through `w`, of readers and of calls on other files returns, and
leaves a stream, which the next write extends and the next read goes on in. -/
theorem stream_run {s₀ s₁ s₂ s₃ : Tfs} {m : Mallocs} {params : Option TfsParams} {p : TfsParams}
    {before cs : List Call} {rs₀ : List Ret} {path : CStr} {mode : UInt32} {w : Int}
    (hparams : p = params.getD tfsDefaultParams) (hp : GoodParams p) (hb : p.blockSize < 2 ^ 63)
    (hinit : tfsInit s₀ m params = ok (0, s₁)) (hu₀ : Allowed exec BrokerUse s₁ before)
    (hbefore : run exec s₁ before = ok (rs₀, s₂))
    (happend : hasFlag mode tfsOAppend = true) (htrunc : hasFlag mode tfsOTrunc = false)
    (hopen : exec s₂ (.tfsOpen (some path) mode) = ok (⟨w, []⟩, s₃)) (hw : 0 ≤ w)
    (hu : Allowed exec (StreamUse w) s₃ cs) :
    ∃ c₀, (∀ h i, OpenOn s₃ w h i → c₀ = fileBytes s₃ i) ∧
      ∃ rs s g i, run (withHistory exec (logStep w)) (s₃, .init s₃) cs = ok (rs, (s, g)) ∧
        Stream w path.tail c₀ s g i ∧
        (∀ buffer n, n < 2 ^ 63 →
          ∃ r s', exec s (.tfsWrite w buffer n) = ok (r, s') ∧ Accepts s i buffer n r s') ∧
        ∀ fhandle h len, OpenOn s fhandle h i →
          ∃ r s', exec s (.tfsRead fhandle len) = ok (r, s') ∧ ReadsNext s h i len r s' := by
  obtain ⟨s, a, hrun, -, hR, -⟩ := refines_run hparams hp hb hinit hu₀
  rw [hbefore] at hrun
  simp only [ok.injEq, Prod.mk.injEq] at hrun
  obtain ⟨-, rfl⟩ := hrun
  obtain ⟨a₃, c₀, hR₃, hS₃⟩ := streamStore_init hR hb happend htrunc hopen hw
  refine ⟨c₀, fun h i hh => ?_, ?_⟩
  · obtain ⟨name', j, hn, hs, -⟩ := hR₃.openOn hh
    rw [hS₃.writer] at hs
    simp only [Option.some.injEq, OpenFile.mk.injEq] at hs
    rw [← hR₃.content hn, ← hs.1, hS₃.content]
    simp [StreamLog.init]
  have hstep : ∀ sg c, (∃ a, Refines p sg.1 a ∧ StreamStore w path.tail c₀ a sg.2) →
      StreamUse w sg.1 c → ∃ r sg', withHistory exec (logStep w) sg c = ok (r, sg') ∧
        ∃ a, Refines p sg'.1 a ∧ StreamStore w path.tail c₀ a sg'.2 := by
    rintro ⟨s, g⟩ c ⟨a, hR, hS⟩ hu
    obtain ⟨r, s', hex, hR', hS'⟩ := stream_exec hR hS hb hu
    exact ⟨r, (s', _), withHistory_eq_ok.mpr ⟨hex, rfl⟩, _, hR', hS'⟩
  obtain ⟨rs, ⟨s, g⟩, hrun, a, hR', hS'⟩ := run_total_allowed hstep ⟨a₃, hR₃, hS₃⟩
    (allowed_withHistory (StreamLog.init s₃) hu)
  obtain ⟨i, hi⟩ := hS'.stream hR'
  exact ⟨rs, s, g, i, hrun, hi, fun buffer n hn => hS'.accepts hR' hb hi buffer hn,
    fun fhandle h len hh => hR'.readsNext hh len⟩

/-- A box with one message. -/
def boxDisk : Tfs := stateAfter smallDisk
  [.tfsOpen (some pathA) tfsOCreat, .tfsWrite 0 (fun _ => 1) 3, .tfsClose 0]

/-- The publisher's session begins. -/
def publisherDisk : Tfs := stateAfter boxDisk [.tfsOpen (some pathA) tfsOAppend]

/-- A subscriber comes, and reads between the publisher's messages. -/
def sessionCalls : List Call :=
  [.tfsWrite 0 (fun _ => 2) 4, .tfsOpen (some pathA) 0, .tfsRead 1 5, .tfsWrite 0 (fun _ => 3) 90,
    .tfsRead 1 90]

theorem stream_run_session :
    ∃ c₀, (∀ h i, OpenOn publisherDisk 0 h i → c₀ = fileBytes publisherDisk i) ∧
      ∃ rs s g i, run (withHistory exec (logStep 0)) (publisherDisk, .init publisherDisk)
          sessionCalls = ok (rs, (s, g)) ∧
        Stream 0 pathA.tail c₀ s g i ∧
        (∀ buffer n, n < 2 ^ 63 →
          ∃ r s', exec s (.tfsWrite 0 buffer n) = ok (r, s') ∧ Accepts s i buffer n r s') ∧
        ∀ fhandle h len, OpenOn s fhandle h i →
          ∃ r s', exec s (.tfsRead fhandle len) = ok (r, s') ∧ ReadsNext s h i len r s' := by
  have hparams : smallParams = (some smallParams).getD tfsDefaultParams := rfl
  refine stream_run hparams smallParams_good (by decide) smallDisk_init (allowed_of_forall ?_)
    (run_eq_answers (by decide +kernel)) (by decide) (by decide)
    (exec_eq_answers (by decide +kernel) (by decide +kernel)) (by decide) (allowed_of_forall ?_)
  · simp [BrokerUse]
    exact fun _ => rfl
  · simp [sessionCalls, StreamUse, BrokerUse]
    exact fun _ => rfl

end Mbroker
