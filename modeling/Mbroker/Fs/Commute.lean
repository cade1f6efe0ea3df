import Mbroker.Fs.History
import Mbroker.Fs.Simulate

/-!
# Accesses to different files commute

Two reads or writes through handles of different files give the same answers and the same
files in either order, as long as there are blocks for both.  Which block a file gets may
depend on the order; in the abstract store, where files have no blocks, the two orders end
in the same state, and the states of TécnicoFS refine it.

    storeStep_comm : the accesses commute in the abstract store
    commute_run    : hence they do in TécnicoFS, in what can be seen of the files
-/

namespace Mbroker

open CLib CLib.Outcome

/-! ## In the abstract store -/

/-- A read or a write through `fhandle`, of less than `2 ^ 63` bytes. -/
def Accesses (fhandle : Int) : Call → Prop
  | .tfsRead fhandle' len => fhandle' = fhandle ∧ len < 2 ^ 63
  | .tfsWrite fhandle' _ toWrite => fhandle' = fhandle ∧ toWrite < 2 ^ 63
  | _ => False

namespace Store

/-- The answer of an access through `f` to a file that holds `bytes`, with what it leaves there
and where it leaves the offset. -/
def access (p : TfsParams) (f : OpenFile) (bytes : List UInt8) : Call → Ret × List UInt8 × Nat
  | .tfsRead _ len =>
    let chunk := (bytes.drop f.offset).take len
    (⟨chunk.length, chunk⟩, bytes, f.offset + chunk.length)
  | .tfsWrite _ buffer toWrite =>
    let n := min toWrite (p.blockSize - f.offset)
    (⟨n, []⟩, overwrite bytes f.offset ((List.range n).map buffer), f.offset + n)
  | _ => (⟨-1, []⟩, bytes, f.offset)

/-- File `f` holds `bytes` and the handle is at `offset`. -/
def update (a : Store) (fhandle : Int) (f : OpenFile) (bytes : List UInt8) (offset : Nat) : Store :=
  { a with files := a.files.insert f.name bytes }.setSlot fhandle (some { f with offset })

section
variable {a : Store} {fhandle : Int} {f : OpenFile} {bytes : List UInt8}

theorem storeStep_access {p : TfsParams} {c : Call} (hc : Accesses fhandle c)
    (hs : a.slot fhandle = some f) (hb : a.files.lookup f.name = some bytes)
    (hroom : a.nonEmpty.card < p.maxBlockCount - 1) :
    storeStep p a c = ((access p f bytes c).1,
      a.update fhandle f (access p f bytes c).2.1 (access p f bytes c).2.2) := by
  have hcontent : a.content f.name = bytes := by
    unfold content
    rw [hb]
    rfl
  cases c with
  | tfsRead fhandle' len =>
    obtain ⟨rfl, -⟩ := hc
    have hsame : a.files.insert f.name bytes = a.files := insert_self hb
    simp only [storeStep, hs, chunk, hcontent, access, update, hsame]
  | tfsWrite fhandle' buffer toWrite =>
    obtain ⟨rfl, -⟩ := hc
    have hnofail : ¬ (bytes = [] ∧ 0 < toWrite ∧
        a.nonEmpty.card = p.maxBlockCount - 1) := fun h => by omega
    simp only [storeStep, hs, write, hcontent, hnofail, if_false, access, update]
  | _ => exact hc.elim

theorem lookup_update_ne (a : Store) (fhandle : Int) (bytes : List UInt8) {name : CStr}
    (hne : name ≠ f.name) (offset : Nat) :
    (a.update fhandle f bytes offset).files.lookup name = a.files.lookup name :=
  Finmap.lookup_insert_of_ne _ hne

/-- At most one more file has content. -/
theorem card_update (a : Store) (fhandle : Int) (f : OpenFile) (bytes : List UInt8)
    (offset : Nat) : (a.update fhandle f bytes offset).nonEmpty.card ≤ a.nonEmpty.card + 1 := by
  have hsub : (a.update fhandle f bytes offset).nonEmpty ⊆ insert f.name a.nonEmpty := by
    intro x hx
    by_cases hxf : x = f.name
    · exact hxf ▸ Finset.mem_insert_self _ _
    · refine Finset.mem_insert_of_mem ?_
      obtain ⟨hkey, hcontent⟩ := Finset.mem_filter.mp hx
      have hlookup := lookup_update_ne a fhandle bytes hxf offset
      refine Finset.mem_filter.mpr ⟨?_, ?_⟩
      · rw [Finmap.mem_keys, Finmap.mem_iff] at hkey ⊢
        rwa [hlookup] at hkey
      · unfold content at hcontent ⊢
        rwa [hlookup] at hcontent
  exact (Finset.card_le_card hsub).trans (Finset.card_insert_le _ _)

theorem update_comm {fhandle' : Int} {f' : OpenFile} {bytes' : List UInt8} {offset offset' : Nat}
    (h0 : 0 ≤ fhandle) (h0' : 0 ≤ fhandle') (hne : fhandle' ≠ fhandle) (hname : f'.name ≠ f.name) :
    (a.update fhandle f bytes offset).update fhandle' f' bytes' offset' =
      (a.update fhandle' f' bytes' offset').update fhandle f bytes offset := by
  unfold update setSlot
  simp only [mk.injEq]
  refine ⟨Finmap.insert_insert_of_ne _ hname.symm, ?_⟩
  exact List.set_comm _ _ (by omega)

end

/-- Accesses through handles of different files give the same answers and the same store. -/
theorem storeStep_comm {p : TfsParams} {a : Store} {fhandle fhandle' : Int} {f f' : OpenFile}
    {c c' : Call} (hc : Accesses fhandle c) (hc' : Accesses fhandle' c')
    (hs : a.slot fhandle = some f) (hs' : a.slot fhandle' = some f') (hname : f'.name ≠ f.name)
    (hf : f.name ∈ a.files) (hf' : f'.name ∈ a.files)
    (hroom : a.nonEmpty.card + 2 ≤ p.maxBlockCount - 1) :
    (storeStep p (storeStep p a c).2 c').1 = (storeStep p a c').1 ∧
      (storeStep p (storeStep p a c').2 c).1 = (storeStep p a c).1 ∧
      (storeStep p (storeStep p a c).2 c').2 = (storeStep p (storeStep p a c').2 c).2 := by
  obtain ⟨bytes, hb⟩ := Finmap.mem_iff.mp hf
  obtain ⟨bytes', hb'⟩ := Finmap.mem_iff.mp hf'
  obtain ⟨h0, -⟩ := slot_bounds hs
  obtain ⟨h0', -⟩ := slot_bounds hs'
  have hne : fhandle' ≠ fhandle := by
    rintro rfl
    rw [hs] at hs'
    exact hname (congrArg OpenFile.name (Option.some.inj hs')).symm
  have hfirst := storeStep_access hc hs hb (p := p) (by omega)
  have hfirst' := storeStep_access hc' hs' hb' (p := p) (by omega)
  -- the slot and the content that the second access finds are those of `a`
  have hsecond' := storeStep_access (p := p)
    (a := a.update fhandle f (access p f bytes c).2.1 (access p f bytes c).2.2) hc'
    ((slot_setSlot_ne _ _ h0 hne).trans hs') ((lookup_update_ne a _ _ hname _).trans hb')
    (by
      have := card_update a fhandle f (access p f bytes c).2.1 (access p f bytes c).2.2
      omega)
  have hsecond := storeStep_access (p := p)
    (a := a.update fhandle' f' (access p f' bytes' c').2.1 (access p f' bytes' c').2.2) hc
    ((slot_setSlot_ne _ _ h0' hne.symm).trans hs) ((lookup_update_ne a _ _ hname.symm _).trans hb)
    (by
      have := card_update a fhandle' f' (access p f' bytes' c').2.1 (access p f' bytes' c').2.2
      omega)
  rw [hfirst, hfirst', hsecond, hsecond']
  exact ⟨rfl, rfl, update_comm h0 h0' hne hname⟩

end Store

/-! ## In TécnicoFS -/

/-- The files, with their inodes, and the open handles are the same. -/
structure SameNames (s t : Tfs) : Prop where
  params : t.fsParams = s.fsParams
  inodes : t.freeinodeTs = s.freeinodeTs
  named : ∀ name j i, Named t name j i ↔ Named s name j i
  openOn : ∀ fhandle h i, OpenOn t fhandle h i ↔ OpenOn s fhandle h i

/-- So are the offsets of the handles and the content of the files. -/
structure SameView (s t : Tfs) : Prop extends SameNames s t where
  offset : ∀ fhandle h i, OpenOn s fhandle h i →
    (t.openFileTable.cell h).ofOffset = (s.openFileTable.cell h).ofOffset
  size : ∀ i, FileIndex s i → s.freeinodeTs.cell i = .taken →
    (t.inodeTable.cell i).iSize = (s.inodeTable.cell i).iSize
  content : ∀ i, FileIndex s i → s.freeinodeTs.cell i = .taken → fileBytes t i = fileBytes s i

section
variable {s t : Tfs}

theorem SameNames.refl (s : Tfs) : SameNames s s :=
  ⟨rfl, rfl, fun _ _ _ => Iff.rfl, fun _ _ _ => Iff.rfl⟩

/-- Two states that come from one. -/
theorem SameNames.join {u : Tfs} (hs : SameNames u s) (ht : SameNames u t) : SameNames s t where
  params := ht.params.trans hs.params.symm
  inodes := ht.inodes.trans hs.inodes.symm
  named name j i := (ht.named name j i).trans (hs.named name j i).symm
  openOn fhandle h i := (ht.openOn fhandle h i).trans (hs.openOn fhandle h i).symm

theorem SameNames.trans {u : Tfs} (hs : SameNames s t) (ht : SameNames t u) : SameNames s u where
  params := ht.params.trans hs.params
  inodes := ht.inodes.trans hs.inodes
  named name j i := (ht.named name j i).trans (hs.named name j i)
  openOn fhandle h i := (ht.openOn fhandle h i).trans (hs.openOn fhandle h i)

theorem access_sameNames (hI : Inv s) {fhandle : Int} {c : Call} (hc : Accesses fhandle c) {r : Ret}
    {s' : Tfs} (h : exec s c = ok (r, s')) : SameNames s s' := by
  cases c with
  | tfsRead fhandle' len =>
    cases exec_effect hI h with
    | readBad hbad => exact .refl s
    | readZero k i hh hn => exact .refl s
    | read k i b n hh hn hlen hb hin =>
      refine ⟨rfl, rfl, fun _ _ _ => Iff.rfl, fun fh l i' => ?_⟩
      unfold OpenOn
      refine and_congr Iff.rfl ?_
      by_cases hl : l = k
      · subst hl; simp [readAdvanced]
      · simp only [readAdvanced, Region.set_cell_ne _ _ hl]
  | tfsWrite fhandle' buffer toWrite =>
    cases exec_effect hI h with
    | writeBad hbad => exact .refl s
    | writeZero k i hh hn => exact .refl s
    | writeNoBlock k i hh hn hz hb => exact .refl s
    | write k i b n hh hn hclamp hmin hb hnew hold =>
      refine ⟨rfl, rfl, fun _ _ _ => named_written hb.1, fun fh l i' => ?_⟩
      unfold OpenOn
      refine and_congr Iff.rfl ?_
      by_cases hl : l = k
      · subst hl; simp [written]
      · simp only [written, Region.set_cell_ne _ _ hl]
  | _ => exact hc.elim

variable {p : TfsParams} {a : Store}

/-- The FREE blocks are those that no file has. -/
theorem Refines.card_free (hR : Refines p s a) :
    a.nonEmpty.card + freeBlockCount s = p.maxBlockCount - 1 := by
  have hpos := hR.inv.root.blockPos
  have hsize : s.dataBlocks = p.maxBlockCount := by rw [← hR.params]; rfl
  obtain ⟨n, hn⟩ : ∃ n, s.dataBlocks = n + 1 := ⟨s.dataBlocks - 1, by omega⟩
  have hroot : ¬ s.freeBlocks.cell 0 = .free := not_free_iff.mpr hR.inv.rootBlock
  have hfree : freeBlockCount s = Nat.count (fun k => s.freeBlocks.cell (k + 1) = .free) n := by
    unfold freeBlockCount
    rw [hn, Nat.count_succ', if_neg hroot]
    rfl
  have htaken : a.nonEmpty.card =
      Nat.count (fun k => ¬ s.freeBlocks.cell (k + 1) = .free) n := by
    rw [hR.card_nonEmpty, hn]
    simp only [not_free_iff, Nat.add_sub_cancel]
  have hall := count_add_count_not (fun k => s.freeBlocks.cell (k + 1) = .free) n
  omega

/-- States with the same names that refine the same store look the same. -/
theorem sameView_of_refines (hs : Refines p s a) (ht : Refines p t a) (hn : SameNames s t) :
    SameView s t where
  toSameNames := hn
  offset fhandle h i hh := by
    obtain ⟨name, j, -, hslot, -⟩ := hs.openOn hh
    obtain ⟨name', j', -, hslot', -⟩ := ht.openOn ((hn.openOn fhandle h i).mpr hh)
    rw [hslot] at hslot'
    exact (congrArg OpenFile.offset (Option.some.inj hslot')).symm
  size i hf hi := by
    obtain ⟨name, j, hname⟩ := hs.inv.taken_named hf hi
    rw [← fileBytes_length, ← fileBytes_length, ← hs.content hname,
      ← ht.content ((hn.named name j i).mpr hname)]
  content i hf hi := by
    obtain ⟨name, j, hname⟩ := hs.inv.taken_named hf hi
    rw [← hs.content hname, ← ht.content ((hn.named name j i).mpr hname)]

theorem Accesses.brokerUse {fhandle : Int} {c : Call} (h : Accesses fhandle c) (s : Tfs) :
    BrokerUse s c := by
  cases c with
  | tfsRead fhandle' len => exact h.2
  | tfsWrite fhandle' buffer toWrite => exact h.2
  | _ => exact h.elim

theorem commute_refines (hR : Refines p s a) (hb : p.blockSize < 2 ^ 63)
    {fhandle fhandle' : Int} {h i h' i' : Nat} {c c' : Call} (hc : Accesses fhandle c)
    (hc' : Accesses fhandle' c') (hh : OpenOn s fhandle h i) (hh' : OpenOn s fhandle' h' i')
    (hne : i ≠ i') (hfree : 2 ≤ freeBlockCount s) :
    ∃ r r' t t', run exec s [c, c'] = ok ([r, r'], t) ∧ run exec s [c', c] = ok ([r', r], t') ∧
      SameView t t' := by
  obtain ⟨name, j, hn, hs, -⟩ := hR.openOn hh
  obtain ⟨name', j', hn', hs', -⟩ := hR.openOn hh'
  have hname : name' ≠ name := by
    rintro rfl
    exact hne (hR.inv.named_unique hn hn').2
  have hroom := hR.card_free
  obtain ⟨hr', hr, hstore⟩ := Store.storeStep_comm (p := p) hc hc' hs hs' hname
    (hR.mem_files.mpr ⟨j, i, hn⟩) (hR.mem_files.mpr ⟨j', i', hn'⟩) (by omega)
  -- one order
  obtain ⟨s₁, h1, hR₁⟩ := refines_exec hR hb (hc.brokerUse s)
  obtain ⟨s₂, h2, hR₂⟩ := refines_exec hR₁ hb (hc'.brokerUse s₁)
  -- the other order
  obtain ⟨t₁, k1, hT₁⟩ := refines_exec hR hb (hc'.brokerUse s)
  obtain ⟨t₂, k2, hT₂⟩ := refines_exec hT₁ hb (hc.brokerUse t₁)
  rw [hr'] at h2
  rw [hr] at k2
  rw [← hstore] at hT₂
  refine ⟨_, _, s₂, t₂, run_cons h1 (run_cons h2 rfl), run_cons k1 (run_cons k2 rfl), ?_⟩
  have hnames := (access_sameNames hR.inv hc h1).trans (access_sameNames hR₁.inv hc' h2)
  have hnames' := (access_sameNames hR.inv hc' k1).trans (access_sameNames hT₁.inv hc k2)
  exact sameView_of_refines hR₂ hT₂ (hnames.join hnames')

end

/-! ## Runs -/

/-- With two FREE blocks behind the root's, blocks have room for signed sizes. -/
theorem GoodParams.blockSize_signed {p : TfsParams} (hp : GoodParams p)
    (hblocks : 2 ≤ p.maxBlockCount) : p.blockSize < 2 ^ 63 := by
  have hmul := Nat.mul_le_mul_right p.blockSize hblocks
  have := hp.noWrap
  omega

theorem commute_run {s₀ s₁ s : Tfs} {m : Mallocs} {params : Option TfsParams} {cs : List Call}
    {rs : List Ret} (hp : GoodParams (params.getD tfsDefaultParams))
    (hinit : tfsInit s₀ m params = ok (0, s₁)) (hu : Allowed exec BrokerUse s₁ cs)
    (hrun : run exec s₁ cs = ok (rs, s)) (hfree : 2 ≤ freeBlockCount s)
    {fhandle fhandle' : Int} {h i h' i' : Nat} (hh : OpenOn s fhandle h i)
    (hh' : OpenOn s fhandle' h' i') (hne : i ≠ i') {c c' : Call} (hc : Accesses fhandle c)
    (hc' : Accesses fhandle' c') :
    ∃ r r' t t', run exec s [c, c'] = ok ([r, r'], t) ∧ run exec s [c', c] = ok ([r', r], t') ∧
      SameView t t' := by
  obtain ⟨hini, heq, -⟩ := tfsInit_initial hp hinit
  have hparams : s.fsParams = params.getD tfsDefaultParams := (run_fsParams hini.inv hrun).trans heq
  have hblocks : freeBlockCount s ≤ s.dataBlocks := Nat.count_le _
  have hb := hp.blockSize_signed (by rw [← hparams]; exact hfree.trans hblocks)
  obtain ⟨s', a, hrun', -, hR, -⟩ := refines_run rfl hp hb hinit hu
  rw [hrun] at hrun'
  simp only [ok.injEq, Prod.mk.injEq] at hrun'
  obtain ⟨-, rfl⟩ := hrun'
  exact commute_refines hR hb hc hc' hh hh' hne hfree

def bothCreated : List Call :=
  [.tfsOpen (some pathA) tfsOCreat, .tfsOpen (some pathB) tfsOCreat]

/-- Two first writes: each order gives block 1 to another file. -/
theorem commute_run_writes : ∃ r r' t t',
    run exec (stateAfter smallDisk bothCreated)
      [.tfsWrite 0 (fun _ => 1) 5, .tfsWrite 1 (fun _ => 2) 90] = ok ([r, r'], t) ∧
    run exec (stateAfter smallDisk bothCreated)
      [.tfsWrite 1 (fun _ => 2) 90, .tfsWrite 0 (fun _ => 1) 5] = ok ([r', r], t') ∧
    SameView t t' := by
  have hh : OpenOn (stateAfter smallDisk bothCreated) 0 0 1 :=
    ⟨⟨by decide +kernel, by decide +kernel, by decide +kernel⟩, by decide +kernel⟩
  have hh' : OpenOn (stateAfter smallDisk bothCreated) 1 1 2 :=
    ⟨⟨by decide +kernel, by decide +kernel, by decide +kernel⟩, by decide +kernel⟩
  have hgood : GoodParams ((some smallParams).getD tfsDefaultParams) := smallParams_good
  refine commute_run hgood smallDisk_init (allowed_of_forall ?_)
    (run_eq_answers (by decide +kernel)) (by decide +kernel) hh hh' (by decide)
    ⟨rfl, by decide⟩ ⟨rfl, by decide⟩
  simp only [bothCreated, List.forall_mem_cons, BrokerUse]
  simp [hasFlag, tfsOCreat, tfsOTrunc]
  exact fun _ => rfl

end Mbroker
