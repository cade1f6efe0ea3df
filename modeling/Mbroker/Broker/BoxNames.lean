import Mbroker.Broker.Survival

/-!
# The names of created boxes

`main` reads a request as raw bytes, and `codeC_BOX` takes `request.box_name` for a string.
Without a NUL in its 33 bytes the string runs on into the padding, `return_code` and
`error_message`; TécnicoFS takes it as long as it has at most 39 bytes behind the `/`, and
`newBox_b` copies it into the 33 bytes of a node.

    createdBox_iff : when `codeC_BOX` gets to its call of `newBox_b`
    namesFit_iff : the copy stays in the field exactly if the request's field ends in its 33
      bytes, or no box is created
-/

namespace Mbroker

open CLib Outcome

/-! ## Up to `newBox_b` -/

/-- `codeC_BOX` up to its call of `newBox_b`: the name that it passes, and the server there. -/
def createdBox (fuel : Nat) (s : Server) (request : Region UInt8) (boxName : Nat) :
    Bounded (Option (CStr × Server)) := do
  if s.session.fifo = -1 then return none
  else
    let s := s.openSession
    match ← findBox fuel s.nodes s.head request boxName with
    | some _ => return none
    | none =>
      let name ← strAt request boxName
      let (boxHandle, tfs) ← tfsOpen s.tfs (some name) tfsOCreat
      let (closeRet, tfs) ← tfsClose tfs boxHandle
      if boxHandle = -1 ∨ closeRet = -1 then return none
      else return some (name, { s with tfs })

/-- `codeC_BOX` from there on. -/
def createBox (fuel : Nat) (s : Server) (name : CStr) : Bounded Server := do
  let (aux, nodes) ← newBoxB s.nodes s.session.malloc name 0 defaultBoxSize 0 0
  let (nodes, head) ← insertionSort fuel nodes s.head aux
  let message ← memset (s.session.message maxMessage) 1 0 maxMessage
  let r ← messageRequest message .mSub 0
  let (sent, s) := { s with nodes, head }.send r
  if !sent then return s.stop
  else (panic "Something went drastically wrong in server create box." : Outcome Server)

section
variable {fuel : Nat} {s s₁ : Server} {request : Region UInt8} {boxName : Nat} {name : CStr}

/-- What the prefix comes to where it gets to the call. -/
theorem createdBox_eq_some
    (h : createdBox fuel s request boxName = .done (ok (some (name, s₁)))) :
    s.session.fifo ≠ -1 ∧ findBox fuel s.nodes s.head request boxName = .done (ok none) ∧
    strAt request boxName = ok name ∧ ∃ boxHandle tfs closeRet tfs',
      tfsOpen s.tfs (some name) tfsOCreat = ok (boxHandle, tfs) ∧
      tfsClose tfs boxHandle = ok (closeRet, tfs') ∧ ¬ (boxHandle = -1 ∨ closeRet = -1) ∧
      s₁ = { s.openSession with tfs := tfs' } := by
  unfold createdBox at h
  split at h
  · cases h
  · next hopened =>
    obtain ⟨found, hfound, h⟩ := Bounded.bind_eq_ok.mp h
    cases found with
    | some p => cases h
    | none =>
      obtain ⟨name', hname, h⟩ := Bounded.bind_eq_ok.mp h
      obtain ⟨⟨boxHandle, tfs⟩, hopen, h⟩ := Bounded.bind_eq_ok.mp h
      obtain ⟨⟨closeRet, tfs'⟩, hclose, h⟩ := Bounded.bind_eq_ok.mp h
      rw [Bounded.lift_eq, Bounded.done.injEq] at hname hopen hclose
      simp only at h
      split at h
      · cases h
      · next hrets =>
        cases h
        exact ⟨hopened, hfound, hname, boxHandle, tfs, closeRet, tfs', hopen, hclose, hrets, rfl⟩

/-- Then the handler goes on with that name. -/
theorem codeCBox_created
    (h : createdBox fuel s request boxName = .done (ok (some (name, s₁)))) :
    codeCBox fuel s request boxName = createBox fuel s₁ name := by
  obtain ⟨hopened, hfound, hname, boxHandle, tfs, closeRet, tfs', hopen, hclose, hrets, rfl⟩ :=
    createdBox_eq_some h
  unfold codeCBox
  rw [if_neg hopened]
  simp only [Server.openSession_nodes, Server.openSession_head, hfound, Bounded.ok_bind,
    Bounded.lift_eq, hname, Server.openSession_tfs, hopen, hclose, if_neg hrets]
  rfl

end

/-! ## When the box is created -/

/-- `tfs_open` with `TFS_O_CREAT` finds or makes the file, and has a handle for it. -/
structure CanCreate (tfs : Tfs) (name : CStr) : Prop where
  valid : validPathname (some name) = true
  handle : ∃ h, h < tfs.maxOpenFiles ∧ tfs.freeOpenFileEntries.cell h = .free
  room : dirMap tfs name.tail = none → name.tail.strlen < maxFileName ∧
    (∃ i, i < tfs.inodeTableSize ∧ tfs.freeinodeTs.cell i = .free) ∧
    ∃ j, j < tfs.maxDirEntries ∧ ¬ Live tfs.fsData 0 j

theorem tfsOpen_create {tfs : Tfs} (hI : Inv tfs) (name : CStr) :
    ∃ r tfs', tfsOpen tfs (some name) tfsOCreat = ok (r, tfs') ∧
      (r ≠ -1 ↔ CanCreate tfs name) ∧ (r ≠ -1 → ∃ h, Handle tfs' r h) := by
  obtain ⟨r, tfs', hopen, heffect⟩ := tfsOpen_effect hI (some name) tfsOCreat
  refine ⟨r, tfs', hopen, ?_⟩
  have hcreat : hasFlag tfsOCreat tfsOCreat = true := by decide
  have hrefused : ¬ CanCreate tfs name → ((-1 : Int) ≠ -1 ↔ CanCreate tfs name) :=
    fun h => ⟨fun hne => absurd rfl hne, fun hc => absurd hc h⟩
  cases heffect with
  | openBad hv =>
    refine ⟨hrefused fun hc => ?_, fun hne => absurd rfl hne⟩
    rw [hc.valid] at hv
    cases hv
  | openAbsent hv ha hm =>
    rw [hcreat] at hm
    cases hm
  | openNoInode hv ha hm hi =>
    refine ⟨hrefused fun hc => ?_, fun hne => absurd rfl hne⟩
    obtain ⟨-, ⟨i, hlt, hfree⟩, -⟩ := hc.room (dirMap_absent hI ha)
    exact hi i hlt hfree
  | openNoEntry i hv ha hm hi hn =>
    refine ⟨hrefused fun hc => ?_, fun hne => absurd rfl hne⟩
    obtain ⟨hshort, -, j, hj, hlive⟩ := hc.room (dirMap_absent hI ha)
    rcases hn with hlong | hfull
    · unfold maxFileName at hshort
      omega
    · exact hlive (hfull j hj)
  | openCreate i j hv ha hm hi hn hj hr =>
    cases hr with
    | full hh =>
      refine ⟨hrefused fun hc => ?_, fun hne => absurd rfl hne⟩
      obtain ⟨h, hlt, hfree⟩ := hc.handle
      exact hh h hlt hfree
    | slot h hh =>
      refine ⟨iff_of_true (by omega) ⟨hv, ⟨h, hh.1, hh.2.1⟩, fun _ => ?_⟩, fun _ => ?_⟩
      · exact ⟨Nat.lt_succ_of_le hn.2, ⟨i, hi.1, hi.2.1⟩, j, hj.1, hj.2.1⟩
      · exact ⟨h, rfl, hh.1, Region.set_cell_self _ _ _⟩
  | openFound j i hv hn h₁ hr =>
    rw [if_neg (by decide)] at h₁
    subst h₁
    cases hr with
    | full hh =>
      refine ⟨hrefused fun hc => ?_, fun hne => absurd rfl hne⟩
      obtain ⟨h, hlt, hfree⟩ := hc.handle
      exact hh h hlt hfree
    | slot h hh =>
      refine ⟨iff_of_true (by omega) ⟨hv, ⟨h, hh.1, hh.2.1⟩, fun hnone => ?_⟩, fun _ => ?_⟩
      · rw [dirMap_named hI hn] at hnone
        cases hnone
      · exact ⟨h, rfl, hh.1, Region.set_cell_self _ _ _⟩

/-- The session's pipe can be opened, `find_box` finds nothing, and the string in the request is a
name for which the file system has room. -/
structure CreatesBox (s : Server) (request : Region UInt8) (boxName : Nat) (name : CStr) :
    Prop where
  opened : s.session.fifo ≠ -1
  absent : ∃ fuel, findBox fuel s.nodes s.head request boxName = .done (ok none)
  named : HasString request boxName name
  room : CanCreate s.tfs name

theorem createdBox_iff {s : Server} (hI : Inv s.tfs) {request : Region UInt8} {boxName : Nat}
    {name : CStr} : (∃ fuel s₁, createdBox fuel s request boxName = .done (ok (some (name, s₁)))) ↔
      CreatesBox s request boxName name := by
  obtain ⟨boxHandle, tfs, hopen, hroom, hhandle⟩ := tfsOpen_create hI name
  constructor
  · rintro ⟨fuel, s₁, h⟩
    obtain ⟨hopened, hfound, hname, boxHandle', tfs', closeRet, tfs'', hopen', -, hrets, -⟩ :=
      createdBox_eq_some h
    rw [hopen] at hopen'
    cases hopen'
    exact ⟨hopened, ⟨fuel, hfound⟩, strAt_eq_ok.mp hname, hroom.mp fun he => hrets (Or.inl he)⟩
  · intro h
    obtain ⟨fuel, hfound⟩ := h.absent
    have hne := hroom.mpr h.room
    obtain ⟨k, hk⟩ := hhandle hne
    have hI' : Inv tfs := exec_inv hI (c := .tfsOpen (some name) tfsOCreat)
      (by simp only [exec, hopen, ok_bind, pure_eq]; rfl)
    have hclose := (tfsClose_ok hI' (.close k hk)).1
    refine ⟨fuel, { s.openSession with tfs := handleFreed tfs k }, ?_⟩
    unfold createdBox
    rw [if_neg h.opened]
    simp only [Server.openSession_nodes, Server.openSession_head, hfound, Bounded.ok_bind,
      Bounded.lift_eq, h.named.strAt, Server.openSession_tfs, hopen, hclose]
    rw [if_neg (not_or.mpr ⟨hne, by decide⟩)]
    rfl

/-! ## What is copied -/

/-- `box_name` of the request, cut at its first NUL. -/
def fieldName (r : RawRequest) : List UInt8 := cstr r.memory atBoxName maxBoxName

/-- When a request creates a box, then its name has at most 32 bytes, and in whatever block of
memory the node is made, `strcpy` stays in `box_name` and stores the field. -/
def NamesFit (s : Server) (r : RawRequest) : Prop :=
  ∀ fuel name s₁, createdBox fuel s r.memory atBoxName = .done (ok (some (name, s₁))) →
    name.strlen ≤ 32 ∧ ∀ p, ∃ node nodes,
      newBoxB s₁.nodes (some p) name 0 defaultBoxSize 0 0 = ok (p, nodes) ∧
      nodes p = some node ∧ node.boxName.str.toList = fieldName r

/-- There is a NUL in the 33 bytes. -/
def EndsInField (r : RawRequest) : Prop := ∃ k, k < maxBoxName ∧ r.byte (atBoxName + k) = 0

section
variable {s : Server} {r : RawRequest} {name : CStr}

theorem newBoxB_fits {nodes : Heap BoxNode} (hfits : name.strlen < maxBoxName) (p : Nat) :
    ∃ node nodes', newBoxB nodes (some p) name 0 defaultBoxSize 0 0 = ok (p, nodes') ∧
      nodes' p = some node ∧ node.boxName.str = name := by
  refine ⟨⟨⟨name, hfits⟩, 0, defaultBoxSize, 0, 0, none⟩, _, dif_pos hfits, ?_, rfl⟩
  exact Function.update_self _ _ _

/-- A longer name runs over the end of the field. -/
theorem newBoxB_overflow {nodes : Heap BoxNode} (hlong : maxBoxName ≤ name.strlen) (p : Nat) :
    newBoxB nodes (some p) name 0 defaultBoxSize 0 0 = fault :=
  dif_neg (by omega)

/-- The string in the request is shorter than the field exactly if it ends there, and then it is
the field's. -/
theorem endsInField_iff (hname : HasString r.memory atBoxName name) :
    EndsInField r ↔ name.strlen < maxBoxName := by
  constructor
  · intro hends
    have hlen := (cstr_length_lt r.memory atBoxName maxBoxName).mpr hends
    have hwhole := hname.cstr (n := name.strlen + maxBoxName + 1) (by omega)
    rw [cstr_of_le hlen (by omega)] at hwhole
    rw [hwhole] at hlen
    exact hlen
  · intro hshort
    refine ⟨name.strlen, hshort, ?_⟩
    have hnul := hname.cell (Nat.le_refl _)
    rw [List.getD_eq_getElem?_getD, CStr.strlen, List.getElem?_concat_length] at hnul
    exact hnul

/-- For every request: the name that is copied fits the node and is the field's, exactly if the
field ends in its 33 bytes, or the request creates no box. -/
theorem namesFit_iff (hfs : BrokerFs s.tfs) (r : RawRequest) :
    NamesFit s r ↔ EndsInField r ∨ ¬ ∃ name, CreatesBox s r.memory atBoxName name := by
  constructor
  · intro hfit
    by_cases hcreates : ∃ name, CreatesBox s r.memory atBoxName name
    · obtain ⟨name, hc⟩ := hcreates
      obtain ⟨fuel, s₁, hcreated⟩ := (createdBox_iff hfs.inv).mpr hc
      have hshort : name.strlen < maxBoxName := Nat.lt_succ_of_le (hfit fuel name s₁ hcreated).1
      exact Or.inl ((endsInField_iff hc.named).mpr hshort)
    · exact Or.inr hcreates
  · intro h fuel name s₁ hcreated
    have hc : CreatesBox s r.memory atBoxName name :=
      (createdBox_iff hfs.inv).mp ⟨fuel, s₁, hcreated⟩
    have hends : EndsInField r := h.resolve_right fun hnone => hnone ⟨name, hc⟩
    have hshort := (endsInField_iff hc.named).mp hends
    refine ⟨Nat.le_of_lt_succ hshort, fun p => ?_⟩
    obtain ⟨node, nodes, hnew, hp, hstored⟩ := @newBoxB_fits name s₁.nodes hshort p
    refine ⟨node, nodes, hnew, hp, ?_⟩
    rw [hstored, fieldName, hc.named.cstr hshort]

end

/-! ## A name of 33 bytes -/

/-- In a new file system there is room for any name that fits a directory entry. -/
theorem canCreate_init {m : Mallocs} {tfs : Tfs} (hinit : tfsInit .zero m none = ok (0, tfs))
    {name : CStr} (hv : validPathname (some name) = true) (hlen : name.tail.strlen < maxFileName) :
    CanCreate tfs name := by
  obtain ⟨hini, hparams, -⟩ := tfsInit_initial (p := none) defaultParams_good hinit
  have hinodes : tfs.inodeTableSize = 64 := congrArg TfsParams.maxInodeCount hparams
  have hhandles : tfs.maxOpenFiles = 16 := congrArg TfsParams.maxOpenFilesCount hparams
  have hblock : tfs.blockSize = 1024 := congrArg TfsParams.blockSize hparams
  have hentries : 0 < tfs.maxDirEntries := by
    unfold Tfs.maxDirEntries
    rw [hblock]
    decide
  refine ⟨hv, ⟨0, by omega, hini.handles 0 (by omega)⟩, fun _ => ⟨hlen, ⟨1, by omega, ?_⟩, 0,
    hentries, hini.noFile 0 hentries⟩⟩
  exact hini.inodes 1 ⟨Nat.one_pos, by omega⟩

/-- The broker at its start, in the session of a request to create a box. -/
def createServer : Server := { Server.start brokerDisk with session := createVisit.session }

theorem createServer_fs : BrokerFs createServer.tfs :=
  ⟨zeroMallocs, brokerDisk, [], [], brokerDisk_init, rfl⟩

/-- `/a` fits. -/
theorem namesFit_iff_create : NamesFit createServer createVisit.request :=
  (namesFit_iff createServer_fs createVisit.request).mpr (Or.inl ⟨2, by decide, by decide⟩)

/-- `box_name` is filled with `/aa…a`. -/
def longRequest : RawRequest := fun i =>
  if i.val = 0 then 3 else if i.val = 1 then 112 else if i.val = atBoxName then 47
  else if atBoxName < i.val ∧ i.val < atBoxName + maxBoxName then 97 else 0

def longName : CStr :=
  ⟨47 :: List.replicate 32 97, by simp⟩

theorem longRequest_creates : CreatesBox createServer longRequest.memory atBoxName longName where
  opened := by decide
  absent := ⟨0, rfl⟩
  named := ⟨by decide, by decide, by decide +kernel⟩
  room := canCreate_init brokerDisk_init (by decide) (by decide)

/-- The NUL behind the 33 bytes goes to the byte behind the node's field. -/
theorem not_namesFit_long :
    ¬ ∀ (s : Server) (r : RawRequest), BrokerFs s.tfs → r.code = Codes.cBox.val →
      NamesFit s r := by
  intro hall
  obtain ⟨fuel, s₁, hcreated⟩ := (createdBox_iff createServer_fs.inv).mpr longRequest_creates
  obtain ⟨-, hcopy⟩ := hall createServer longRequest createServer_fs (by decide) _ _ _ hcreated
  obtain ⟨node, nodes, hnew, -⟩ := hcopy 4096
  rw [newBoxB_overflow (by decide)] at hnew
  cases hnew

end Mbroker
