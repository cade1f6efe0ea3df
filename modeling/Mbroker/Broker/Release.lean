import Mbroker.Broker.Subscriber

/-!
# What a session leaves behind

`codeR_PUB` and `codeR_SUB` open the session's pipe, count a publisher and open the box.
Their refusals and the end of the publisher's loop give all of it back; the returns from
inside the loops, at an error of `read`, a result of `tfs_read` other than 0 or a failed
`write`, give back nothing.

    publish_loop_result : the loop ends well or not by the first result of `read` other
      than end of file
    codeRSub_restored : the subscriber's session ends in a refusal only
    sessionsRestore_iff : all is restored exactly if `errno` is EAGAIN there, and the first
      `tfs_read` returns 0, in the sessions that get that far
-/

namespace Mbroker

open CLib Outcome

/-! ## What is restored -/

def SameCounts (nodes nodes' : Heap BoxNode) : Prop :=
  ∀ p node, nodes p = some node → ∃ node', nodes' p = some node' ∧
    node'.nPublishers = node.nPublishers ∧ node'.nSubscribers = node.nSubscribers

/-- The same handles are open, the session's pipe is closed, and all boxes have their counts. -/
structure Restored (s s' : Server) : Prop where
  handles : ∀ fhandle h, Handle s'.tfs fhandle h ↔ Handle s.tfs fhandle h
  closed : s.session.fifo ≠ -1 → s'.session.isOpen = false
  counts : SameCounts s.nodes s'.nodes

theorem sameCounts_refl (nodes : Heap BoxNode) : SameCounts nodes nodes :=
  fun _ node hp => ⟨node, hp, rfl, rfl⟩

/-- The pipe could not be opened. -/
theorem restored_stop {s : Server} (hfifo : s.session.fifo = -1) : Restored s s.stop :=
  ⟨fun _ _ => Iff.rfl, fun hopened => absurd hfifo hopened, sameCounts_refl _⟩

/-- Nothing but the pipe was taken. -/
theorem restored_closed (s : Server) : Restored s s.openSession.closeSession :=
  ⟨fun _ _ => Iff.rfl, fun _ => rfl, sameCounts_refl _⟩

/-- `n_publishers` of one box becomes 0. -/
theorem sameCounts_zero {nodes : Heap BoxNode} {q : Nat} {node : BoxNode}
    (hq : nodes q = some node) :
    SameCounts nodes (Function.update nodes q (some { node with nPublishers := 0 })) ↔
      node.nPublishers = 0 := by
  constructor
  · intro h
    obtain ⟨node', hnode', hpublishers, -⟩ := h q node hq
    rw [Function.update_self] at hnode'
    cases hnode'
    exact hpublishers.symm
  · intro hzero p node' hp
    by_cases hpq : p = q
    · subst hpq
      rw [hq] at hp
      cases hp
      exact ⟨_, Function.update_self _ _ _, hzero.symm, rfl⟩
    · exact ⟨node', (Function.update_of_ne hpq _ _).trans hp, rfl, rfl⟩

theorem handle_congr {tfs tfs' : Tfs}
    (hentries : tfs'.freeOpenFileEntries = tfs.freeOpenFileEntries)
    (hparams : tfs'.fsParams = tfs.fsParams) (fhandle : Int) (h : Nat) :
    Handle tfs' fhandle h ↔ Handle tfs fhandle h := by
  have hsize : tfs'.maxOpenFiles = tfs.maxOpenFiles := congrArg TfsParams.maxOpenFilesCount hparams
  unfold Handle
  rw [hentries, hsize]

/-! ## The file system in a session -/

/-- An existing file, and a handle for it. -/
structure CanOpen (tfs : Tfs) (name : CStr) : Prop where
  file : HasFile tfs name
  handle : ∃ k, k < tfs.maxOpenFiles ∧ tfs.freeOpenFileEntries.cell k = .free

section
variable {tfs tfs' : Tfs} {path : CStr} {boxHandle r : Int}

theorem canOpen_iff (hI : Inv tfs) (hopen : tfsOpen tfs (some path) tfsOAppend = ok (r, tfs')) :
    CanOpen tfs path ↔ r ≠ -1 := by
  constructor
  · rintro ⟨hfile, hhandle⟩
    obtain ⟨j, i, k, -, -, hopen'⟩ := tfsOpen_box hI hfile hhandle
    rw [hopen] at hopen'
    cases hopen'
    omega
  · intro hr
    rcases tfsOpen_append hI hopen with ⟨he, -⟩ | ⟨j, i, k, hv, hn, hk, -, -⟩
    · exact absurd he hr
    · have hfile : dirMap tfs path.tail ≠ none := by
        rw [dirMap_named hI hn]
        exact nofun
      exact ⟨⟨hv, hfile⟩, k, hk.1, hk.2.1⟩

theorem tfsOpen_refused (hI : Inv tfs) (h : ¬ CanOpen tfs path) :
    tfsOpen tfs (some path) tfsOAppend = ok (-1, tfs) := by
  obtain ⟨r, tfs', hopen, -⟩ := tfsOpen_effect hI (some path) tfsOAppend
  rcases tfsOpen_append hI hopen with ⟨rfl, rfl⟩ | ⟨j, i, k, -, -, -, rfl, -⟩
  · exact hopen
  · exact absurd ((canOpen_iff hI hopen).mpr (by omega)) h

/-- A write leaves the handles alone. -/
theorem tfsWrite_frame (hI : Inv tfs) {buffer : Nat → UInt8} {len : Nat}
    (hw : tfsWrite tfs boxHandle buffer len = ok (r, tfs')) :
    Inv tfs' ∧ tfs'.freeOpenFileEntries = tfs.freeOpenFileEntries ∧
      tfs'.fsParams = tfs.fsParams := by
  have heffect := tfsWrite_effect hI hw
  refine ⟨effect_inv hI heffect, ?_⟩
  generalize Ret.mk r [] = ret at heffect
  cases heffect with
  | writeBad hh => exact ⟨rfl, rfl⟩
  | writeZero h i hh hn => exact ⟨rfl, rfl⟩
  | writeNoBlock h i hh hn hz hb => exact ⟨rfl, rfl⟩
  | write h i b n hh hn hclamp hmin hb hnew hold => exact ⟨rfl, rfl⟩

theorem BrokerFs.blockSize (h : BrokerFs tfs) : tfs.blockSize = 1024 := by
  obtain ⟨m, tfs₀, cs, rs, hinit, hrun⟩ := h
  obtain ⟨hini, hparams, -⟩ := tfsInit_initial (p := none) defaultParams_good hinit
  have hdefault := (run_fsParams hini.inv hrun).trans hparams
  exact congrArg TfsParams.blockSize hdefault

end

/-! ## The publisher's loop -/

/-- The first result of `read` other than end of file. -/
def Session.firstResult (s : Session) : Option ReadOutcome :=
  match s.pending.find? fun o => o.errno.isSome with
  | some o => some o
  | none => s.closing.map .failed

/-- The message behind the read ends within the request. -/
def ReadOutcome.Terminated (o : ReadOutcome) : Prop :=
  ∃ text, HasString (o.fill RawRequest.zero).memory atErrorMessage text

namespace Session

variable {s : Session} {o : ReadOutcome} {pending : List ReadOutcome}

theorem firstResult_nil (h : s.pending = []) : s.firstResult = s.closing.map .failed := by
  simp only [firstResult, h, List.find?_nil]

theorem firstResult_eof (h : s.pending = .eof :: pending) :
    s.firstResult = { s with pending }.firstResult := by
  simp only [firstResult, h]
  rfl

theorem firstResult_cons (h : s.pending = o :: pending) (ho : o.errno ≠ none) :
    s.firstResult = some o := by
  have hsome : o.errno.isSome = true := Option.isSome_iff_ne_none.mpr ho
  have hfind : (o :: pending).find? (fun o => o.errno.isSome) = some o :=
    List.find?_cons_of_pos hsome
  simp only [firstResult, h, hfind]

theorem firstResult_next (h : s.read.1 = .eof) : s.read.2.firstResult = s.firstResult := by
  cases hpending : s.pending with
  | nil =>
    cases hclosing : s.closing with
    | none =>
      rw [read_eof hpending hclosing, firstResult_nil hpending]
      exact firstResult_nil hpending
    | some errno =>
      rw [read_failed hpending hclosing] at h
      cases h
  | cons o pending =>
    rw [read_pending hpending] at h ⊢
    rw [show o = .eof from h] at hpending
    exact (firstResult_eof hpending).symm

theorem firstResult_read (h : s.read.1.errno ≠ none) : s.firstResult = some s.read.1 := by
  cases hpending : s.pending with
  | nil =>
    cases hclosing : s.closing with
    | none =>
      rw [read_eof hpending hclosing] at h
      exact absurd rfl h
    | some errno => rw [firstResult_nil hpending, read_failed hpending hclosing, hclosing]; rfl
  | cons o pending =>
    rw [read_pending hpending] at h ⊢
    exact firstResult_cons hpending h

theorem firstResult_errno (h : s.firstResult = some o) : o.errno ≠ none := by
  unfold firstResult at h
  split at h
  · next o' hfind =>
    cases h
    have hsome : o.errno.isSome = true := by simpa using List.find?_some hfind
    exact Option.isSome_iff_ne_none.mp hsome
  · obtain ⟨errno, -, rfl⟩ := Option.map_eq_some_iff.mp h
    exact nofun

theorem read_isOpen (s : Session) : s.read.2.isOpen = s.isOpen := by
  unfold read
  split
  · rfl
  · split
    · rfl
    · rfl

end Session

/-- What the rounds of a session leave alone. -/
structure SessionFrame (s s' : Server) : Prop where
  inv : Inv s'.tfs
  entries : s'.tfs.freeOpenFileEntries = s.tfs.freeOpenFileEntries
  params : s'.tfs.fsParams = s.tfs.fsParams
  nodes : s'.nodes = s.nodes
  isOpen : s'.session.isOpen = s.session.isOpen

section
variable {boxHandle : Int} {s s' : Server} {request : RawRequest} {o : ReadOutcome}

/-- A round, behind which the session has read and perhaps written. -/
theorem sessionFrame_write {s₁ : Server} (hs : SessionFrame s₁ s) {buffer : Nat → UInt8} {len : Nat}
    {ret : Int} {tfs : Tfs} (hw : tfsWrite s.tfs boxHandle buffer len = ok (ret, tfs)) :
    SessionFrame s₁ { s with session := s.session.read.2, tfs } := by
  obtain ⟨hI, hentries, hparams⟩ := tfsWrite_frame hs.inv hw
  exact ⟨hI, hentries.trans hs.entries, hparams.trans hs.params, hs.nodes,
    s.session.read_isOpen.trans hs.isOpen⟩

theorem publish_loop_frame {fuel : Nat} {ended : Bool} (hI : Inv s.tfs)
    (h : loop (publishStep boxHandle) fuel (s, request) = .done (ok (ended, s'))) :
    SessionFrame s s' := by
  have hstep : ∀ st st' : Server × RawRequest, SessionFrame s st.1 →
      publishStep boxHandle st = ok (.inl st') → SessionFrame s st'.1 := by
    rintro ⟨s₁, request₁⟩ st' hs hnext
    obtain ⟨-, buffer, len, ret, tfs, hw, rfl⟩ := publishStep_next hnext
    exact sessionFrame_write hs hw
  obtain ⟨⟨s₁, request₁⟩, hs, hleave⟩ := loop_ends _ hstep ⟨hI, rfl, rfl, rfl, rfl⟩ h
  rcases publishStep_leave hleave with ⟨-, -, buffer, len, ret, tfs, -, hw, rfl⟩ | ⟨-, -, -, rfl⟩
  · exact sessionFrame_write hs hw
  · exact ⟨hs.inv, hs.entries, hs.params, hs.nodes, s₁.session.read_isOpen.trans hs.isOpen⟩

/-- The first result that is not an end of file ends the loop: well at EAGAIN, if the message can
be measured, and at any other error with what the session had. -/
theorem publish_loop_result {fuel : Nat} {ended : Bool}
    (h : loop (publishStep boxHandle) fuel (s, request) = .done (ok (ended, s'))) :
    ∃ o, s.session.firstResult = some o ∧
      (ended = true ∧ o.errno = some eAgain ∧
          (∃ len, strlen (o.fill request).memory atErrorMessage = ok len) ∨
        ended = false ∧ o.errno ≠ some eAgain) := by
  -- the invariant: ends of file take neither the result nor the request away
  have hstep : ∀ st st' : Server × RawRequest,
      st.2 = request ∧ st.1.session.firstResult = s.session.firstResult →
      publishStep boxHandle st = ok (.inl st') →
      st'.2 = request ∧ st'.1.session.firstResult = s.session.firstResult := by
    rintro ⟨s₁, request₁⟩ st' ⟨hrequest, hfirst⟩ hs
    obtain ⟨heof, buffer, len, ret, tfs, -, rfl⟩ := publishStep_next hs
    exact ⟨hrequest, (Session.firstResult_next heof).trans hfirst⟩
  obtain ⟨⟨s₁, request₁⟩, ⟨rfl, hfirst⟩, hleave⟩ := loop_ends _ hstep ⟨rfl, rfl⟩ h
  rw [← hfirst]
  rcases publishStep_leave hleave with ⟨hended, hagain, buffer, len, ret, tfs, hlen, -⟩ |
    ⟨hended, hne, hother, -⟩
  · have hne : s₁.session.read.1.errno ≠ none := by
      rw [hagain]
      exact nofun
    exact ⟨_, Session.firstResult_read hne, Or.inl ⟨hended, hagain, len, hlen⟩⟩
  · exact ⟨_, Session.firstResult_read hne, Or.inr ⟨hended, hother⟩⟩

/-- Up to that result the rounds change nothing. -/
theorem publish_loop_returns {ended : Bool}
    (hwrite : ∀ buffer, tfsWrite s.tfs boxHandle buffer 0 = ok (0, s.tfs))
    (hfirst : s.session.firstResult = some o)
    (hleave : ∀ session session', Session.read session = (o, session') →
      ∃ s', publishStep boxHandle ({ s with session }, RawRequest.zero) = ok (.inr (ended, s'))) :
    ∃ fuel s', loop (publishStep boxHandle) fuel (s, RawRequest.zero) = .done (ok (ended, s')) := by
  generalize hpending : s.session.pending = pending
  induction pending generalizing s with
  | nil =>
    rw [Session.firstResult_nil hpending] at hfirst
    obtain ⟨errno, hclosing, rfl⟩ := Option.map_eq_some_iff.mp hfirst
    obtain ⟨s', hs'⟩ := hleave s.session _ (Session.read_failed hpending hclosing)
    exact ⟨1, s', loop_leave hs' 0⟩
  | cons o' pending ih =>
    by_cases ho' : o'.errno = none
    · rw [ReadOutcome.errno_eq_none ho'] at hpending
      rw [Session.firstResult_eof hpending] at hfirst
      obtain ⟨fuel, s', hs'⟩ := ih (s := { s with session := { s.session with pending } })
        hwrite hfirst hleave rfl
      refine ⟨fuel + 1, s', ?_⟩
      rw [loop_next (publishStep_eof hwrite (Session.read_pending hpending))]
      exact hs'
    · rw [Session.firstResult_cons hpending ho'] at hfirst
      cases hfirst
      obtain ⟨s', hs'⟩ := hleave s.session _ (Session.read_pending hpending)
      exact ⟨1, s', loop_leave hs' 0⟩

theorem publishStep_error {session : Session} (hread : s.session.read = (o, session))
    (hne : o.errno ≠ none) (hother : o.errno ≠ some eAgain) :
    publishStep boxHandle (s, request) = ok (.inr (false, { s with session }.stop)) := by
  simp [publishStep, hread, hne, hother]

theorem publishStep_again {session : Session} {len : Nat} (hread : s.session.read = (o, session))
    (hagain : o.errno = some eAgain)
    (hlen : strlen (o.fill request).memory atErrorMessage = ok len)
    (hw : ∀ buffer, ∃ ret tfs, tfsWrite s.tfs boxHandle buffer len = ok (ret, tfs)) :
    ∃ s', publishStep boxHandle (s, request) = ok (.inr (true, s')) := by
  obtain ⟨ret, tfs, hwrite⟩ := hw fun k => (o.fill request).memory.cell (atErrorMessage + k)
  exact ⟨{ s with session, tfs }, by simp [publishStep, hread, hagain, hlen, hwrite]⟩

end

/-! ## The publisher's session -/

section
variable {fuel fuel' : Nat} {s s' s₂ : Server} {request : Region UInt8} {boxName q : Nat}
  {node : BoxNode}

theorem FindsBox.more (h : FindsBox fuel s request boxName q node) (hle : fuel ≤ fuel') :
    FindsBox fuel' s request boxName q node := by
  refine ⟨h.opened, ?_, h.node⟩
  have hfound := h.found
  unfold findBox at hfound ⊢
  split at hfound
  · exact hfound
  · exact loop_more hfound hle

theorem FindsBox.unique {q' : Nat} {node' : BoxNode} (h : FindsBox fuel s request boxName q node)
    (h' : FindsBox fuel' s request boxName q' node') : q' = q ∧ node' = node := by
  have hfound := (h.more (Nat.le_max_left fuel fuel')).found
  rw [(h'.more (Nat.le_max_right fuel fuel')).found] at hfound
  cases hfound
  have hnode := h'.node
  rw [h.node] at hnode
  cases hnode
  exact ⟨rfl, rfl⟩

/-- The session behind the loop: its handle is closed, and the others are as before. -/
theorem session_close {tfs : Tfs} {i k offset : Nat}
    (hk : FirstAt (fun k => s.tfs.freeOpenFileEntries.cell k = .free) s.tfs.maxOpenFiles k)
    (htfs : tfs = handleAdded s.tfs k i offset)
    (hs : SessionFrame (publishing s q node tfs) s₂) :
    tfsClose s₂.tfs (k : Int) = ok (0, handleFreed s₂.tfs k) ∧ ∀ fhandle h,
      Handle (handleFreed s₂.tfs k) fhandle h ↔ Handle s.tfs fhandle h := by
  subst htfs
  have hentries : s₂.tfs.freeOpenFileEntries = s.tfs.freeOpenFileEntries.set k .taken := hs.entries
  have hparams : s₂.tfs.fsParams = s.tfs.fsParams := hs.params
  have hsize : s₂.tfs.maxOpenFiles = s.tfs.maxOpenFiles :=
    congrArg TfsParams.maxOpenFilesCount hparams
  have hh : Handle s₂.tfs (k : Int) k := by
    refine ⟨rfl, ?_, ?_⟩
    · rw [hsize]
      exact hk.1
    · rw [hentries, Region.set_cell_self]
  refine ⟨(tfsClose_ok hs.inv (.close k hh)).1, handle_congr ?_ hparams⟩
  simp only [handleFreed, hentries]
  exact Region.set_set_self _ _ _ _ hk.2.1

/-- A refusal by `tfs_open`: the count becomes 0 whatever it was. -/
theorem restored_refused {tfs : Tfs} (hI : Inv s.tfs) (hq : s.nodes q = some node)
    (hopen : tfsOpen s.tfs (some node.boxName.str) tfsOAppend = ok (-1, tfs)) :
    Restored s { s.openSession.closeSession with
      nodes := Function.update s.nodes q (some { node with nPublishers := 0 })
      tfs := tfs } ↔ node.nPublishers = 0 := by
  obtain rfl : tfs = s.tfs := by
    rcases tfsOpen_append hI hopen with ⟨-, rfl⟩ | ⟨j, i, k, -, -, -, hk, -⟩
    · rfl
    · omega
  rw [← sameCounts_zero hq]
  exact ⟨fun h => h.counts, fun h => ⟨fun _ _ => Iff.rfl, fun _ => rfl, h⟩⟩

section
variable {tfs tfs₂ : Tfs} {boxHandle ret : Int} {node₂ : BoxNode} (hI : Inv s.tfs)
  (hq : s.nodes q = some node)
  (hopen : tfsOpen s.tfs (some node.boxName.str) tfsOAppend = ok (boxHandle, tfs))
  (hne : boxHandle ≠ -1)

include hI hopen hne

/-- A return from inside the loop leaves the pipe open. -/
theorem not_restored_failed (hfifo : s.session.fifo ≠ -1)
    (hloop : loop (publishStep boxHandle) fuel (publishing s q node tfs, RawRequest.zero) =
      .done (ok (false, s₂))) : ¬ Restored s s₂ := by
  intro h
  rcases tfsOpen_append hI hopen with ⟨hr, -⟩ | ⟨j, i, k, -, hn, hk, rfl, rfl⟩
  · exact hne hr
  · have hI' := (opened_atEnd hI hn hk).1
    have hframe := publish_loop_frame (s := publishing s q node _) hI' hloop
    have hclosed := h.closed hfifo
    rw [hframe.isOpen] at hclosed
    cases hclosed

include hq

/-- Behind the loop the handle and the pipe are closed, and the count becomes 0. -/
theorem restored_ended
    (hloop : loop (publishStep boxHandle) fuel (publishing s q node tfs, RawRequest.zero) =
      .done (ok (true, s₂)))
    (hclose : tfsClose s₂.tfs boxHandle = ok (ret, tfs₂)) (hnode : s₂.nodes q = some node₂) :
    Restored s { s₂.closeSession with
      nodes := Function.update s₂.nodes q (some { node₂ with nPublishers := 0 })
      tfs := tfs₂ } ↔ node.nPublishers = 0 := by
  rcases tfsOpen_append hI hopen with ⟨hr, -⟩ | ⟨j, i, k, -, hn, hk, rfl, rfl⟩
  · exact absurd hr hne
  · have hI' := (opened_atEnd hI hn hk).1
    have hframe := publish_loop_frame (s := publishing s q node _) hI' hloop
    obtain ⟨hclose', hhandles⟩ := session_close hk rfl hframe
    rw [hclose'] at hclose
    cases hclose
    have hnodes : s₂.nodes = Function.update s.nodes q (some { node with nPublishers := 1 }) :=
      hframe.nodes
    rw [hnodes, Function.update_self] at hnode
    cases hnode
    have hcounts : Function.update s₂.nodes q (some { node with nPublishers := 0 }) =
        Function.update s.nodes q (some { node with nPublishers := 0 }) := by
      rw [hnodes, Function.update_idem]
    rw [← sameCounts_zero hq, ← hcounts]
    exact ⟨fun h => h.counts, fun h => ⟨hhandles, fun _ => rfl, h⟩⟩

end

/-- A session of an open box comes to the end of its loop wherever that can be left. -/
theorem session_returns {boxHandle : Int} {tfs : Tfs} {ended : Bool} {o : ReadOutcome}
    (hq : FindsBox fuel s request boxName q node)
    (hwrite : ∀ buffer, tfsWrite tfs boxHandle buffer 0 = ok (0, tfs))
    (hfirst : s.session.firstResult = some o)
    (hleave : ∀ session session', Session.read session = (o, session') → ∃ s',
      publishStep boxHandle ({ publishing s q node tfs with session }, RawRequest.zero) =
        ok (.inr (ended, s'))) :
    ∃ fuel' s₂, FindsBox fuel' s request boxName q node ∧
      loop (publishStep boxHandle) fuel' (publishing s q node tfs, RawRequest.zero) =
        .done (ok (ended, s₂)) := by
  obtain ⟨fuel₂, s₂, hloop⟩ := publish_loop_returns (s := publishing s q node tfs) hwrite hfirst
    hleave
  exact ⟨max fuel fuel₂, s₂, hq.more (Nat.le_max_left _ _), loop_more hloop (Nat.le_max_right _ _)⟩

/-- What `codeR_PUB` needs to give back all it took from a box: a publisher is counted already; or
none is, and the box cannot be opened, or its session ends at EAGAIN or never. -/
def PublisherReleases (s : Server) (node : BoxNode) : Prop :=
  node.nPublishers = 1 ∨
  ¬ CanOpen s.tfs node.boxName.str ∧ node.nPublishers = 0 ∨
  CanOpen s.tfs node.boxName.str ∧ ∀ o, s.session.firstResult = some o →
    o.errno = some eAgain ∧ (node.nPublishers = 0 ∨ ¬ o.Terminated)

/-- The session of a box that can be opened. -/
theorem publisherReleases_open (hfs : BrokerFs s.tfs) (hq : FindsBox fuel s request boxName q node)
    (hone : node.nPublishers ≠ 1) (hcan : CanOpen s.tfs node.boxName.str)
    (hall : ∀ fuel s', codeRPub fuel s request boxName = .done (ok s') → Restored s s')
    {o : ReadOutcome} (ho : s.session.firstResult = some o) :
    o.errno = some eAgain ∧ (node.nPublishers = 0 ∨ ¬ o.Terminated) := by
  have hI := hfs.inv
  obtain ⟨j, i, k, hn, hk, hopen⟩ := tfsOpen_box hI hcan.file hcan.handle
  obtain ⟨hI', hh, hend, hsize⟩ := opened_atEnd hI hn hk
  have hhandle : (k : Int) ≠ -1 := by omega
  have hzero := opened_tfsWrite_zero hI hn hk
  by_cases hagain : o.errno = some eAgain
  · refine ⟨hagain, or_not_of_imp ?_⟩
    rintro ⟨text, htext⟩
    have hoffset := hend.trans_le hsize
    have hsum : text.strlen + s.tfs.blockSize < 2 ^ 64 := by
      have hlen : atErrorMessage + text.strlen < sizeofRequest := htext.2.1
      have hrequest : sizeofRequest < 2 ^ 32 := by decide
      rw [hfs.blockSize]
      omega
    obtain ⟨fuel', s₂, hq', hloop⟩ := session_returns hq hzero ho fun session session' hread =>
      publishStep_again hread hagain htext.strlen fun buffer =>
        tfsWrite_returns hI' hh buffer hoffset (sumFits_of_lt (by omega))
    have hframe := publish_loop_frame (s := publishing s q node _) hI' hloop
    have hclose := (session_close hk rfl hframe).1
    have hnode : s₂.nodes q = some { node with nPublishers := 1 } := by
      rw [hframe.nodes]
      exact Function.update_self _ _ _
    have hends := PublisherEnds.ended hq' hone hopen hhandle hloop hclose hnode
    exact (restored_ended hI hq.node hopen hhandle hloop hclose hnode).mp
      (hall _ _ hends.returns)
  · obtain ⟨fuel', s₂, hq', hloop⟩ := session_returns hq hzero ho fun session session' hread =>
      ⟨_, publishStep_error hread (Session.firstResult_errno ho) hagain⟩
    have hends := PublisherEnds.failed hq' hone hopen hhandle hloop
    exact absurd (hall _ _ hends.returns) (not_restored_failed hI hopen hhandle hq.opened hloop)

theorem publisher_restores_iff (hfs : BrokerFs s.tfs)
    (hq : FindsBox fuel s request boxName q node) :
    (∀ fuel s', codeRPub fuel s request boxName = .done (ok s') → Restored s s') ↔
      PublisherReleases s node := by
  have hI := hfs.inv
  constructor
  · intro hall
    by_cases hone : node.nPublishers = 1
    · exact Or.inl hone
    by_cases hcan : CanOpen s.tfs node.boxName.str
    · exact Or.inr (Or.inr ⟨hcan, fun o ho => publisherReleases_open hfs hq hone hcan hall ho⟩)
    · have hopen := tfsOpen_refused hI hcan
      have hends := PublisherEnds.refused hq hone hopen
      exact Or.inr (Or.inl ⟨hcan, (restored_refused hI hq.node hopen).mp (hall _ _ hends.returns)⟩)
  · intro hcond fuel' s' h
    cases codeRPub_ends h with
    | noPipe hfifo => exact absurd hfifo hq.opened
    | taken hq' hone => exact restored_closed s
    | refused hq' hone hopen =>
      obtain ⟨rfl, rfl⟩ := hq.unique hq'
      rw [restored_refused hI hq.node hopen]
      rcases hcond with h1 | ⟨-, hzero⟩ | ⟨hcan, -⟩
      · exact absurd h1 hone
      · exact hzero
      · exact absurd rfl ((canOpen_iff hI hopen).mp hcan)
    | failed hq' hone hopen hhandle hloop =>
      obtain ⟨rfl, rfl⟩ := hq.unique hq'
      obtain ⟨o, ho, ⟨hended, -⟩ | ⟨-, hother⟩⟩ := publish_loop_result hloop
      · cases hended
      · rcases hcond with h1 | ⟨hcan, -⟩ | ⟨-, hresult⟩
        · exact absurd h1 hone
        · exact absurd ((canOpen_iff hI hopen).mpr hhandle) hcan
        · exact absurd (hresult o ho).1 hother
    | ended hq' hone hopen hhandle hloop hclose hnode =>
      obtain ⟨rfl, rfl⟩ := hq.unique hq'
      rw [restored_ended hI hq.node hopen hhandle hloop hclose hnode]
      obtain ⟨o, ho, ⟨-, -, len, hlen⟩ | ⟨hended, -⟩⟩ := publish_loop_result hloop
      · rcases hcond with h1 | ⟨-, hzero⟩ | ⟨-, hresult⟩
        · exact absurd h1 hone
        · exact hzero
        · obtain ⟨text, htext, -⟩ := strlen_eq_ok.mp hlen
          exact (hresult o ho).2.resolve_right fun hnot => hnot ⟨text, htext⟩
      · cases hended

end

/-! ## The subscriber's session -/

/-- What a `tfs_read` into the message of `codeR_SUB` returns, stores and leaves. -/
structure TfsReadOutcome where
  ret : Int
  bytes : List UInt8
  fits : bytes.length ≤ maxMessage + 1
  openFileTable : Region OpenFileEntry

/-- A round of the subscriber's loop, whose `tfs_read` is the next of `outcomes`. -/
def subscribeStepOn (outcomes : Nat → TfsReadOutcome) (st : Nat × Server × Region UInt8) :
    Outcome ((Nat × Server × Region UInt8) ⊕ Server) := do
  let (n, s, message) := st
  let o := outcomes n
  let tfs := { s.tfs with openFileTable := o.openFileTable }
  match ← subscribeRound s message o.ret o.bytes tfs with
  | .inl (s, message) => return .inl (n + 1, s, message)
  | .inr s => return .inr s

/-- `codeR_SUB` with these results of `tfs_read`. -/
def codeRSubOn (outcomes : Nat → TfsReadOutcome) (fuel : Nat) (s : Server)
    (request : Region UInt8) (boxName : Nat) : Bounded Server := do
  match ← subscribe fuel s request boxName with
  | (none, s) => return s
  | (some _, s) =>
    loop (subscribeStepOn outcomes) fuel (0, s, s.session.message (maxMessage + 1))

theorem tfsRead_frame {tfs tfs' : Tfs} {fhandle ret : Int} {len : Nat} {bytes : List UInt8}
    (h : tfsRead tfs fhandle len = ok (ret, bytes, tfs')) :
    bytes.length ≤ len ∧ ∃ openFileTable, tfs' = { tfs with openFileTable } := by
  unfold tfsRead at h
  obtain ⟨entry, -, h⟩ := (bind_eq_ok _ _ _).mp h
  cases entry with
  | none =>
    cases h
    exact ⟨Nat.zero_le _, _, rfl⟩
  | some k =>
    obtain ⟨file, -, h⟩ := (bind_eq_ok _ _ _).mp h
    obtain ⟨i, -, h⟩ := (bind_eq_ok _ _ _).mp h
    obtain ⟨_, -, h⟩ := (bind_eq_ok _ _ _).mp h
    obtain ⟨inode, -, h⟩ := (bind_eq_ok _ _ _).mp h
    simp only at h
    split at h
    · obtain ⟨block, -, h⟩ := (bind_eq_ok _ _ _).mp h
      obtain ⟨_, -, h⟩ := (bind_eq_ok _ _ _).mp h
      obtain ⟨bytes', hload, h⟩ := (bind_eq_ok _ _ _).mp h
      obtain ⟨openFileTable, -, h⟩ := (bind_eq_ok _ _ _).mp h
      simp only [pure_eq, ok.injEq, Prod.mk.injEq] at h
      obtain ⟨-, rfl, rfl⟩ := h
      have hlength := (Region.loadN_length hload).trans_le (clampRead_le _ _ _)
      exact ⟨hlength, openFileTable, rfl⟩
    · simp only [pure_eq, ok.injEq, Prod.mk.injEq] at h
      obtain ⟨-, rfl, rfl⟩ := h
      exact ⟨Nat.zero_le _, _, rfl⟩

section
variable {fuel : Nat} {s s' s₁ : Server} {request : Region UInt8} {boxName q : Nat}
  {node : BoxNode} {outcomes : Nat → TfsReadOutcome} {boxHandle : Int}

theorem subscribeStepOn_ends {st : Nat × Server × Region UInt8}
    {r : (Nat × Server × Region UInt8) ⊕ Server} (h : subscribeStepOn outcomes st = ok r) :
    (outcomes st.1).ret ≠ 0 := by
  obtain ⟨round, hround, -⟩ := (bind_eq_ok _ _ _).mp h
  exact (subscribeRound_ends hround).1

theorem subscribeStepOn_stop {n : Nat} {message : Region UInt8}
    (h : subscribeRound s message (outcomes n).ret (outcomes n).bytes
      { s.tfs with openFileTable := (outcomes n).openFileTable } = ok (.inr s')) :
    subscribeStepOn outcomes (n, s, message) = ok (.inr s') := by
  simp only [subscribeStepOn, h, ok_bind]
  rfl

/-- A result other than 0 is a return, with all that the session had. -/
theorem subscribeStepOn_returns (n : Nat) (hret : (outcomes n).ret ≠ 0) :
    ∃ s', subscribeStepOn outcomes (n, s, s.session.message (maxMessage + 1)) = ok (.inr s') ∧
      s'.session = s.session := by
  have hfits := (outcomes n).fits
  have hfill := @Region.fill_ok _ (s.session.message (maxMessage + 1)) 1 (outcomes n).bytes.length
    (fun k => (outcomes n).bytes.getD k 0) ⟨Nat.le_refl 1, Nat.add_le_add_left hfits 1⟩
  refine ⟨Server.stop { s with tfs := { s.tfs with openFileTable := (outcomes n).openFileTable } },
    ?_, rfl⟩
  apply subscribeStepOn_stop
  simp only [subscribeRound, hfill, ok_bind, if_pos hret]
  rfl

/-- With its own results of `tfs_read` it is `codeR_SUB`. -/
theorem codeRSub_on (h : codeRSub fuel s request boxName = .done (ok s')) :
    ∃ outcomes, codeRSubOn outcomes fuel s request boxName = .done (ok s') := by
  unfold codeRSub at h
  obtain ⟨⟨handle, s₁⟩, hsubscribe, h⟩ := Bounded.bind_eq_ok.mp h
  cases handle with
  | none =>
    refine ⟨fun _ => ⟨0, [], Nat.zero_le _, s.tfs.openFileTable⟩, ?_⟩
    unfold codeRSubOn
    rw [hsubscribe]
    exact h
  | some boxHandle =>
    rcases loop_first h with ⟨k, rfl, ⟨st, hstep, -⟩ | hstep⟩
    · obtain ⟨ret, bytes, tfs, -, -, he⟩ := subscribeStep_ends hstep
      cases he
    · rw [subscribeStep_eq] at hstep
      obtain ⟨⟨ret, bytes, tfs⟩, hread, hround⟩ := (bind_eq_ok _ _ _).mp hstep
      obtain ⟨hfits, openFileTable, rfl⟩ := tfsRead_frame hread
      refine ⟨fun _ => ⟨ret, bytes, hfits, openFileTable⟩, ?_⟩
      unfold codeRSubOn
      rw [hsubscribe]
      exact loop_leave (subscribeStepOn_stop hround) k

/-- A refusal has closed the pipe, and opened nothing else. -/
theorem restored_unsubscribed (hI : Inv s.tfs)
    (h : subscribe fuel s request boxName = .done (ok (none, s'))) : Restored s s' := by
  rcases subscribe_returned h with ⟨hfifo, rfl⟩ | ⟨tfs, rfl, hsame | ⟨path, hopen⟩⟩
  · exact restored_stop hfifo
  · subst hsame
    exact restored_closed s
  · rcases tfsOpen_append hI hopen with ⟨-, rfl⟩ | ⟨j, i, k, -, -, -, hk, -⟩
    · exact restored_closed s
    · omega

/-- The reads of a session find no byte, so `codeR_SUB` returns from its refusals only. -/
theorem codeRSub_restored (hfs : BrokerFs s.tfs)
    (h : codeRSub fuel s request boxName = .done (ok s')) : Restored s s' := by
  unfold codeRSub at h
  obtain ⟨⟨handle, s₁⟩, hsubscribe, h⟩ := Bounded.bind_eq_ok.mp h
  cases handle with
  | none =>
    cases h
    exact restored_unsubscribed hfs.inv hsubscribe
  | some boxHandle =>
    obtain ⟨r, hstep⟩ := loop_round h
    obtain ⟨ret, bytes, tfs, hread, hret, -⟩ := subscribeStep_ends hstep
    rw [subscribe_read hfs hsubscribe (maxMessage + 1)] at hread
    cases hread
    exact absurd rfl hret

/-- What `codeR_SUB` needs to give back all it took: a refusal, or a first read of no byte. -/
def SubscriberReleases (outcomes : Nat → TfsReadOutcome) (s : Server) (node : BoxNode) : Prop :=
  node.nSubscribers = 0 ∨ ¬ CanOpen s.tfs node.boxName.str ∨ (outcomes 0).ret = 0

theorem subscriber_restores_iff (hfs : BrokerFs s.tfs)
    (hq : FindsBox fuel s request boxName q node) :
    (∀ fuel s', codeRSubOn outcomes fuel s request boxName = .done (ok s') → Restored s s') ↔
      SubscriberReleases outcomes s node := by
  have hI := hfs.inv
  constructor
  · intro hall
    by_contra hcond
    simp only [SubscriberReleases, not_or, not_not] at hcond
    obtain ⟨hcount, hcan, hret⟩ := hcond
    obtain ⟨j, i, k, -, -, hopen⟩ := tfsOpen_box hI hcan.file hcan.handle
    have hpositive : ¬ node.nSubscribers ≤ 0 := fun hle => hcount (UInt64.le_zero_iff.mp hle)
    have hhandle : (k : Int) ≠ -1 := by omega
    -- the session is accepted, and returns at its first read
    have hsubscribe := subscribe_found (hq.more (Nat.le_add_right fuel 1))
    rw [if_neg hpositive, hopen] at hsubscribe
    simp only [Bounded.lift_eq, Bounded.ok_bind, if_neg hhandle] at hsubscribe
    obtain ⟨s', hstep, hsession⟩ := subscribeStepOn_returns 0 hret
      (s := { s.openSession with tfs := handleAdded s.tfs k i (s.tfs.inodeTable.cell i).iSize })
    have hreturns : codeRSubOn outcomes (fuel + 1) s request boxName = .done (ok s') := by
      unfold codeRSubOn
      rw [hsubscribe]
      exact loop_leave hstep fuel
    have hclosed := (hall _ _ hreturns).closed hq.opened
    rw [hsession] at hclosed
    cases hclosed
  · intro hcond fuel' s' h
    unfold codeRSubOn at h
    obtain ⟨⟨handle, s₁⟩, hsubscribe, h⟩ := Bounded.bind_eq_ok.mp h
    cases handle with
    | none =>
      cases h
      exact restored_unsubscribed hI hsubscribe
    | some boxHandle =>
      obtain ⟨q', node', tfs, hq', hpositive, hopen, hhandle, -⟩ := subscribe_accepted hsubscribe
      obtain ⟨rfl, rfl⟩ := hq.unique hq'
      exfalso
      rcases hcond with hzero | hcan | hret
      · exact hpositive (UInt64.le_zero_iff.mpr hzero)
      · exact hcan ((canOpen_iff hI hopen).mpr hhandle)
      · obtain ⟨r, hstep⟩ := loop_round h
        exact subscribeStepOn_ends hstep hret

end

/-! ## Both handlers -/

/-- Whatever handler the request is for, and whenever it returns. -/
structure SessionsRestore (outcomes : Nat → TfsReadOutcome) (s : Server) (request : Region UInt8)
    (boxName : Nat) : Prop where
  publisher : ∀ fuel s', codeRPub fuel s request boxName = .done (ok s') → Restored s s'
  subscriber : ∀ fuel s', codeRSubOn outcomes fuel s request boxName = .done (ok s') →
    Restored s s'

/-- All is restored exactly if the box that `find_box` finds, where the handlers get that far, meets
both conditions. -/
theorem sessionsRestore_iff {s : Server} (hfs : BrokerFs s.tfs) (outcomes : Nat → TfsReadOutcome)
    (request : Region UInt8) (boxName : Nat) :
    SessionsRestore outcomes s request boxName ↔ ∀ fuel q node,
      FindsBox fuel s request boxName q node →
        PublisherReleases s node ∧ SubscriberReleases outcomes s node := by
  constructor
  · intro h fuel q node hq
    exact ⟨(publisher_restores_iff hfs hq).mp h.publisher,
      (subscriber_restores_iff hfs hq).mp h.subscriber⟩
  · intro hall
    constructor
    · intro fuel s' h
      rcases codeRPub_box h with ⟨hfifo, rfl⟩ | ⟨q, node, hq⟩
      · exact restored_stop hfifo
      · exact (publisher_restores_iff hfs hq).mpr (hall fuel q node hq).1 fuel s' h
    · intro fuel s' h
      obtain ⟨⟨handle, s₁⟩, hsubscribe, -⟩ := Bounded.bind_eq_ok.mp h
      rcases subscribe_box hsubscribe with ⟨hfifo, he⟩ | ⟨q, node, hq⟩
      · cases he
        unfold codeRSubOn at h
        rw [hsubscribe] at h
        cases h
        exact restored_stop hfifo
      · exact (subscriber_restores_iff hfs hq).mpr (hall fuel q node hq).2 fuel s' h

/-- A `tfs_read` that fails. -/
def failedRead : TfsReadOutcome := ⟨-1, [], Nat.zero_le _, twoBoxDisk.openFileTable⟩

theorem twoBoxDisk_canOpen : CanOpen twoBoxDisk boxB.str :=
  ⟨twoBoxDisk_b, 0, by decide +kernel, by decide +kernel⟩

/-- `find_box` finds the other box. -/
theorem findsBox_two (pending : List ReadOutcome) (closing : Option Int) :
    FindsBox 3 (twoBoxServer pending closing) requestA atBoxName 4224
      ⟨boxB, 0, 1024, 0, 0, none⟩ :=
  ⟨by show (5 : Int) ≠ -1; decide, rfl, rfl⟩

/-- A publisher that sends nothing and closes its pipe. -/
theorem sessionsRestore_iff_silent : SessionsRestore (fun _ => failedRead)
    (twoBoxServer [.eof] (some eAgain)) requestA atBoxName := by
  refine (sessionsRestore_iff twoBoxDisk_fs _ requestA atBoxName).mpr fun fuel q node hq => ?_
  obtain ⟨rfl, rfl⟩ := (findsBox_two [.eof] (some eAgain)).unique hq
  refine ⟨Or.inr (Or.inr ⟨twoBoxDisk_canOpen, fun o ho => ?_⟩), Or.inl rfl⟩
  have hresult : (twoBoxServer [.eof] (some eAgain)).session.firstResult =
    some (.failed eAgain) := rfl
  rw [hresult] at ho
  cases ho
  exact ⟨rfl, Or.inl rfl⟩

/-- Behind a message the session's pipe stays open. -/
theorem not_sessionsRestore_hi :
    ¬ ∀ (s : Server) (outcomes : Nat → TfsReadOutcome) (request : Region UInt8) (boxName : Nat),
      BrokerFs s.tfs → SessionsRestore outcomes s request boxName := by
  intro hall
  have hq := findsBox_two [.complete hiMessage 0] none
  have h := hall _ (fun _ => failedRead) requestA atBoxName
    (show BrokerFs (twoBoxServer [.complete hiMessage 0] none).tfs from twoBoxDisk_fs)
  have hcond := (publisher_restores_iff twoBoxDisk_fs hq).mp h.publisher
  rcases hcond with hone | ⟨hcan, -⟩ | ⟨-, hresult⟩
  · cases hone
  · exact hcan twoBoxDisk_canOpen
  · have hagain := (hresult (.complete hiMessage 0) rfl).1
    exact absurd hagain (by decide)

end Mbroker
