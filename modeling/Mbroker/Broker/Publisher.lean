import Mbroker.Broker.Boxes
import Mbroker.Broker.Survival

/-!
# A publisher's session

`codeR_PUB` takes each message for the end of the session or for an error, since it
tests `errno` before the result of `read`: EAGAIN, which it takes for the close of the
pipe, ends the loop wherever it shows up, and any other value returns from the handler
with the box open.  Only end of file keeps the loop going.

    publish_loop : the loop leaves behind the close only if all reads before it were ends
      of file and the close shows up as EAGAIN
    publisher_iff : the session stores its messages and ends behind the close exactly if
      there are none, and the box that `find_box` returns can be opened
-/

namespace Mbroker

open CLib Outcome

/-! ## The loop -/

section
variable {boxHandle : Int} {s s' : Server} {request : RawRequest}

theorem ReadOutcome.errno_eq_none {o : ReadOutcome} (h : o.errno = none) : o = .eof := by
  cases o with
  | eof => rfl
  | complete r errno => cases h
  | failed errno => cases h

/-- The loop goes on behind an end of file. -/
theorem publishStep_next {st : Server × RawRequest}
    (h : publishStep boxHandle (s, request) = ok (.inl st)) :
    s.session.read.1 = .eof ∧ ∃ buffer len ret tfs,
      tfsWrite s.tfs boxHandle buffer len = ok (ret, tfs) ∧
      st = ({ s with session := s.session.read.2, tfs }, request) := by
  simp only [publishStep] at h
  split at h
  · cases h
  · next herrno =>
    obtain ⟨len, -, h⟩ := (bind_eq_ok _ _ _).mp h
    obtain ⟨⟨ret, tfs⟩, hwrite, h⟩ := (bind_eq_ok _ _ _).mp h
    simp only at h
    split at h
    · cases h
    · next hagain =>
      cases h
      have hnone : s.session.read.1.errno = none := by
        by_contra hne
        exact herrno ⟨hne, hagain⟩
      have heof := ReadOutcome.errno_eq_none hnone
      refine ⟨heof, _, len, ret, tfs, hwrite, ?_⟩
      rw [heof]
      rfl

/-- It leaves at EAGAIN, behind a write, or at any other error. -/
theorem publishStep_leave {ended : Bool}
    (h : publishStep boxHandle (s, request) = ok (.inr (ended, s'))) :
    ended = true ∧ s.session.read.1.errno = some eAgain ∧ (∃ buffer len ret tfs,
      strlen (s.session.read.1.fill request).memory atErrorMessage = ok len ∧
      tfsWrite s.tfs boxHandle buffer len = ok (ret, tfs) ∧
      s' = { s with session := s.session.read.2, tfs }) ∨
    ended = false ∧ s.session.read.1.errno ≠ none ∧ s.session.read.1.errno ≠ some eAgain ∧
      s' = { s with session := s.session.read.2 }.stop := by
  simp only [publishStep] at h
  split at h
  · next herrno =>
    cases h
    exact Or.inr ⟨rfl, herrno.1, herrno.2, rfl⟩
  · obtain ⟨len, hlen, h⟩ := (bind_eq_ok _ _ _).mp h
    obtain ⟨⟨ret, tfs⟩, hwrite, h⟩ := (bind_eq_ok _ _ _).mp h
    simp only at h
    split at h
    · next hagain =>
      cases h
      exact Or.inl ⟨rfl, hagain, _, len, ret, tfs, hlen, hwrite, rfl⟩
    · cases h

/-- A pipe whose close shows up as end of file keeps the loop going for ever. -/
theorem publish_loop_eof {fuel : Nat} {r : Bool × Server} (hpending : s.session.pending = [])
    (hclosing : s.session.closing = none) :
    loop (publishStep boxHandle) fuel (s, request) ≠ .done (ok r) := by
  intro h
  -- the invariant: nothing is pending, and the pipe is closed
  have hstep : ∀ st st' : Server × RawRequest,
      st.1.session.pending = [] ∧ st.1.session.closing = none →
      publishStep boxHandle st = ok (.inl st') →
      st'.1.session.pending = [] ∧ st'.1.session.closing = none := by
    rintro ⟨s₁, request₁⟩ st' ⟨hp, hc⟩ hs
    obtain ⟨-, buffer, len, ret, tfs, -, rfl⟩ := publishStep_next hs
    simp only [Session.read_eof hp hc]
    exact ⟨hp, hc⟩
  obtain ⟨⟨s₁, request₁⟩, ⟨hp, hc⟩, hleave⟩ := loop_ends _ hstep ⟨hpending, hclosing⟩ h
  have hread : s₁.session.read.1.errno = none := by
    rw [Session.read_eof hp hc]
    rfl
  rcases publishStep_leave hleave with ⟨-, hagain, -⟩ | ⟨-, hne, -⟩
  · rw [hread] at hagain
    cases hagain
  · exact hne hread

/-- If the loop leaves behind the close, with the server running, then no read before the close
brought anything, and the close showed up as EAGAIN. -/
theorem publish_loop {fuel : Nat} {ended : Bool} (hopen : s.session.closeRead = false)
    (h : loop (publishStep boxHandle) fuel (s, request) = .done (ok (ended, s')))
    (hclose : s'.session.closeRead = true) (hrunning : s'.serverRunning = true) :
    (∀ o ∈ s.session.pending, o = .eof) ∧ s.session.closing = some eAgain := by
  generalize hpending : s.session.pending = pending
  induction pending generalizing s request fuel with
  | nil =>
    refine ⟨nofun, ?_⟩
    cases hclosing : s.session.closing with
    | none => exact absurd h (publish_loop_eof hpending hclosing)
    | some errno =>
      have hread := Session.read_failed hpending hclosing
      rcases loop_first h with ⟨k, -, ⟨st, hs, -⟩ | hs⟩
      · have heof := (publishStep_next hs).1
        rw [hread] at heof
        cases heof
      · rcases publishStep_leave hs with ⟨-, hagain, -⟩ | ⟨-, -, -, rfl⟩
        · rw [hread] at hagain
          exact hagain
        · cases hrunning
  | cons o pending ih =>
    have hread := Session.read_pending hpending
    rcases loop_first h with ⟨k, -, ⟨st, hs, h⟩ | hs⟩
    · obtain ⟨heof, buffer, len, ret, tfs, -, rfl⟩ := publishStep_next hs
      rw [hread] at heof h
      obtain ⟨hall, hclosing⟩ := ih (by exact hopen) h rfl
      exact ⟨List.forall_mem_cons.mpr ⟨heof, hall⟩, hclosing⟩
    · -- leaving here is leaving before the close
      have hsession : s'.session = s.session.read.2 := by
        rcases publishStep_leave hs with ⟨-, -, buffer, len, ret, tfs, -, -, rfl⟩ | ⟨-, -, -, rfl⟩
        · rfl
        · rfl
      rw [hsession, hread] at hclose
      exact absurd (hopen.symm.trans hclose) Bool.false_ne_true

theorem strlen_zero : strlen RawRequest.zero.memory atErrorMessage = ok 0 := by
  have hempty : HasString RawRequest.zero.memory atErrorMessage ⟨[], by simp⟩ :=
    ⟨by decide, by decide, by decide⟩
  exact hempty.strlen

/-- Rounds that read nothing write no byte. -/
theorem publishStep_eof {session : Session}
    (hwrite : ∀ buffer, tfsWrite s.tfs boxHandle buffer 0 = ok (0, s.tfs))
    (hread : s.session.read = (.eof, session)) :
    publishStep boxHandle (s, RawRequest.zero) =
      ok (.inl ({ s with session }, RawRequest.zero)) := by
  simp [publishStep, hread, ReadOutcome.errno, ReadOutcome.fill, strlen_zero, hwrite]

theorem publishStep_eAgain {session : Session}
    (hwrite : ∀ buffer, tfsWrite s.tfs boxHandle buffer 0 = ok (0, s.tfs))
    (hread : s.session.read = (.failed eAgain, session)) :
    publishStep boxHandle (s, RawRequest.zero) = ok (.inr (true, { s with session })) := by
  simp [publishStep, hread, ReadOutcome.errno, ReadOutcome.fill, strlen_zero, hwrite]

/-- No message, and a close that shows up as EAGAIN: the loop ends there. -/
theorem publish_loop_quiet {fuel : Nat}
    (hwrite : ∀ buffer, tfsWrite s.tfs boxHandle buffer 0 = ok (0, s.tfs))
    (hquiet : ∀ o ∈ s.session.pending, o = .eof) (hclosing : s.session.closing = some eAgain)
    (hfuel : s.session.pending.length < fuel) :
    loop (publishStep boxHandle) fuel (s, RawRequest.zero) = .done (ok (true,
      { s with session := { s.session with pending := [], closeRead := true } })) := by
  generalize hpending : s.session.pending = pending
  induction pending generalizing s fuel with
  | nil =>
    obtain ⟨fuel, rfl⟩ : ∃ k, fuel = k + 1 := ⟨fuel - 1, by omega⟩
    rw [loop_leave (publishStep_eAgain hwrite (Session.read_failed hpending hclosing)), hpending]
  | cons o pending ih =>
    rw [hpending] at hquiet hfuel
    obtain ⟨fuel, rfl⟩ : ∃ k, fuel = k + 1 := ⟨fuel - 1, by omega⟩
    have heof : o = .eof := hquiet o List.mem_cons_self
    rw [heof] at hpending
    rw [loop_next (publishStep_eof hwrite (Session.read_pending hpending))]
    refine (ih (s := { s with session := { s.session with pending } }) hwrite
      (fun o' ho' => hquiet o' (List.mem_cons_of_mem _ ho')) hclosing ?_ rfl).trans rfl
    simpa using hfuel

end

/-! ## The session -/

/-- The texts of the messages among the results of `read`. -/
def texts (os : List ReadOutcome) : List UInt8 :=
  os.flatMap fun o => match o with
    | .complete r _ => cstr r.memory atErrorMessage maxMessage
    | _ => []

/-- A request to publish in the box `name`, whose node at `p` counts no publisher. -/
structure PublishRequest (s : Server) (request : Region UInt8) (boxName p : Nat) (name : CStr)
    (boxes : List (Nat × BoxNode)) : Prop where
  fs : BrokerFs s.tfs
  running : s.serverRunning = true
  list : Boxes s boxes
  box : ∃ node, (p, node) ∈ boxes ∧ node.boxName.str = name ∧ node.nPublishers = 0
  file : HasFile s.tfs name
  named : HasString request boxName name
  opened : s.session.fifo ≠ -1
  fresh : s.session.closeRead = false

/-- From `s` to `s'` the session stored the texts of its messages and ended behind the close. -/
structure StoresMessages (s s' : Server) (p : Nat) (name : CStr) : Prop where
  running : s'.serverRunning = true
  closed : s'.session.closeRead = true
  content : boxContent s'.tfs name =
    (boxContent s.tfs name ++ texts s.session.pending).take s.tfs.blockSize
  others : ∀ other, other ≠ name → boxContent s'.tfs other = boxContent s.tfs other
  publishers : ∃ node, s'.nodes p = some node ∧ node.nPublishers = 0
  handles : ∀ fhandle h, Handle s'.tfs fhandle h ↔ Handle s.tfs fhandle h

/-- No read brings a message, the close shows up as EAGAIN, and the first box with another name
than `name` has a file, a free handle and not one publisher. -/
structure Silent (s : Server) (name : CStr) (boxes : List (Nat × BoxNode)) : Prop where
  pending : ∀ o ∈ s.session.pending, o = .eof
  closing : s.session.closing = some eAgain
  other : ∃ e, otherBox name boxes = some e ∧ e.2.nPublishers ≠ 1 ∧
    HasFile s.tfs e.2.boxName.str
  handle : ∃ k, k < s.tfs.maxOpenFiles ∧ s.tfs.freeOpenFileEntries.cell k = .free

section
variable {s s' : Server} {request : Region UInt8} {boxName p : Nat} {name : CStr}
  {boxes : List (Nat × BoxNode)} {fuel : Nat}

theorem PublishRequest.head (h : PublishRequest s request boxName p name boxes) :
    ∃ first, s.head = some first ∧ BoxList s.nodes first boxes := by
  obtain ⟨node, hnode, -⟩ := h.box
  have hlist := h.list
  unfold Boxes at hlist
  split at hlist
  · rw [hlist] at hnode
    cases hnode
  · next first hhead => exact ⟨first, hhead, hlist⟩

/-- A handler that has got to its box: the pipe is open, and `find_box` has found `node` at `q`. -/
structure FindsBox (fuel : Nat) (s : Server) (request : Region UInt8) (boxName q : Nat)
    (node : BoxNode) : Prop where
  opened : s.session.fifo ≠ -1
  found : findBox fuel s.nodes s.head request boxName = .done (ok (some q))
  node : s.nodes q = some node

/-- Both handlers go on from the node of the box that `find_box` returns. -/
theorem findsBox_of_bind {α : Type} {f : Option Nat → BoxNode → Bounded α} {a : α}
    (hopened : s.session.fifo ≠ -1)
    (h : (findBox fuel s.nodes s.head request boxName >>= fun sessionBox =>
      liftM (s.nodes.load sessionBox) >>= f sessionBox) = .done (ok a)) :
    ∃ q node, FindsBox fuel s request boxName q node := by
  obtain ⟨sessionBox, hfound, h⟩ := Bounded.bind_eq_ok.mp h
  obtain ⟨node, hload, -⟩ := Bounded.bind_eq_ok.mp h
  rw [Bounded.lift_eq, Bounded.done.injEq] at hload
  cases sessionBox with
  | none => cases hload
  | some q => exact ⟨q, node, hopened, hfound, Heap.load_eq_ok hload⟩

/-- The server in front of the publisher's loop. -/
def publishing (s : Server) (q : Nat) (node : BoxNode) (tfs : Tfs) : Server :=
  { s.openSession with
    nodes := Function.update s.nodes q (some { node with nPublishers := 1 })
    tfs := tfs }

/-- The ways in which `codeR_PUB` returns. -/
inductive PublisherEnds (fuel : Nat) (s : Server) (request : Region UInt8) (boxName : Nat) :
    Server → Prop
  | noPipe (h : s.session.fifo = -1) : PublisherEnds fuel s request boxName s.stop
  | taken {q : Nat} {node : BoxNode} (hq : FindsBox fuel s request boxName q node)
      (h : node.nPublishers = 1) :
      PublisherEnds fuel s request boxName s.openSession.closeSession
  | refused {q : Nat} {node : BoxNode} {tfs : Tfs} (hq : FindsBox fuel s request boxName q node)
      (h : node.nPublishers ≠ 1)
      (hopen : tfsOpen s.tfs (some node.boxName.str) tfsOAppend = ok (-1, tfs)) :
      PublisherEnds fuel s request boxName
        { s.openSession.closeSession with
          nodes := Function.update s.nodes q (some { node with nPublishers := 0 })
          tfs := tfs }
  | failed {q : Nat} {node : BoxNode} {tfs : Tfs} {boxHandle : Int} {s₂ : Server}
      (hq : FindsBox fuel s request boxName q node) (h : node.nPublishers ≠ 1)
      (hopen : tfsOpen s.tfs (some node.boxName.str) tfsOAppend = ok (boxHandle, tfs))
      (hne : boxHandle ≠ -1)
      (hloop : loop (publishStep boxHandle) fuel (publishing s q node tfs, RawRequest.zero) =
        .done (ok (false, s₂))) :
      PublisherEnds fuel s request boxName s₂
  | ended {q : Nat} {node node₂ : BoxNode} {tfs tfs₂ : Tfs} {boxHandle ret : Int} {s₂ : Server}
      (hq : FindsBox fuel s request boxName q node) (h : node.nPublishers ≠ 1)
      (hopen : tfsOpen s.tfs (some node.boxName.str) tfsOAppend = ok (boxHandle, tfs))
      (hne : boxHandle ≠ -1)
      (hloop : loop (publishStep boxHandle) fuel (publishing s q node tfs, RawRequest.zero) =
        .done (ok (true, s₂)))
      (hclose : tfsClose s₂.tfs boxHandle = ok (ret, tfs₂)) (hnode : s₂.nodes q = some node₂) :
      PublisherEnds fuel s request boxName
        { s₂.closeSession with
          nodes := Function.update s₂.nodes q (some { node₂ with nPublishers := 0 })
          tfs := tfs₂ }

/-- `codeR_PUB` from the box on. -/
theorem codeRPub_found {q : Nat} {node : BoxNode} (hq : FindsBox fuel s request boxName q node) :
    codeRPub fuel s request boxName =
      (if node.nPublishers = 1 then return s.openSession.closeSession
       else do
        let (boxHandle, tfs) ← tfsOpen s.tfs (some node.boxName.str) tfsOAppend
        if boxHandle = -1 then
          return { s.openSession.closeSession with
            nodes := Function.update s.nodes q (some { node with nPublishers := 0 })
            tfs := tfs }
        else
          let (ended, s₂) ← loop (publishStep boxHandle) fuel
            (publishing s q node tfs, RawRequest.zero)
          if !ended then return s₂
          else
            let (_, tfs) ← tfsClose s₂.tfs boxHandle
            let s₃ ← { s₂ with tfs }.setPublishers (some q) 0
            return s₃.closeSession) := by
  unfold codeRPub
  rw [if_neg hq.opened]
  simp only [Server.openSession_nodes, Server.openSession_head, hq.found, Bounded.ok_bind,
    Bounded.lift_eq, Heap.load_ok hq.node]
  split
  · rfl
  · rw [Server.setPublishers_ok (s := s.openSession) hq.node]
    simp only [Bounded.ok_bind, Server.openSession_nodes, Server.openSession_tfs]
    have hset : ∀ tfs : Tfs, ({ s.openSession with
        nodes := Function.update s.nodes q (some { node with nPublishers := 1 })
        tfs := tfs } : Server).closeSession.setPublishers (some q) 0 =
        ok { s.openSession.closeSession with
          nodes := Function.update s.nodes q (some { node with nPublishers := 0 })
          tfs := tfs } := by
      intro tfs
      have hnode : Function.update s.nodes q (some { node with nPublishers := 1 }) q =
          some { node with nPublishers := 1 } := Function.update_self _ _ _
      rw [Server.setPublishers_ok hnode]
      simp only [Server.closeSession, Function.update_idem]
    simp only [hset]
    rfl

/-- A handler that returns has not got to a pipe, or to its box. -/
theorem codeRPub_box (h : codeRPub fuel s request boxName = .done (ok s')) :
    s.session.fifo = -1 ∧ s' = s.stop ∨ ∃ q node, FindsBox fuel s request boxName q node := by
  unfold codeRPub at h
  split at h
  · next hfifo =>
    cases h
    exact Or.inl ⟨hfifo, rfl⟩
  · next hopened => exact Or.inr (findsBox_of_bind hopened h)

theorem codeRPub_ends (h : codeRPub fuel s request boxName = .done (ok s')) :
    PublisherEnds fuel s request boxName s' := by
  rcases codeRPub_box h with ⟨hfifo, rfl⟩ | ⟨q, node, hq⟩
  · exact .noPipe hfifo
  rw [codeRPub_found hq] at h
  split at h
  · next hpublishers =>
    cases h
    exact .taken hq hpublishers
  next hpublishers =>
  obtain ⟨⟨boxHandle, tfs⟩, hopen, h⟩ := Bounded.bind_eq_ok.mp h
  rw [Bounded.lift_eq, Bounded.done.injEq] at hopen
  simp only at h
  split at h
  · next hhandle =>
    cases h
    rw [hhandle] at hopen
    exact .refused hq hpublishers hopen
  next hhandle =>
  obtain ⟨⟨ended, s₂⟩, hloop, h⟩ := Bounded.bind_eq_ok.mp h
  cases ended with
  | false =>
    cases h
    exact .failed hq hpublishers hopen hhandle hloop
  | true =>
    obtain ⟨⟨ret, tfs₂⟩, hclose, h⟩ := Bounded.bind_eq_ok.mp h
    obtain ⟨s₃, hset, h⟩ := Bounded.bind_eq_ok.mp h
    rw [Bounded.lift_eq, Bounded.done.injEq] at hclose hset
    obtain ⟨node₂, hnode₂, -⟩ := (bind_eq_ok _ _ _).mp hset
    have hnode₂ : s₂.nodes q = some node₂ := Heap.load_eq_ok hnode₂
    rw [Server.setPublishers_ok (s := { s₂ with tfs := tfs₂ }) hnode₂] at hset
    cases hset
    cases h
    have hends := PublisherEnds.ended hq hpublishers hopen hhandle hloop hclose hnode₂
    exact hends

theorem PublisherEnds.returns (h : PublisherEnds fuel s request boxName s') :
    codeRPub fuel s request boxName = .done (ok s') := by
  cases h with
  | noPipe hfifo =>
    unfold codeRPub
    rw [if_pos hfifo]
    rfl
  | taken hq hpublishers =>
    rw [codeRPub_found hq, if_pos hpublishers]
    rfl
  | refused hq hpublishers hopen =>
    rw [codeRPub_found hq, if_neg hpublishers]
    simp only [Bounded.lift_eq, Bounded.ok_bind, hopen, if_true]
    rfl
  | failed hq hpublishers hopen hhandle hloop =>
    rw [codeRPub_found hq, if_neg hpublishers]
    simp only [Bounded.lift_eq, Bounded.ok_bind, hopen, if_neg hhandle, hloop]
    rfl
  | ended hq hpublishers hopen hhandle hloop hclose hnode =>
    rw [codeRPub_found hq, if_neg hpublishers]
    simp only [Bounded.lift_eq, Bounded.ok_bind, hopen, if_neg hhandle, hloop, hclose,
      Bool.not_true, Bool.false_eq_true, if_false]
    rw [Server.setPublishers_ok (by exact hnode)]
    rfl

/-- A session that reads: the box that `find_box` returned is open, and the loop ends. -/
theorem codeRPub_session (h : codeRPub fuel s request boxName = .done (ok s')) :
    s'.session.closeRead = s.session.closeRead ∨
    ∃ q node boxHandle tfs ended s₂, FindsBox fuel s request boxName q node ∧
      node.nPublishers ≠ 1 ∧
      tfsOpen s.tfs (some node.boxName.str) tfsOAppend = ok (boxHandle, tfs) ∧ boxHandle ≠ -1 ∧
      loop (publishStep boxHandle) fuel (publishing s q node tfs, RawRequest.zero) =
        .done (ok (ended, s₂)) ∧
      s'.serverRunning = s₂.serverRunning ∧ s'.session.closeRead = s₂.session.closeRead := by
  cases codeRPub_ends h with
  | noPipe hfifo => exact Or.inl rfl
  | taken hq hpublishers => exact Or.inl rfl
  | refused hq hpublishers hopen => exact Or.inl rfl
  | failed hq hpublishers hopen hhandle hloop =>
    exact Or.inr ⟨_, _, _, _, _, _, hq, hpublishers, hopen, hhandle, hloop, rfl, rfl⟩
  | ended hq hpublishers hopen hhandle hloop hclose hnode =>
    exact Or.inr ⟨_, _, _, _, _, _, hq, hpublishers, hopen, hhandle, hloop, rfl, rfl⟩

/-- A session that ends behind the close, with the server running, brought no message. -/
theorem silent_of_closed (hr : PublishRequest s request boxName p name boxes)
    (h : codeRPub fuel s request boxName = .done (ok s')) (hrunning : s'.serverRunning = true)
    (hclosed : s'.session.closeRead = true) : Silent s name boxes := by
  have hfresh := hr.fresh
  rcases codeRPub_session h with hsame | ⟨q, node, boxHandle, tfs, ended, s₂, hq, hpublishers, hopen,
    hhandle, hloop, hrunning₂, hclosed₂⟩
  · rw [hsame, hfresh] at hclosed
    cases hclosed
  · obtain ⟨first, hhead, hlist⟩ := hr.head
    have hends := (findBox_ends hr.named hlist fuel).2 _ (hhead ▸ hq.found)
    rw [ok.injEq] at hends
    obtain ⟨e, hother, rfl⟩ := Option.map_eq_some_iff.mp hends.symm
    have he : s.nodes e.1 = some e.2 := chain_mem hlist (otherBox_some hother).1
    have hnode : node = e.2 := Option.some.inj (hq.node.symm.trans he)
    rw [hrunning₂] at hrunning
    rw [hclosed₂] at hclosed
    obtain ⟨hquiet, hclosing⟩ := publish_loop (s := publishing s e.1 node tfs) hfresh hloop hclosed
      hrunning
    rcases tfsOpen_append hr.fs.inv hopen with ⟨rfl, -⟩ | ⟨j, i, k, hv, hn, hk, -, -⟩
    · exact absurd rfl hhandle
    · rw [hnode] at hpublishers hv hn
      have hfile : HasFile s.tfs e.2.boxName.str :=
        ⟨hv, by rw [dirMap_named hr.fs.inv hn]; exact nofun⟩
      exact ⟨hquiet, hclosing, ⟨e, hother, hpublishers, hfile⟩, k, hk.1, hk.2.1⟩

/-- The server behind a session without messages, through handle `k` of inode `i`. -/
def silentSession (s : Server) (q : Nat) (node : BoxNode) (k i : Nat) : Server :=
  { s with
    nodes := Function.update s.nodes q (some { node with nPublishers := 0 })
    tfs := { s.tfs with
      openFileTable := s.tfs.openFileTable.set k ⟨i, (s.tfs.inodeTable.cell i).iSize⟩ }
    session := { s.session with isOpen := false, pending := [], closeRead := true } }

theorem codeRPub_silent (hr : PublishRequest s request boxName p name boxes)
    (hs : Silent s name boxes) : ∃ fuel q node k i, (q, node) ∈ boxes ∧ node.boxName.str ≠ name ∧
      s.tfs.freeOpenFileEntries.cell k = .free ∧
      codeRPub fuel s request boxName = .done (ok (silentSession s q node k i)) := by
  have hI := hr.fs.inv
  obtain ⟨first, hhead, hlist⟩ := hr.head
  obtain ⟨⟨q, node⟩, hother, hpublishers, hfile⟩ := hs.other
  obtain ⟨j, i, k, hn, hk, hopen⟩ := tfsOpen_box hI hfile hs.handle
  obtain ⟨hmem, hne⟩ := otherBox_some hother
  refine ⟨boxes.length + s.session.pending.length + 1, q, node, k, i, hmem, hne, hk.2.1, ?_⟩
  have hq : s.nodes q = some node := chain_mem hlist hmem
  have hfind : findBox (boxes.length + s.session.pending.length + 1) s.nodes s.head request
      boxName = .done (ok (some q)) := by
    rw [hhead, (findBox_ends hr.named hlist _).1 (by omega), hother]
    rfl
  obtain ⟨hI₂, hh, -, -⟩ := opened_atEnd hI hn hk
  have hwrite := opened_tfsWrite_zero hI hn hk
  have hclose := (tfsClose_ok hI₂ (.close k hh.1)).1
  have hfreed : handleFreed (handleAdded s.tfs k i (s.tfs.inodeTable.cell i).iSize) k =
      { s.tfs with
        openFileTable := s.tfs.openFileTable.set k ⟨i, (s.tfs.inodeTable.cell i).iSize⟩ } := by
    unfold handleFreed handleAdded
    rw [Region.set_set_self _ _ _ _ hk.2.1]
  have hq₁ : Function.update s.nodes q (some { node with nPublishers := 1 }) q =
      some { node with nPublishers := 1 } := Function.update_self _ _ _
  let opened := publishing s q node (handleAdded s.tfs k i (s.tfs.inodeTable.cell i).iSize)
  have hloop : loop (publishStep (k : Int)) (boxes.length + s.session.pending.length + 1)
      (opened, RawRequest.zero) = .done (ok (true, { opened with
        session := { opened.session with pending := [], closeRead := true } })) :=
    publish_loop_quiet hwrite hs.pending hs.closing
      (show s.session.pending.length < boxes.length + s.session.pending.length + 1 by omega)
  have hends := PublisherEnds.ended (s := s) ⟨hr.opened, hfind, hq⟩ hpublishers hopen (by omega)
    hloop hclose hq₁
  refine hends.returns.trans ?_
  simp only [opened, publishing, hfreed, Function.update_idem]
  rfl

theorem texts_eof {os : List ReadOutcome} (h : ∀ o ∈ os, o = .eof) : texts os = [] := by
  unfold texts
  rw [List.flatMap_eq_nil_iff]
  intro o ho
  rw [h o ho]

theorem silentSession_stores (hr : PublishRequest s request boxName p name boxes)
    (hs : Silent s name boxes) {q k i : Nat} {node : BoxNode} (hq : (q, node) ∈ boxes)
    (hne : node.boxName.str ≠ name) : StoresMessages s (silentSession s q node k i) p name where
  running := hr.running
  closed := rfl
  content := by
    have hlen : (boxContent s.tfs name).length ≤ s.tfs.blockSize := boxContent_length hr.fs.inv
    rw [texts_eof hs.pending, List.append_nil, List.take_of_length_le hlen]
    exact boxContent_handles _
  others := fun _ _ => boxContent_handles _
  publishers := by
    obtain ⟨first, -, hlist⟩ := hr.head
    obtain ⟨box, hbox, hname, hzero⟩ := hr.box
    have hp : s.nodes p = some box := chain_mem hlist hbox
    have hpq : p ≠ q := by
      rintro rfl
      have hq' : s.nodes p = some node := chain_mem hlist hq
      have hsame : box = node := Option.some.inj (hp.symm.trans hq')
      rw [← hsame] at hne
      exact hne hname
    exact ⟨box, (Function.update_of_ne hpq _ _).trans hp, hzero⟩
  handles := fun _ _ => Iff.rfl

/-- A publisher's session stores its messages and ends behind the close exactly if it has no
message, the close shows up as EAGAIN, and the first *other* box can be opened for a publisher. -/
theorem publisher_iff (hr : PublishRequest s request boxName p name boxes) :
    (∃ fuel s', codeRPub fuel s request boxName = .done (ok s') ∧ StoresMessages s s' p name) ↔
      Silent s name boxes := by
  constructor
  · rintro ⟨fuel, s', hends, hstores⟩
    exact silent_of_closed hr hends hstores.running hstores.closed
  · intro hs
    obtain ⟨fuel, q, node, k, i, hq, hne, -, hends⟩ := codeRPub_silent hr hs
    exact ⟨fuel, _, hends, silentSession_stores hr hs hq hne⟩

end

/-- Two boxes without publisher or subscriber, `/a` in front. -/
def twoBoxes : List (Nat × BoxNode) :=
  [(4096, ⟨boxA, 0, 1024, 0, 0, some 4224⟩),
    (4224, ⟨boxB, 0, 1024, 0, 0, none⟩)]

/-- A session that reads `pending` in a broker with these boxes. -/
def twoBoxServer (pending : List ReadOutcome) (closing : Option Int) : Server where
  serverRunning := true
  nodes p := (twoBoxes.find? fun e => e.1 = p).map Prod.snd
  head := some (some 4096)
  tfs := twoBoxDisk
  session := { Session.idle with fifo := 5, pending, closing }

/-- The name `/a` in the memory of a request. -/
def requestA : Region UInt8 :=
  { isNull := false, lo := 0, hi := sizeofRequest
    cell := fun x => if x = 258 then 47 else if x = 259 then 97 else 0 }

theorem requestA_publish (pending : List ReadOutcome) (closing : Option Int) :
    PublishRequest (twoBoxServer pending closing) requestA atBoxName 4096 pathA twoBoxes where
  fs := twoBoxDisk_fs
  running := rfl
  list := ⟨rfl, rfl, rfl, rfl, rfl⟩
  box := ⟨_, List.mem_cons_self, rfl, rfl⟩
  file := twoBoxDisk_a
  named := ⟨by decide, by decide, by decide⟩
  opened := by
    show (5 : Int) ≠ -1
    decide
  fresh := rfl

theorem publisher_iff_silent :
    ∃ fuel s', codeRPub fuel (twoBoxServer [.eof] (some eAgain)) requestA atBoxName =
      .done (ok s') ∧ StoresMessages (twoBoxServer [.eof] (some eAgain)) s' 4096 pathA := by
  refine (publisher_iff (requestA_publish [.eof] (some eAgain))).mpr ?_
  exact
    { pending := by simp [twoBoxServer]
      closing := rfl
      other := ⟨_, rfl, by decide, twoBoxDisk_b⟩
      handle := ⟨0, by decide +kernel, by decide +kernel⟩ }

/-- The message `"hi"`. -/
def hiMessage : RawRequest := fun i =>
  if i.val = 0 then 9 else if i.val = 296 then 104 else if i.val = 297 then 105 else 0

/-- A message, and then the end of file of a closed pipe. -/
theorem not_publisher_hi :
    ¬ ∀ (s : Server) (request : Region UInt8) (boxName p : Nat) (name : CStr)
      (boxes : List (Nat × BoxNode)), PublishRequest s request boxName p name boxes →
      (∀ o ∈ s.session.pending, o = .eof ∨ o = .failed eAgain ∨ ∃ r errno, o = .complete r errno ∧
        (cstr r.memory atErrorMessage maxMessage).length < maxMessage) →
      (s.session.closing = none ∨ s.session.closing = some eAgain) →
      ∃ fuel s', codeRPub fuel s request boxName = .done (ok s') ∧ StoresMessages s s' p name := by
  intro hall
  have hr := requestA_publish [.complete hiMessage 0] none
  obtain ⟨fuel, s', hends, hstores⟩ := hall _ _ _ _ _ _ hr
    (fun o ho => Or.inr (Or.inr ⟨hiMessage, 0, by simpa [twoBoxServer] using ho, by decide +kernel⟩))
    (Or.inl rfl)
  have hclosing := (silent_of_closed hr hends hstores.running hstores.closed).closing
  cases hclosing

end Mbroker
