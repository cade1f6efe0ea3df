import Mbroker.Broker.Survival
import Mbroker.Pcq.Queue

/-!
# `main` of the broker

`main` of `mbroker/mbroker.c` from its first line to its return: what comes in front of
the loop (`Startup.run`), the loop of `Broker.Dispatch` with the broker's own handlers,
each call in a session of its own, and what comes behind it (`Broker.finish`).  A SIGINT
comes in with `Broker.System`.

    serve_iff : `main` returns from its loop exactly if it reads once, and that read finds
      `EINTR`, a code that no request has, or the name of a pipe that cannot be opened; from
      every other read it calls `selector` and does not come back
-/

namespace Mbroker

open CLib Outcome

/-! ## In front of the loop -/

/-- `size_t capacity = 100;` -/
def queueCapacity : Nat := 100

/-- What the calls of `main` come to. -/
structure Startup where
  argc : Nat
  signalError : Bool
  /-- The allocations of `tfs_init(NULL)`. -/
  mallocs : Mallocs
  /-- Whether there is memory for the `pc_queue_t`. -/
  queue : Bool
  buffer : Option (Block (sizeMul queueCapacity sizeofVoid))
  mkfifo : Int
  errno : Int
  /-- What `open(server_pipe, O_RDONLY)` returns. -/
  serverFifo : Int

structure Broker where
  tfsHandle : Int
  queue : PcQueue
  server : Server

/-- `main` up to its loop: a return, or the broker in front of it. -/
def Startup.run (w : Startup) : Outcome (Int ⊕ Broker) := do
  if w.argc ≠ 3 then return .inl 1
  else if w.signalError then return .inl 1
  else
    let (tfsHandle, tfs) ← tfsInit .zero w.mallocs none
    -- `pcq_create(NULL, capacity)`
    if !w.queue then fault
    else
      let (_, queue) := pcqCreate queueCapacity w.buffer
      if w.mkfifo = -1 ∧ w.errno = eExist then return .inl 1
      else if w.serverFifo = -1 then return .inl 1
      else return .inr ⟨tfsHandle, queue, Server.start tfs⟩

/-! ## The loop -/

/-- The server between two requests, with the sessions to come. -/
structure Serving where
  server : Server
  sessions : Nat → Session

namespace Serving

/-- The server in its next session. -/
def enter (s : Serving) : Server := { s.server with session := s.sessions 0 }

/-- A call of a handler. -/
def visit (s : Serving) (handler : Server → Bounded Server) : Bounded Serving := do
  let server ← handler s.enter
  return ⟨server, fun k => s.sessions (k + 1)⟩

end Serving

def sessionHandlers (fuel : Nat) : Handlers Serving where
  serverRunning s := s.server.serverRunning
  stop s := { s with server := s.server.stop }
  codeRPub s request boxName := s.visit fun server => Mbroker.codeRPub fuel server request boxName
  codeRSub s request boxName := s.visit fun server => Mbroker.codeRSub fuel server request boxName
  codeCBox s request boxName := s.visit fun server => Mbroker.codeCBox fuel server request boxName
  codeRBox s request boxName := s.visit fun server => Mbroker.codeRBox fuel server request boxName
  codeLBox s := s.visit fun server => Mbroker.codeLBox fuel server

namespace Broker

/-- `main` behind its loop; `none` if it has not come out of it. -/
def finish (b : Broker) (m : Main Serving) : Outcome (Option (Int × Server)) := do
  let server := m.server.server
  match m.phase with
  | .stopped =>
    let (_, tfs) ← tfsClose server.tfs b.tfsHandle
    return some (-1, { server with tfs })
  | .readError =>
    let (_, tfs) ← tfsClose server.tfs b.tfsHandle
    return some (1, { server with tfs })
  | .reading => return none
  | .calling => return none

/-- `main` from its loop on, where the reads of the loop return `os`. -/
def serve (fuel : Nat) (b : Broker) (sessions : Nat → Session) (os : List ReadOutcome) :
    Outcome (Option (Int × Server)) :=
  match (Main.start ⟨b.server, sessions⟩).run (sessionHandlers fuel) os with
  | some m => b.finish m
  | none => ok none

end Broker

/-! ## The first request -/

/-- The codes of requests. -/
def requestCodes : List UInt8 := [Codes.rPub, .rSub, .cBox, .rBox, .lBox].map Codes.val

section
variable {fuel : Nat} {s s' : Server} {request : Region UInt8} {boxName : Nat}

theorem codeRPub_iff (hhead : s.head = none) : codeRPub fuel s request boxName = .done (ok s') ↔
    s.session.fifo = -1 ∧ s' = s.stop := by
  rw [codeRPub_null hhead]
  split
  · next hfifo => simp [hfifo, eq_comm]
  · next hfifo => simp [hfifo]

theorem codeRSub_iff (hhead : s.head = none) : codeRSub fuel s request boxName = .done (ok s') ↔
    s.session.fifo = -1 ∧ s' = s.stop := by
  rw [codeRSub_null hhead]
  split
  · next hfifo => simp [hfifo, eq_comm]
  · next hfifo => simp [hfifo]

theorem codeCBox_iff : codeCBox fuel s request boxName = .done (ok s') ↔
    s.session.fifo = -1 ∧ s' = s.stop := by
  constructor
  · exact codeCBox_ok
  · rintro ⟨hfifo, rfl⟩
    unfold codeCBox
    rw [if_pos hfifo]
    rfl

theorem codeRBox_iff : codeRBox fuel s request boxName = .done (ok s') ↔
    s.session.fifo = -1 ∧ s' = s.stop := by
  constructor
  · exact codeRBox_ok
  · rintro ⟨hfifo, rfl⟩
    unfold codeRBox
    rw [if_pos hfifo]
    rfl

theorem codeLBox_iff (hhead : s.head = none) : codeLBox fuel s = .done (ok s') ↔
    s.session.fifo = -1 ∧ s' = s.stop := by
  constructor
  · intro h
    rcases codeLBox_ok h with hstop | ⟨-, hsome, -⟩
    · exact hstop
    · rw [hhead] at hsome
      cases hsome
  · rintro ⟨hfifo, rfl⟩
    unfold codeLBox
    rw [if_pos hfifo]
    rfl

end

/-- The server that a session leaves whose pipe cannot be opened. -/
def Serving.refused (s : Serving) : Serving := ⟨s.enter.stop, fun k => s.sessions (k + 1)⟩

theorem visit_iff {s s' : Serving} {handler : Server → Bounded Server}
    (h : ∀ server, handler s.enter = .done (ok server) ↔
      s.enter.session.fifo = -1 ∧ server = s.enter.stop) :
    s.visit handler = .done (ok s') ↔ (s.sessions 0).fifo = -1 ∧ s' = s.refused := by
  have hfifo : s.enter.session.fifo = (s.sessions 0).fifo := rfl
  unfold Serving.visit
  rw [Bounded.bind_eq_ok]
  constructor
  · rintro ⟨server, hserver, hs'⟩
    obtain ⟨hopen, rfl⟩ := (h server).mp hserver
    cases hs'
    exact ⟨hopen, rfl⟩
  · rintro ⟨hopen, rfl⟩
    exact ⟨_, (h _).mpr ⟨hopen, rfl⟩, rfl⟩

/-- From `head == NULL` a call of `selector` comes back with the server stopped, or not at all. -/
theorem selector_iff {fuel : Nat} {s s' : Serving} {code : UInt8} {request : Region UInt8}
    (hhead : s.server.head = none) :
    selector (sessionHandlers fuel) s code request = .done (ok s') ↔
      code ∈ requestCodes ∧ (s.sessions 0).fifo = -1 ∧ s' = s.refused ∨
      code ∉ requestCodes ∧ s' = { s with server := s.server.stop } := by
  have hmem : code ∈ requestCodes ↔ code = Codes.rPub.val ∨ code = Codes.rSub.val ∨
      code = Codes.cBox.val ∨ code = Codes.rBox.val ∨ code = Codes.lBox.val := by
    simp [requestCodes]
  have henter : s.enter.head = none := hhead
  have hin : ∀ handler : Server → Bounded Server, code ∈ requestCodes →
      (∀ server, handler s.enter = .done (ok server) ↔
        s.enter.session.fifo = -1 ∧ server = s.enter.stop) →
      (s.visit handler = .done (ok s') ↔
        code ∈ requestCodes ∧ (s.sessions 0).fifo = -1 ∧ s' = s.refused ∨
        code ∉ requestCodes ∧ s' = { s with server := s.server.stop }) := by
    intro handler hc hhandler
    rw [visit_iff hhandler]
    simp [hc]
  unfold selector
  by_cases h₁ : code = Codes.rPub.val
  · rw [if_pos h₁]
    exact hin (codeRPub fuel · request atBoxName) (hmem.mpr (Or.inl h₁))
      fun server => codeRPub_iff henter
  rw [if_neg h₁]
  by_cases h₂ : code = Codes.rSub.val
  · rw [if_pos h₂]
    exact hin (codeRSub fuel · request atBoxName) (hmem.mpr (Or.inr (Or.inl h₂)))
      fun server => codeRSub_iff henter
  rw [if_neg h₂]
  by_cases h₃ : code = Codes.cBox.val
  · rw [if_pos h₃]
    exact hin (codeCBox fuel · request atBoxName) (hmem.mpr (Or.inr (Or.inr (Or.inl h₃))))
      fun server => codeCBox_iff
  rw [if_neg h₃]
  by_cases h₅ : code = Codes.rBox.val
  · rw [if_pos h₅]
    exact hin (codeRBox fuel · request atBoxName) (hmem.mpr (Or.inr (Or.inr (Or.inr (Or.inl h₅)))))
      fun server => codeRBox_iff
  rw [if_neg h₅]
  by_cases h₇ : code = Codes.lBox.val
  · rw [if_pos h₇]
    exact hin (codeLBox fuel) (hmem.mpr (Or.inr (Or.inr (Or.inr (Or.inr h₇)))))
      fun server => codeLBox_iff henter
  rw [if_neg h₇]
  have hnot : code ∉ requestCodes := by
    rw [hmem]
    simp [h₁, h₂, h₃, h₅, h₇]
  simp [hnot, sessionHandlers, eq_comm]

/-- A call of `selector` that does not come back. -/
theorem selector_stays {fuel : Nat} {s : Serving} {code : UInt8} {request : Region UInt8}
    (hhead : s.server.head = none) (hcode : code ∈ requestCodes) (hfifo : (s.sessions 0).fifo ≠ -1)
    (s' : Serving) : selector (sessionHandlers fuel) s code request ≠ .done (ok s') := by
  intro hs
  rcases (selector_iff hhead).mp hs with ⟨-, hopen, -⟩ | ⟨hnot, -⟩
  · exact hfifo hopen
  · exact hnot hcode

/-! ## The end of the process -/

theorem tfsInit_ret {s s' : Tfs} {m : Mallocs} {params : Option TfsParams} {ret : Int}
    (h : tfsInit s m params = ok (ret, s')) : ret = 0 ∨ ret = -1 := by
  simp only [tfsInit, bind_eq_ok] at h
  obtain ⟨⟨ret₁, s₁⟩, -, h⟩ := h
  simp only at h
  split at h
  · cases h
    exact Or.inr rfl
  · obtain ⟨⟨root, s₂⟩, -, h⟩ := (bind_eq_ok _ _ _).mp h
    simp only at h
    split at h
    · cases h
      exact Or.inr rfl
    · cases h
      exact Or.inl rfl

/-- `tfs_close(tfs_handle)`: what `tfs_init` returns is no handle of an open file. -/
theorem tfsInit_close {m : Mallocs} {tfs : Tfs} {tfsHandle : Int}
    (h : tfsInit .zero m none = ok (tfsHandle, tfs)) :
    tfsClose tfs tfsHandle = ok (-1, tfs) := by
  rcases tfsInit_ret h with rfl | rfl
  · have hini := (tfsInit_initial (p := none) defaultParams_good h).1
    have hbad : ∀ k, ¬ Handle tfs 0 k := by
      intro k hk
      have hfree := hini.handles k hk.2.1
      rw [hk.2.2] at hfree
      cases hfree
    exact (tfsClose_ok hini.inv (.closeBad hbad)).1
  · simp [tfsClose, getOpenFileEntry, Tfs.validFileHandle]

/-- The broker in front of its loop. -/
theorem startup_ready {w : Startup} {b : Broker} (h : w.run = ok (.inr b)) :
    ∃ tfs, tfsInit .zero w.mallocs none = ok (b.tfsHandle, tfs) ∧ b.server = Server.start tfs := by
  unfold Startup.run at h
  split at h
  · cases h
  split at h
  · cases h
  obtain ⟨⟨tfsHandle, tfs⟩, hinit, h⟩ := (bind_eq_ok _ _ _).mp h
  simp only at h
  split at h
  · cases h
  split at h
  · cases h
  split at h
  · cases h
  · cases h
    exact ⟨tfs, hinit, rfl⟩

theorem startup_head {w : Startup} {b : Broker} (h : w.run = ok (.inr b)) :
    b.server.head = none := by
  obtain ⟨tfs, -, hserver⟩ := startup_ready h
  rw [hserver]
  rfl

theorem dispatch_done {σ : Type} {h : Handlers σ} {m : Main σ} {s : σ}
    (hs : selector h m.server m.request.code m.request.memory = .done (ok s)) :
    m.dispatch h =
      { m with
        server := s
        calls := m.calls ++ [m.request]
        phase := if h.serverRunning s then .reading else .stopped } := by
  unfold Main.dispatch
  rw [hs]

theorem dispatch_calling {σ : Type} {h : Handlers σ} {m : Main σ}
    (hs : ∀ s, selector h m.server m.request.code m.request.memory ≠ .done (ok s)) :
    m.dispatch h = { m with calls := m.calls ++ [m.request], phase := .calling } := by
  unfold Main.dispatch
  split
  · next s hdone => exact absurd hdone (hs s)
  · rfl

/-- What a round from `head == NULL` does: it ends the loop, or its call of `selector` does not come
back. -/
inductive Round (m : Main Serving) (o : ReadOutcome) : Main Serving → Prop
  | readError (h : o.errno = some eIntr) :
    Round m o { m with request := o.fill m.request, phase := .readError }
  | noCode (h : o.errno ≠ some eIntr) (hcode : (o.fill m.request).code ∉ requestCodes) :
    Round m o
      { server := { m.server with server := m.server.server.stop }
        request := o.fill m.request
        calls := m.calls ++ [o.fill m.request]
        phase := .stopped }
  | noPipe (h : o.errno ≠ some eIntr) (hcode : (o.fill m.request).code ∈ requestCodes)
    (hfifo : (m.server.sessions 0).fifo = -1) :
    Round m o
      { server := m.server.refused
        request := o.fill m.request
        calls := m.calls ++ [o.fill m.request]
        phase := .stopped }
  | calling (h : o.errno ≠ some eIntr) (hcode : (o.fill m.request).code ∈ requestCodes)
    (hfifo : (m.server.sessions 0).fifo ≠ -1) :
    Round m o
      { m with
        request := o.fill m.request
        calls := m.calls ++ [o.fill m.request]
        phase := .calling }

theorem step_round (fuel : Nat) {m : Main Serving} (hhead : m.server.server.head = none)
    (o : ReadOutcome) : Round m o (m.step (sessionHandlers fuel) o) := by
  unfold Main.step
  by_cases ho : o.errno = some eIntr
  · rw [if_pos ho]
    exact .readError ho
  rw [if_neg ho]
  by_cases hcode : (o.fill m.request).code ∈ requestCodes
  · by_cases hfifo : (m.server.sessions 0).fifo = -1
    · have hdone : selector (sessionHandlers fuel) m.server (o.fill m.request).code
          (o.fill m.request).memory = .done (ok m.server.refused) :=
        (selector_iff hhead).mpr (Or.inl ⟨hcode, hfifo, rfl⟩)
      rw [dispatch_done hdone]
      exact .noPipe ho hcode hfifo
    · rw [dispatch_calling fun s => selector_stays hhead hcode hfifo s]
      exact .calling ho hcode hfifo
  · have hdone : selector (sessionHandlers fuel) m.server (o.fill m.request).code
        (o.fill m.request).memory = .done (ok { m.server with server := m.server.server.stop }) :=
      (selector_iff hhead).mpr (Or.inr ⟨hcode, rfl⟩)
    rw [dispatch_done hdone]
    exact .noCode ho hcode

/-- What `main` returns, and the server it leaves, when its one read returns `o`. -/
inductive Leaves (server : Server) (session : Session) (o : ReadOutcome) : Int → Server → Prop
  | readError (h : o.errno = some eIntr) : Leaves server session o 1 server
  | noCode (h : o.errno ≠ some eIntr) (hcode : (o.fill RawRequest.zero).code ∉ requestCodes) :
    Leaves server session o (-1) server.stop
  | noPipe (h : o.errno ≠ some eIntr) (hcode : (o.fill RawRequest.zero).code ∈ requestCodes)
    (hfifo : session.fifo = -1) : Leaves server session o (-1) { server with session }.stop

theorem Leaves.unique {server s s' : Server} {session : Session} {o : ReadOutcome} {ret ret' : Int}
    (h : Leaves server session o ret s) (h' : Leaves server session o ret' s') :
    ret = ret' ∧ s = s' := by
  cases h with
  | readError heintr =>
    cases h' with
    | readError => exact ⟨rfl, rfl⟩
    | noCode hne => exact absurd heintr hne
    | noPipe hne => exact absurd heintr hne
  | noCode hne hnot =>
    cases h' with
    | readError heintr => exact absurd heintr hne
    | noCode => exact ⟨rfl, rfl⟩
    | noPipe _ hcode => exact absurd hcode hnot
  | noPipe hne hcode =>
    cases h' with
    | readError heintr => exact absurd heintr hne
    | noCode _ hnot => exact absurd hcode hnot
    | noPipe => exact ⟨rfl, rfl⟩

/-- Behind the loop `main` closes a handle that is none, and returns. -/
theorem finish_leaves {w : Startup} {b : Broker} (hw : w.run = ok (.inr b))
    {sessions : Nat → Session} {o : ReadOutcome} {m : Main Serving}
    (hround : Round (Main.start ⟨b.server, sessions⟩) o m) :
    (m.phase = .calling ∧ ∀ ret s, ¬ Leaves b.server (sessions 0) o ret s) ∨
      ∃ ret s, b.finish m = ok (some (ret, s)) ∧ Leaves b.server (sessions 0) o ret s := by
  obtain ⟨tfs, hinit, hserver⟩ := startup_ready hw
  have hclose : tfsClose b.server.tfs b.tfsHandle = ok (-1, b.server.tfs) := by
    have htfs : b.server.tfs = tfs := by rw [hserver]; rfl
    rw [htfs]
    exact tfsInit_close hinit
  have hstop : tfsClose b.server.stop.tfs b.tfsHandle = ok (-1, b.server.stop.tfs) := hclose
  have hrefused : tfsClose (Serving.mk b.server sessions).refused.server.tfs b.tfsHandle =
      ok (-1, (Serving.mk b.server sessions).refused.server.tfs) := hclose
  cases hround with
  | readError ho =>
    refine Or.inr ⟨1, b.server, ?_, .readError ho⟩
    simp only [Broker.finish, Main.start, hclose, ok_bind, pure_eq]
  | noCode ho hcode =>
    refine Or.inr ⟨-1, b.server.stop, ?_, .noCode ho hcode⟩
    simp only [Broker.finish, Main.start, hstop, ok_bind, pure_eq]
  | noPipe ho hcode hfifo =>
    refine Or.inr ⟨-1, _, ?_, .noPipe ho hcode hfifo⟩
    simp only [Broker.finish, Main.start, hrefused, ok_bind, pure_eq]
    rfl
  | calling ho hcode hfifo =>
    refine Or.inl ⟨rfl, fun ret s h => ?_⟩
    cases h with
    | readError heintr => exact ho heintr
    | noCode _ hnot => exact hnot hcode
    | noPipe _ _ hopen => exact hfifo hopen

theorem finish_round {w : Startup} {b : Broker} (hw : w.run = ok (.inr b))
    {sessions : Nat → Session} {o : ReadOutcome} {m : Main Serving}
    (hround : Round (Main.start ⟨b.server, sessions⟩) o m) (ret : Int) (s : Server) :
    b.finish m = ok (some (ret, s)) ↔ Leaves b.server (sessions 0) o ret s := by
  rcases finish_leaves hw hround with ⟨hphase, hno⟩ | ⟨ret', s', hfinish, hleaves⟩
  · have hnone : b.finish m = ok none := by simp only [Broker.finish, hphase, pure_eq]
    rw [hnone]
    constructor
    · intro h
      cases h
    · intro h
      exact absurd h (hno ret s)
  · constructor
    · intro h
      rw [hfinish] at h
      cases h
      exact hleaves
    · intro h
      obtain ⟨rfl, rfl⟩ := h.unique hleaves
      exact hfinish

theorem Round.phase {m m' : Main Serving} {o : ReadOutcome} (h : Round m o m') :
    m'.phase ≠ .reading := by
  cases h with
  | readError => exact nofun
  | noCode => exact nofun
  | noPipe => exact nofun
  | calling => exact nofun

/-- Where the read does not make `main` return, its call of `selector` does not come back. -/
theorem leaves_or_stays (fuel : Nat) {server : Server} (hhead : server.head = none)
    (sessions : Nat → Session) (o : ReadOutcome) :
    (∃ ret s, Leaves server (sessions 0) o ret s) ∨
      o.errno ≠ some eIntr ∧ ∀ s, selector (sessionHandlers fuel) ⟨server, sessions⟩
        (o.fill RawRequest.zero).code (o.fill RawRequest.zero).memory ≠ .done (ok s) := by
  by_cases ho : o.errno = some eIntr
  · exact Or.inl ⟨_, _, .readError ho⟩
  by_cases hcode : (o.fill RawRequest.zero).code ∈ requestCodes
  · by_cases hfifo : (sessions 0).fifo = -1
    · exact Or.inl ⟨_, _, .noPipe ho hcode hfifo⟩
    · exact Or.inr ⟨ho, selector_stays (s := ⟨server, sessions⟩) hhead hcode hfifo⟩
  · exact Or.inl ⟨_, _, .noCode ho hcode⟩

theorem serve_returns {b : Broker} {w : Startup} (hw : w.run = ok (.inr b)) (fuel : Nat)
    (sessions : Nat → Session) (os : List ReadOutcome) (ret : Int) (s : Server) :
    b.serve fuel sessions os = ok (some (ret, s)) ↔
      ∃ o, os = [o] ∧ Leaves b.server (sessions 0) o ret s := by
  have hhead := startup_head hw
  cases os with
  | nil =>
    constructor
    · intro h
      cases h
    · rintro ⟨o, ho, -⟩
      cases ho
  | cons o os =>
    have hround := step_round fuel (m := Main.start ⟨b.server, sessions⟩) hhead o
    cases os with
    | nil =>
      have hserve : b.serve fuel sessions [o] =
          b.finish ((Main.start ⟨b.server, sessions⟩).step (sessionHandlers fuel) o) := rfl
      rw [hserve, finish_round hw hround]
      constructor
      · exact fun h => ⟨o, rfl, h⟩
      · rintro ⟨o', ho', h⟩
        cases ho'
        exact h
    | cons o' os =>
      -- there is no second read
      have hserve : b.serve fuel sessions (o :: o' :: os) = ok none := by
        have hrun : (Main.start ⟨b.server, sessions⟩).run (sessionHandlers fuel) (o :: o' :: os) =
            ((Main.start ⟨b.server, sessions⟩).step (sessionHandlers fuel) o).run
              (sessionHandlers fuel) (o' :: os) := rfl
        unfold Broker.serve
        rw [hrun, Main.run, if_neg hround.phase]
      rw [hserve]
      constructor
      · intro h
        cases h
      · rintro ⟨o'', ho'', -⟩
        cases ho''

/-- From the loop on, `main` returns exactly if it reads once, and `Leaves` says what: the boxes and
the file system are those of the start, and no session has got a response.  Every other read is
followed by a call of `selector` that does not come back. -/
theorem serve_iff {w : Startup} {b : Broker} (hw : w.run = ok (.inr b)) (fuel : Nat)
    (sessions : Nat → Session) :
    (∀ os ret s, b.serve fuel sessions os = ok (some (ret, s)) ↔
      ∃ o, os = [o] ∧ Leaves b.server (sessions 0) o ret s) ∧
    ∀ o, (∃ ret s, Leaves b.server (sessions 0) o ret s) ∨
      o.errno ≠ some eIntr ∧ ∀ s, selector (sessionHandlers fuel) ⟨b.server, sessions⟩
        (o.fill RawRequest.zero).code (o.fill RawRequest.zero).memory ≠ .done (ok s) :=
  ⟨serve_returns hw fuel sessions, leaves_or_stays fuel (startup_head hw) sessions⟩

/-- The start with memory of zeros and no failing call. -/
def plainStartup : Startup where
  argc := 3
  signalError := false
  mallocs := zeroMallocs
  queue := true
  buffer := some ⟨queueCapacity, fun _ => 0, Nat.le_refl _⟩
  mkfifo := 0
  errno := 0
  serverFifo := 3

def plainBroker : Broker :=
  ⟨0, (pcqCreate queueCapacity plainStartup.buffer).2, Server.start brokerDisk⟩

theorem plainStartup_run : plainStartup.run = ok (.inr plainBroker) := by
  have hinit : tfsInit .zero plainStartup.mallocs none = ok (0, brokerDisk) := brokerDisk_init
  unfold Startup.run
  rw [if_neg (by decide), if_neg (by decide), hinit, ok_bind]
  rfl

/-- A create request whose session pipe cannot be opened. -/
theorem serve_iff_create :
    plainBroker.serve 0 (fun _ => Session.idle) [.complete createVisit.request 0] =
      ok (some (-1, { plainBroker.server with session := Session.idle }.stop)) := by
  refine ((serve_iff plainStartup_run 0 fun _ => Session.idle).1 _ _ _).mpr ⟨_, rfl, ?_⟩
  exact .noPipe (by decide) (by decide) rfl

end Mbroker
