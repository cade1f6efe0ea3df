import Mathlib.Algebra.Order.BigOperators.Group.Finset
import Mathlib.Data.Fintype.BigOperators
import Mbroker.Broker.Process
import Mbroker.Clients.Register

/-!
# The broker and its clients

The broker, any number of clients, and the register pipe between them, in any order of
their steps and whatever their system calls return; that an `open` of the pipe returns
only when the other side opens it leaves runs out, and is not used.  A step of a process
takes it to where others can see it: a client to its request or its end, the broker round
by round.  A SIGINT of the broker can come at any time.  Whole structures go through the
pipe, as they fit into `PIPE_BUF`.

    system_run : no request gets into the pipe, so the one call of `selector` that the
      broker makes is for a structure of zeros; no box and no file is ever created
    system_stops : a run has at most four steps of the broker and one of each client, and
      where no step can follow all processes have ended
-/

namespace Mbroker

open CLib Outcome

/-! ## Processes -/

inductive ClientState where
  | starting
  /-- Its request is in the register pipe; what follows is between it and its session. -/
  | sent
  | returned (ret : Int)
  | crashed

inductive BrokerState where
  | starting
  | running (b : Broker) (m : Main Serving)
  /-- `server` is what a broker that came to its loop leaves. -/
  | returned (ret : Int) (server : Option Server)
  | crashed

structure System (ι : Type) where
  broker : BrokerState
  registerPipe : List RawRequest
  client : ι → ClientState

/-- What the non-blocking `read` of the register pipe can return, and what it leaves there. -/
inductive Reads : List RawRequest → ReadOutcome → List RawRequest → Prop
  | complete (request : RawRequest) (errno : Int) (pipe : List RawRequest) :
    Reads (request :: pipe) (.complete request errno) pipe
  | eof : Reads [] .eof []
  | failed (pipe : List RawRequest) (errno : Int) : Reads pipe (.failed errno) pipe

namespace System

variable {ι : Type}

/-- Nothing has started, and the pipe is empty. -/
def init : System ι := ⟨.starting, [], fun _ => .starting⟩

variable [DecidableEq ι]

def become (s : System ι) (t : ι) (c : ClientState) : System ι :=
  { s with client := Function.update s.client t c }

/-- The steps of the broker (`none`) and of each client.  Client `t` runs `programs t` with the
arguments `args t`. -/
inductive Step (programs : ι → ClientProgram) (args : ι → Args) (s : System ι) :
    Option ι → System ι → Prop
  | starts {w : Startup} {b : Broker} (sessions : Nat → Session) (h : s.broker = .starting)
    (hw : w.run = ok (.inr b)) :
    Step programs args s none { s with broker := .running b (Main.start ⟨b.server, sessions⟩) }
  | refuses {w : Startup} {ret : Int} (h : s.broker = .starting) (hw : w.run = ok (.inl ret)) :
    Step programs args s none { s with broker := .returned ret none }
  | startFails {w : Startup} (h : s.broker = .starting) (hw : ∀ r, w.run ≠ ok r) :
    Step programs args s none { s with broker := .crashed }
  | round {b : Broker} {m : Main Serving} {o : ReadOutcome} {pipe : List RawRequest} (fuel : Nat)
    (h : s.broker = .running b m) (hphase : m.phase = .reading)
    (ho : Reads s.registerPipe o pipe) :
    Step programs args s none
      { s with
        broker := .running b (m.step (sessionHandlers fuel) o)
        registerPipe := pipe }
  /-- `sig_handler` clears `server_running`. -/
  | interrupt {b : Broker} {m : Main Serving} (h : s.broker = .running b m)
    (hrunning : m.server.server.serverRunning = true) :
    Step programs args s none
      { s with
        broker := .running b { m with server := { m.server with server := m.server.server.stop } } }
  /-- The test of `server_running`, if the SIGINT came in front of it. -/
  | leaves {b : Broker} {m : Main Serving} (h : s.broker = .running b m)
    (hphase : m.phase = .reading) (hstop : m.server.server.serverRunning = false) :
    Step programs args s none { s with broker := .running b { m with phase := .stopped } }
  | finish {b : Broker} {m : Main Serving} {ret : Int} {server : Server}
    (h : s.broker = .running b m) (hend : b.finish m = ok (some (ret, server))) :
    Step programs args s none { s with broker := .returned ret (some server) }
  | returns {t : ι} {w : Setup} {r : Int} {u : Bool} (h : s.client t = .starting)
    (hw : (programs t).register (args t) w = ok (.returned r u)) :
    Step programs args s (some t) (s.become t (.returned r))
  | sends {t : ι} {w : Setup} {request : Request} {memory : Region UInt8} (pad : Nat → UInt8)
    (h : s.client t = .starting)
    (hw : (programs t).register (args t) w = ok (.sent request memory)) :
    Step programs args s (some t)
      { s.become t .sent with registerPipe := s.registerPipe ++ [request.raw pad] }
  | crashes {t : ι} {w : Setup} (h : s.client t = .starting)
    (hw : ∀ r, (programs t).register (args t) w ≠ ok r) :
    Step programs args s (some t) (s.become t .crashed)

/-- A run, with who made each of its steps. -/
inductive Steps (programs : ι → ClientProgram) (args : ι → Args) (s : System ι) :
    List (Option ι) → System ι → Prop
  | refl : Steps programs args s [] s
  | tail {movers : List (Option ι)} {mover : Option ι} {s₁ s₂ : System ι}
    (h : Steps programs args s movers s₁) (hs : Step programs args s₁ mover s₂) :
    Steps programs args s (movers ++ [mover]) s₂

end System

/-! ## What holds in every state -/

/-- There is no box, and the file system is the one that the broker `b` started with. -/
structure Untouched (b : Broker) (s : Server) : Prop where
  head : s.head = none
  nodes : s.nodes = Heap.empty
  tfs : s.tfs = b.server.tfs
  written : s.session.written = []

/-- The broker has had no request. -/
structure Unasked (b : Broker) (m : Main Serving) : Prop where
  started : ∃ w : Startup, w.run = ok (.inr b)
  request : m.request = RawRequest.zero
  calls : m.calls = [] ∨ m.calls = [RawRequest.zero]
  first : m.phase = .reading → m.calls = []
  phase : m.phase ≠ .calling
  untouched : Untouched b m.server.server

structure System.Unserved {ι : Type} (s : System ι) : Prop where
  registerPipe : s.registerPipe = []
  client : ∀ t, s.client t ≠ .sent
  running : ∀ b m, s.broker = .running b m → Unasked b m
  returned : ∀ ret server, s.broker = .returned ret (some server) →
    (ret = 1 ∨ ret = -1) ∧ ∃ (w : Startup) (b : Broker), w.run = ok (.inr b) ∧ Untouched b server

section
variable {b : Broker} {m : Main Serving}

theorem untouched_start {w : Startup} (hw : w.run = ok (.inr b)) : Untouched b b.server := by
  obtain ⟨tfs, -, hserver⟩ := startup_ready hw
  rw [hserver]
  exact ⟨rfl, rfl, by rw [hserver], rfl⟩

theorem unasked_start {w : Startup} (hw : w.run = ok (.inr b)) (sessions : Nat → Session) :
    Unasked b (Main.start ⟨b.server, sessions⟩) :=
  ⟨⟨w, hw⟩, rfl, Or.inl rfl, fun _ => rfl, nofun, untouched_start hw⟩

/-- A read of the empty pipe leaves the zeros. -/
theorem reads_empty {o : ReadOutcome} {pipe : List RawRequest} (h : Reads [] o pipe) :
    pipe = [] ∧ ∀ request, o.fill request = request := by
  cases h with
  | eof => exact ⟨rfl, fun _ => rfl⟩
  | failed _ errno => exact ⟨rfl, fun _ => rfl⟩

theorem zero_code : RawRequest.zero.code ∉ requestCodes := by decide

/-- A round without a request: `Inexistent code selected.` -/
theorem unasked_round (h : Unasked b m) {o : ReadOutcome} (ho : ∀ r, o.fill r = r)
    (hphase : m.phase = .reading) {m' : Main Serving} (hm : Round m o m') : Unasked b m' := by
  have hfill : o.fill m.request = RawRequest.zero := by rw [ho, h.request]
  cases hm with
  | readError => exact ⟨h.started, hfill, h.calls, nofun, nofun, h.untouched⟩
  | noCode =>
    refine ⟨h.started, hfill, Or.inr ?_, nofun, nofun, ?_⟩
    · show m.calls ++ [o.fill m.request] = _
      rw [h.first hphase, hfill]
      rfl
    · exact ⟨h.untouched.head, h.untouched.nodes, h.untouched.tfs, h.untouched.written⟩
  | noPipe _ hcode =>
    rw [hfill] at hcode
    exact absurd hcode zero_code
  | calling _ hcode =>
    rw [hfill] at hcode
    exact absurd hcode zero_code

/-- Behind the loop the broker returns 1 or -1, and leaves what it has. -/
theorem unasked_finish (h : Unasked b m) : m.phase = .reading ∨
    ∃ ret, (ret = 1 ∨ ret = -1) ∧ b.finish m = ok (some (ret, m.server.server)) := by
  obtain ⟨w, hw⟩ := h.started
  have hclose : tfsClose m.server.server.tfs b.tfsHandle = ok (-1, m.server.server.tfs) := by
    obtain ⟨tfs, hinit, hserver⟩ := startup_ready hw
    rw [h.untouched.tfs, hserver]
    exact tfsInit_close hinit
  unfold Broker.finish
  cases hphase : m.phase with
  | reading => exact Or.inl rfl
  | calling => exact absurd hphase h.phase
  | stopped =>
    refine Or.inr ⟨-1, Or.inr rfl, ?_⟩
    simp only [hclose, ok_bind, pure_eq]
  | readError =>
    refine Or.inr ⟨1, Or.inl rfl, ?_⟩
    simp only [hclose, ok_bind, pure_eq]

end

/-! ## Runs -/

namespace System

section
variable {ι : Type} [DecidableEq ι] {programs : ι → ClientProgram} {args : ι → Args}
  {s s' : System ι} {mover : Option ι} {movers : List (Option ι)}

theorem become_self (s : System ι) (t : ι) (c : ClientState) : (s.become t c).client t = c := by
  simp [become]

theorem become_ne (s : System ι) {t u : ι} (c : ClientState) (h : u ≠ t) :
    (s.become t c).client u = s.client u := by
  simp [become, h]

omit [DecidableEq ι] in
theorem unserved_init : (init : System ι).Unserved where
  registerPipe := rfl
  client _ := nofun
  running _ _ h := by cases h
  returned _ _ h := by cases h

theorem unserved_become (h : s.Unserved) (t : ι) {c : ClientState} (hc : c ≠ .sent) :
    (s.become t c).Unserved where
  registerPipe := h.registerPipe
  client u := by
    by_cases hu : u = t
    · rw [hu, become_self]
      exact hc
    · rw [become_ne s c hu]
      exact h.client u
  running := h.running
  returned := h.returned

theorem unserved_step (hprograms : ∀ t, programs t ∈ [pub, sub, manager]) (h : s.Unserved)
    (hs : Step programs args s mover s') : s'.Unserved := by
  -- the broker's state is new, with the pipe as it was
  have hbroker : ∀ {x : BrokerState}, (∀ b m, x = .running b m → Unasked b m) →
      (∀ ret server, x = .returned ret (some server) → (ret = 1 ∨ ret = -1) ∧
        ∃ (w : Startup) (b : Broker), w.run = ok (.inr b) ∧ Untouched b server) →
      ({ s with broker := x } : System ι).Unserved :=
    fun hrun hret => ⟨h.registerPipe, h.client, hrun, hret⟩
  cases hs with
  | starts sessions hb hw =>
    refine hbroker (fun b m hm => ?_) fun _ _ hx => by cases hx
    cases hm
    exact unasked_start hw sessions
  | refuses hb hw => exact hbroker (fun _ _ hx => by cases hx) fun _ _ hx => by cases hx
  | startFails hb hw => exact hbroker (fun _ _ hx => by cases hx) fun _ _ hx => by cases hx
  | round fuel hb hphase ho =>
    rw [h.registerPipe] at ho
    obtain ⟨rfl, hfill⟩ := reads_empty ho
    have hun := h.running _ _ hb
    refine ⟨rfl, h.client, fun b m hm => ?_, fun _ _ hx => by cases hx⟩
    cases hm
    exact unasked_round hun hfill hphase (step_round fuel hun.untouched.head _)
  | interrupt hb hrunning =>
    have hun := h.running _ _ hb
    refine hbroker (fun b m hm => ?_) fun _ _ hx => by cases hx
    cases hm
    exact ⟨hun.started, hun.request, hun.calls, hun.first, hun.phase,
      ⟨hun.untouched.head, hun.untouched.nodes, hun.untouched.tfs, hun.untouched.written⟩⟩
  | leaves hb hphase hstop =>
    have hun := h.running _ _ hb
    refine hbroker (fun b m hm => ?_) fun _ _ hx => by cases hx
    cases hm
    refine ⟨hun.started, hun.request, hun.calls, ?_, ?_, hun.untouched⟩
    · rintro ⟨⟩
    · rintro ⟨⟩
  | finish hb hend =>
    have hun := h.running _ _ hb
    refine hbroker (fun _ _ hx => by cases hx) fun ret server hret => ?_
    cases hret
    obtain ⟨w, hw⟩ := hun.started
    rcases unasked_finish hun with hreading | ⟨ret', hret', hfinish⟩
    · simp only [Broker.finish, hreading] at hend
      cases hend
    · rw [hfinish] at hend
      cases hend
      exact ⟨hret', w, _, hw, hun.untouched⟩
  | returns ht hw => exact unserved_become h _ (by rintro ⟨⟩)
  | sends pad ht hw => exact absurd hw (register_unsent (hprograms _) _ _ _ _)
  | crashes ht hw => exact unserved_become h _ (by rintro ⟨⟩)

/-! ## Steps to go -/

/-- The rest of a round, the end of the process, and a SIGINT. -/
def mainLeft (m : Main Serving) : Nat :=
  (if m.phase = .reading then 2 else 1) + if m.server.server.serverRunning then 1 else 0

/-- The steps that the broker has to go, at most. -/
def brokerLeft : BrokerState → Nat
  | .starting => 4
  | .running _ m => mainLeft m
  | .returned _ _ => 0
  | .crashed => 0

def clientLeft : ClientState → Nat
  | .starting => 1
  | _ => 0

/-- The steps that the broker or a client has to go. -/
def left (s : System ι) : Option ι → Nat
  | none => brokerLeft s.broker
  | some t => clientLeft (s.client t)

theorem mainLeft_bounds (m : Main Serving) : 0 < mainLeft m ∧ mainLeft m ≤ 3 := by
  unfold mainLeft
  constructor
  · split <;> omega
  · split <;> split <;> omega

theorem mainLeft_round {m m' : Main Serving} {o : ReadOutcome} (h : Round m o m')
    (hphase : m.phase = .reading) : mainLeft m' < mainLeft m := by
  have hflag : m'.server.server.serverRunning = true → m.server.server.serverRunning = true := by
    intro hrunning
    cases h with
    | readError => exact hrunning
    | noCode => cases hrunning
    | noPipe => cases hrunning
    | calling => exact hrunning
  unfold mainLeft
  rw [if_pos hphase, if_neg h.phase]
  cases hm : m.server.server.serverRunning with
  | true =>
    split
    · simp
    · simp
  | false =>
    rw [if_neg fun hm' => ?_]
    · simp
    · rw [hflag hm'] at hm
      cases hm

theorem left_become {t : ι} (ht : s.client t = .starting) {c : ClientState}
    (hc : clientLeft c = 0) : (s.become t c).left (some t) < s.left (some t) ∧
      ∀ x, x ≠ some t → (s.become t c).left x = s.left x := by
  constructor
  · show clientLeft ((s.become t c).client t) < clientLeft (s.client t)
    rw [become_self, hc, ht]
    exact Nat.one_pos
  · intro x hx
    cases x with
    | none => rfl
    | some u => exact congrArg clientLeft (become_ne s c fun hu => hx (congrArg some hu))

/-- Who makes the step has less to go, and the others have what they had. -/
theorem left_step (hprograms : ∀ t, programs t ∈ [pub, sub, manager]) (h : s.Unserved)
    (hs : Step programs args s mover s') :
    s'.left mover < s.left mover ∧ ∀ x, x ≠ mover → s'.left x = s.left x := by
  have hbroker : ∀ {x : BrokerState} {pipe : List RawRequest},
      brokerLeft x < brokerLeft s.broker →
      ({ s with broker := x, registerPipe := pipe } : System ι).left none < s.left none ∧
        ∀ y, y ≠ none →
          ({ s with broker := x, registerPipe := pipe } : System ι).left y = s.left y := by
    intro x pipe hx
    refine ⟨hx, fun y hy => ?_⟩
    cases y with
    | none => exact absurd rfl hy
    | some t => rfl
  cases hs with
  | starts sessions hb hw =>
    refine hbroker ?_
    rw [hb]
    exact Nat.lt_succ_of_le (mainLeft_bounds _).2
  | refuses hb hw =>
    refine hbroker ?_
    rw [hb]
    exact Nat.succ_pos _
  | startFails hb hw =>
    refine hbroker ?_
    rw [hb]
    exact Nat.succ_pos _
  | round fuel hb hphase ho =>
    refine hbroker ?_
    rw [hb]
    exact mainLeft_round (step_round fuel (h.running _ _ hb).untouched.head _) hphase
  | interrupt hb hrunning =>
    refine hbroker ?_
    rw [hb]
    simp [brokerLeft, mainLeft, hrunning, Server.stop]
  | leaves hb hphase hstop =>
    refine hbroker ?_
    rw [hb]
    simp [brokerLeft, mainLeft, hphase, hstop]
  | finish hb hend =>
    refine hbroker ?_
    rw [hb]
    exact (mainLeft_bounds _).1
  | returns ht hw => exact left_become ht rfl
  | sends pad ht hw => exact absurd hw (register_unsent (hprograms _) _ _ _ _)
  | crashes ht hw => exact left_become ht rfl

/-! ## The whole system -/

theorem unserved_steps (hprograms : ∀ t, programs t ∈ [pub, sub, manager])
    (h : Steps programs args init movers s) : s.Unserved := by
  induction h with
  | refl => exact unserved_init
  | tail _ hs ih => exact unserved_step hprograms ih hs

/-- The steps that a process has made come out of those that it had to go. -/
theorem left_steps (hprograms : ∀ t, programs t ∈ [pub, sub, manager])
    (h : Steps programs args init movers s) (x : Option ι) :
    movers.count x + s.left x ≤ (init : System ι).left x := by
  induction h with
  | refl => exact Nat.le_of_eq (Nat.zero_add _)
  | @tail movers mover _ _ h₁ hs ih =>
    obtain ⟨hless, hsame⟩ := left_step hprograms (unserved_steps hprograms h₁) hs
    rw [List.count_append]
    by_cases hx : x = mover
    · subst hx
      rw [List.count_singleton_self]
      omega
    · rw [List.count_singleton, if_neg (by simpa using Ne.symm hx), hsame x hx]
      exact ih

/-- Some step can be taken until all processes have ended. -/
theorem stuck_ended (h : s.Unserved) (hstuck : ∀ mover s', ¬ Step programs args s mover s') :
    (∀ t, s.client t ≠ .starting) ∧ s.broker ≠ .starting ∧ ∀ b m, s.broker ≠ .running b m := by
  refine ⟨fun t ht => ?_, fun hb => ?_, fun b m hb => ?_⟩
  · let w : Setup := ⟨true, 0, 0, 0, 0, 0⟩
    cases hr : (programs t).register (args t) w with
    | ok r =>
      cases r with
      | returned ret unlinked => exact hstuck _ _ (.returns ht hr)
      | sent request memory => exact hstuck _ _ (.sends (fun _ => 0) ht hr)
    | panic msg => exact hstuck _ _ (.crashes ht (w := w) fun r => by rw [hr]; exact nofun)
    | fault => exact hstuck _ _ (.crashes ht (w := w) fun r => by rw [hr]; exact nofun)
  · let w : Startup := { plainStartup with argc := 0 }
    have hw : w.run = ok (.inl 1) := rfl
    exact hstuck _ _ (.refuses hb hw)
  · rcases unasked_finish (h.running b m hb) with hreading | ⟨ret, -, hend⟩
    · have ho : Reads s.registerPipe .eof [] := by
        rw [h.registerPipe]
        exact .eof
      exact hstuck _ _ (.round 0 hb hreading ho)
    · exact hstuck _ _ (.finish hb hend)

/-- Whatever the clients' arguments and the results of all system calls: in every reachable state
the register pipe is empty and no client is behind its request; the broker has called `selector` at
most once, for a structure of zeros, and has neither a box nor a new file. -/
theorem system_run (hprograms : ∀ t, programs t ∈ [pub, sub, manager])
    (h : Steps programs args init movers s) : s.registerPipe = [] ∧ (∀ t, s.client t ≠ .sent) ∧
      (∀ b m, s.broker = .running b m → m.phase ≠ .calling ∧
        (m.calls = [] ∨ m.calls = [RawRequest.zero]) ∧ Untouched b m.server.server) ∧
      ∀ ret server, s.broker = .returned ret (some server) → (ret = 1 ∨ ret = -1) ∧
        ∃ (w : Startup) (b : Broker), w.run = ok (.inr b) ∧ Untouched b server := by
  have hun := unserved_steps hprograms h
  refine ⟨hun.registerPipe, hun.client, fun b m hb => ?_, hun.returned⟩
  have hidle := hun.running b m hb
  exact ⟨hidle.phase, hidle.calls, hidle.untouched⟩

/-- A run has at most four steps of the broker and one of each client; where none can follow, all
processes have ended. -/
theorem system_stops (hprograms : ∀ t, programs t ∈ [pub, sub, manager])
    (h : Steps programs args init movers s) :
    movers.count none ≤ 4 ∧ (∀ t, movers.count (some t) ≤ 1) ∧
      (∀ [Fintype ι], movers.length ≤ 4 + Fintype.card ι) ∧
      ((∀ mover s', ¬ Step programs args s mover s') → (∀ t, s.client t ≠ .starting) ∧
        s.broker ≠ .starting ∧ ∀ b m, s.broker ≠ .running b m) := by
  have hbroker : movers.count none ≤ 4 := by
    have hleft := left_steps hprograms h none
    exact Nat.le_trans (Nat.le_add_right _ _) hleft
  have hclient : ∀ t, movers.count (some t) ≤ 1 := by
    intro t
    have hleft := left_steps hprograms h (some t)
    exact Nat.le_trans (Nat.le_add_right _ _) hleft
  refine ⟨hbroker, hclient, ?_, stuck_ended (unserved_steps hprograms h)⟩
  intro _
  calc movers.length = ∑ x : Option ι, movers.count x := by
        have hcount := Multiset.sum_count_eq_card (s := Finset.univ)
          (m := (movers : Multiset (Option ι))) fun x _ => Finset.mem_univ x
        rw [Multiset.coe_card] at hcount
        rw [← hcount]
        refine Finset.sum_congr rfl fun x _ => ?_
        rw [Multiset.coe_count]
        congr!
    _ = movers.count none + ∑ t : ι, movers.count (some t) := Fintype.sum_option _
    _ ≤ 4 + ∑ _t : ι, 1 := Nat.add_le_add hbroker (Finset.sum_le_sum fun t _ => hclient t)
    _ = 4 + Fintype.card ι := by rw [← Finset.card_eq_sum_ones, Finset.card_univ]

end

/-! ## One run -/

/-- `pub` has the four arguments that it takes, `manager` has too few. -/
def twoPrograms (t : Bool) : ClientProgram := if t then pub else manager

def twoArgs (t : Bool) : Args :=
  if t then
    { argc := 4
      argv := fun i => if i = 2 then some 4096 else if i = 3 then some 4098 else none
      memory := argv
      terminated := rfl }
  else { argc := 2, argv := fun _ => none, memory := argv, terminated := rfl }

def plainSetup : Setup := ⟨false, 0, 0, 3, 0, 0⟩

/-- Who makes the steps of the run below. -/
def twoMovers : List (Option Bool) := [none, some true, none, some false, none]

/-- `pub` ends before the broker reads, `manager` behind that. -/
theorem twoSteps_run : ∃ s : System Bool, Steps twoPrograms twoArgs init twoMovers s ∧
    s.client true = .crashed ∧ s.client false = .returned 1 ∧
    ∃ server, s.broker = .returned (-1) (some server) := by
  have hpub : (twoPrograms true).register (twoArgs true) plainSetup = fault :=
    ClientProgram.register_passes rfl ⟨rfl, rfl, by decide, by decide⟩
  have hround := step_round 0 (m := Main.start ⟨plainBroker.server, fun _ => Session.idle⟩) rfl .eof
  have hend := (finish_round plainStartup_run hround (-1) plainBroker.server.stop).mpr
    (.noCode (by decide) (by decide))
  have h0 : Steps twoPrograms twoArgs init [] (init : System Bool) := .refl
  have h1 := h0.tail (.starts (fun _ => Session.idle) rfl plainStartup_run)
  have h2 := h1.tail (.crashes (t := true) (w := plainSetup) rfl fun r => by rw [hpub]; exact nofun)
  have h3 := h2.tail (.round 0 rfl rfl .eof)
  have h4 := h3.tail (.returns (t := false) (w := plainSetup) (r := 1) (u := false) rfl rfl)
  have h5 := h4.tail (.finish rfl hend)
  exact ⟨_, h5, rfl, rfl, _, rfl⟩

theorem twoPrograms_mem (t : Bool) : twoPrograms t ∈ [pub, sub, manager] := by
  cases t with
  | false => exact .tail _ (.tail _ (.head _))
  | true => exact .head _

theorem system_run_two : ∃ s : System Bool, Steps twoPrograms twoArgs init twoMovers s ∧
    s.registerPipe = [] ∧ (∀ t, s.client t ≠ .sent) ∧
      (∀ b m, s.broker = .running b m → m.phase ≠ .calling ∧
        (m.calls = [] ∨ m.calls = [RawRequest.zero]) ∧ Untouched b m.server.server) ∧
      ∀ ret server, s.broker = .returned ret (some server) → (ret = 1 ∨ ret = -1) ∧
        ∃ (w : Startup) (b : Broker), w.run = ok (.inr b) ∧ Untouched b server := by
  obtain ⟨s, h, -⟩ := twoSteps_run
  exact ⟨s, h, system_run twoPrograms_mem h⟩

theorem system_stops_two : ∃ s : System Bool, Steps twoPrograms twoArgs init twoMovers s ∧
    twoMovers.count none ≤ 4 ∧ (∀ t, twoMovers.count (some t) ≤ 1) ∧
      (∀ [Fintype Bool], twoMovers.length ≤ 4 + Fintype.card Bool) ∧
      ((∀ mover s', ¬ Step twoPrograms twoArgs s mover s') → (∀ t, s.client t ≠ .starting) ∧
        s.broker ≠ .starting ∧ ∀ b m, s.broker ≠ .running b m) := by
  obtain ⟨s, h, -⟩ := twoSteps_run
  exact ⟨s, h, system_stops twoPrograms_mem h⟩

end System

end Mbroker
