import Mbroker.Broker.Survival

/-!
# `manager` and the list of boxes

The response loop and the printing of `manager/manager.c`, in the manager's own memory.
The loop takes `request.boxa` for a pointer of its own and inserts each box into a list
whose `head` is NULL; `last`, which should end it, is never set.  A SIGINT is left out.

    manager_prints : whatever arrives, the manager prints no box, and not NO BOXES FOUND
    listing_never : `codeL_BOX` lists no boxes, and the manager prints no list
    manager_iff : `main` returns behind its first `read`, which fails or brings a response to a
      create or remove request
-/

namespace Mbroker

open CLib Outcome

/-! ## The manager -/

/-- A line on the standard output. -/
inductive Output where
  | error (message : List UInt8)
  | ok
  | noBoxes
  | box (boxName : CStr) (boxSize nPublishers nSubscribers : UInt64)

def BoxNode.line (node : BoxNode) : Output :=
  .box node.boxName.str node.boxSize node.nPublishers node.nSubscribers

/-- The variables of `main`; `inbox` is what `read` returns, before it finds end of file. -/
structure Manager where
  inbox : List ReadOutcome
  request : RawRequest
  nodes : Heap BoxNode
  head : Option (Option Nat)
  last : UInt8
  sessionEnd : Bool
  print : Bool
  stdout : List Output

/-- What the manager finds in its memory: an uninitialised `line`, the heap, and `argv[4]`. -/
structure ManagerMemory where
  line : Nat → UInt8
  malloc : Heap BoxNode → Option Nat
  boxName : Option CStr

/-- The first character behind white space, if it is a digit. -/
def scanDigit (line : Region UInt8) : Nat → Nat → Outcome (Option UInt8)
  | 0, _ => fault
  | n + 1, a => do
    let c ← line.load a
    if c = 32 ∨ 9 ≤ c ∧ c ≤ 13 then scanDigit line n (a + 1)
    else if 48 ≤ c ∧ c ≤ 57 then return some (c - 48)
    else return none

/-- `sscanf(line, "%1" SCNu8, &code);` -/
def scanCode (line : Nat → UInt8) (code : UInt8) : Outcome UInt8 := do
  let size := 1 + 4 + maxMessage
  let digit ← scanDigit { isNull := false, lo := 0, hi := size, cell := line } size 0
  return digit.getD code

/-- `strcpy(error_message, request.error_message);` -/
def copyMessage (request : RawRequest) : Outcome (List UInt8) :=
  let message := cstr request.memory atErrorMessage maxMessage
  if message.length < maxMessage then ok message else fault

namespace Manager

def read (m : Manager) : ReadOutcome × Manager :=
  match m.inbox with
  | [] => (.eof, m)
  | o :: inbox => (o, { m with inbox })

def printLine (m : Manager) (line : Output) : Manager := { m with stdout := m.stdout ++ [line] }

/-- What the manager does with a response; `.inr` is a return from `main`. -/
def printResponse (w : ManagerMemory) (fuel : Nat) (m : Manager) :
    Bounded (Manager ⊕ Manager) := do
  let errorMessage ← copyMessage m.request
  let code ← scanCode w.line m.request.code
  if code = 4 ∨ code = 6 then -- response from box creation/deletion
    let line := if m.request.returnCode = -1 then .error errorMessage else .ok
    return .inl { m.printLine line with sessionEnd := true }
  else -- has to list all boxes
    let box ← m.nodes.load m.request.boxa
    let (aux, nodes) ← newBoxB m.nodes (w.malloc m.nodes) box.boxName.str box.last box.boxSize
      box.nPublishers box.nSubscribers
    let (nodes, head) ← insertionSort fuel nodes m.head aux
    let m := { m with nodes, head }
    if m.last = 1 then
      match w.boxName with
      | none => (fault : Outcome _)
      | some name =>
        if name.strlen = 0 then return .inr (m.printLine .noBoxes)
        else return .inl { m with sessionEnd := true, print := true }
    else return .inl m

/-- One round of the response loop. -/
def receive (w : ManagerMemory) (fuel : Nat) (m : Manager) : Bounded (Manager ⊕ Manager) :=
  match m.read with
  | (.failed _, m) => return .inr m
  | (o, m) => printResponse w fuel { m with request := o.fill m.request }

/-- `false` is a return from within. -/
def responses (w : ManagerMemory) : Nat → Manager → Bounded (Bool × Manager)
  | 0, _ => .running
  | fuel + 1, m =>
    if m.sessionEnd then return (true, m)
    else do
      match ← m.receive w fuel with
      | .inl m => responses w fuel m
      | .inr m => return (false, m)

/-- One round of the loop that prints the list and frees it: it goes on *while* `aux->next` is
NULL. -/
def printStep (st : Heap BoxNode × Option Nat × List Output) :
    Outcome ((Heap BoxNode × Option Nat × List Output) ⊕ List Output) := do
  let (nodes, aux, stdout) := st
  let node ← nodes.load aux
  let stdout := stdout ++ [node.line]
  let nodes ← nodes.free aux
  let next ← nodes.load node.next
  if next.next = none then return .inl (nodes, node.next, stdout) else return .inr stdout

/-- `main` from the first `read` on, and what it returns. -/
def main (w : ManagerMemory) (fuel : Nat) (m : Manager) : Bounded (Int × Manager) := do
  let (ended, m) ← responses w fuel m
  if !ended then return (1, m)
  else
    match m.print, m.head with
    | true, some first =>
      let stdout ← loop printStep fuel (m.nodes, first, m.stdout)
      return (0, { m with stdout })
    | _, _ => return (1, m)

/-- In front of the response loop; `request` and the heap hold anything. -/
def start (request : RawRequest) (nodes : Heap BoxNode) (inbox : List ReadOutcome) : Manager where
  inbox := inbox
  request := request
  nodes := nodes
  head := none
  last := 0
  sessionEnd := false
  print := false
  stdout := []

end Manager

/-! ## What the manager prints -/

/-- The list is empty, and no box has been printed. -/
structure Unlisted (m : Manager) : Prop where
  head : m.head = none
  print : m.print = false
  stdout : ∀ line ∈ m.stdout, line = .ok ∨ ∃ message, line = .error message

section
variable {w : ManagerMemory} {fuel : Nat} {m : Manager}

theorem insertionSort_null (nodes : Heap BoxNode) (newBox : Nat) :
    insertionSort fuel nodes none newBox = .done fault := rfl

theorem Unlisted.read (h : Unlisted m) : Unlisted m.read.2 := by
  unfold Manager.read
  split
  · exact h
  · exact ⟨h.head, h.print, h.stdout⟩

theorem Unlisted.printLine (h : Unlisted m) {line : Output}
    (hline : line = .ok ∨ ∃ message, line = .error message) : Unlisted (m.printLine line) where
  head := h.head
  print := h.print
  stdout := by
    intro line' hmem
    rcases List.mem_append.mp hmem with hmem | hmem
    · exact h.stdout line' hmem
    · rw [List.mem_singleton] at hmem
      rw [hmem]
      exact hline

/-- A response is to a create or remove request, or the manager does not get over it. -/
theorem Unlisted.printResponse (h : Unlisted m) {r : Manager ⊕ Manager}
    (hr : m.printResponse w fuel = .done (ok r)) : ∃ m', r = .inl m' ∧ Unlisted m' := by
  unfold Manager.printResponse at hr
  obtain ⟨message, -, hr⟩ := Bounded.bind_eq_ok.mp hr
  obtain ⟨code, -, hr⟩ := Bounded.bind_eq_ok.mp hr
  split at hr
  · cases hr
    refine ⟨_, rfl, h.head, h.print, (h.printLine ?_).stdout⟩
    split
    · exact Or.inr ⟨message, rfl⟩
    · exact Or.inl rfl
  · obtain ⟨box, -, hr⟩ := Bounded.bind_eq_ok.mp hr
    obtain ⟨⟨aux, nodes⟩, -, hr⟩ := Bounded.bind_eq_ok.mp hr
    -- `insertion_sort(head, aux)` with the null pointer for `head`
    simp only [h.head, insertionSort_null] at hr
    cases hr

theorem Unlisted.receive (h : Unlisted m) {r : Manager ⊕ Manager}
    (hr : m.receive w fuel = .done (ok r)) : ∃ m', (r = .inl m' ∨ r = .inr m') ∧ Unlisted m' := by
  have hread := h.read
  unfold Manager.receive at hr
  split at hr
  · next errno m₁ hm₁ =>
    rw [hm₁] at hread
    cases hr
    exact ⟨m₁, Or.inr rfl, hread⟩
  · next o m₁ hne hm₁ =>
    rw [hm₁] at hread
    have hfilled : Unlisted { m₁ with request := o.fill m₁.request } :=
      ⟨hread.head, hread.print, hread.stdout⟩
    obtain ⟨m', hm', hunlisted⟩ := hfilled.printResponse hr
    exact ⟨m', Or.inl hm', hunlisted⟩

theorem Unlisted.responses (h : Unlisted m) {ended : Bool} {m' : Manager}
    (hr : Manager.responses w fuel m = .done (ok (ended, m'))) : Unlisted m' := by
  induction fuel generalizing m with
  | zero => cases hr
  | succ fuel ih =>
    unfold Manager.responses at hr
    split at hr
    · cases hr
      exact h
    · obtain ⟨r, hreceive, hr⟩ := Bounded.bind_eq_ok.mp hr
      obtain ⟨m₁, hm₁, hunlisted⟩ := h.receive hreceive
      rcases hm₁ with rfl | rfl
      · exact ih hunlisted hr
      · cases hr
        exact hunlisted

/-- Whatever arrives, the manager prints responses to create and remove requests only, and fails. -/
theorem manager_prints {ret : Int} {m' : Manager} (h : Unlisted m)
    (hr : Manager.main w fuel m = .done (ok (ret, m'))) : ret = 1 ∧ Unlisted m' := by
  unfold Manager.main at hr
  obtain ⟨⟨ended, m₁⟩, hresponses, hr⟩ := Bounded.bind_eq_ok.mp hr
  have hunlisted := h.responses hresponses
  simp only [hunlisted.print] at hr
  split at hr
  · cases hr
    exact ⟨rfl, hunlisted⟩
  · cases hr
    exact ⟨rfl, hunlisted⟩

theorem unlisted_start (request : RawRequest) (nodes : Heap BoxNode) (inbox : List ReadOutcome) :
    Unlisted (Manager.start request nodes inbox) := ⟨rfl, rfl, nofun⟩

end

/-! ## The round trip -/

/-- What a message of a list carries. -/
structure Listed where
  boxName : List UInt8
  last : UInt8
  boxSize : UInt64
  nPublishers : UInt64
  nSubscribers : UInt64

/-- The list of `boxes` in messages: each box in order, or one message with an empty name, with
`last = 1` on exactly the final one. -/
structure Lists (boxes : List (Nat × BoxNode)) (messages : List Listed) : Prop where
  each : boxes ≠ [] →
    messages.map (fun l => (l.boxName, l.boxSize, l.nPublishers, l.nSubscribers)) =
      boxes.map fun e =>
        (e.2.boxName.str.toList, e.2.boxSize, e.2.nPublishers, e.2.nSubscribers)
  empty : boxes = [] → messages.map Listed.boxName = [[]]
  last : ∀ i (h : i < messages.length), messages[i].last = 1 ↔ i + 1 = messages.length

/-- Each box in name order, or NO BOXES FOUND. -/
structure Prints (boxes : List (Nat × BoxNode)) (stdout : List Output) : Prop where
  each : boxes ≠ [] → ∃ sorted : List (Nat × BoxNode), sorted.Perm boxes ∧
    sorted.Pairwise (fun a b => a.2.boxName.strcmp b.2.boxName ≠ .gt) ∧
    stdout = sorted.map fun e => e.2.line
  empty : boxes = [] → stdout = [.noBoxes]

/-- `codeL_BOX` writes the messages `rs`, which carry the list by way of `decode`. -/
def BrokerLists (decode : RawRequest → Listed) (s : Server) (boxes : List (Nat × BoxNode))
    (rs : List Request) (pad : Nat → UInt8) : Prop :=
  ∃ fuel s', codeLBox fuel s = .done (ok s') ∧ s'.session.written = s.session.written ++ rs ∧
    Lists boxes (rs.map fun r => decode (r.raw pad))

/-- The manager prints the list and ends, with `inbox` in front of it. -/
def ManagerPrints (w : ManagerMemory) (request : RawRequest) (nodes : Heap BoxNode)
    (boxes : List (Nat × BoxNode)) (inbox : List ReadOutcome) : Prop :=
  ∃ fuel ret m', Manager.main w fuel (Manager.start request nodes inbox) = .done (ok (ret, m')) ∧
    Prints boxes m'.stdout

/-- The list goes from the broker to the manager's output. -/
def RoundTrip (decode : RawRequest → Listed) (s : Server) (boxes : List (Nat × BoxNode))
    (pad : Nat → UInt8) (w : ManagerMemory) (request : RawRequest) (nodes : Heap BoxNode) : Prop :=
  ∃ rs, BrokerLists decode s boxes rs pad ∧
    ManagerPrints w request nodes boxes (rs.map fun r => .complete (r.raw pad) 0)

theorem lists_ne_nil {boxes : List (Nat × BoxNode)} : ¬ Lists boxes [] := by
  intro h
  cases boxes with
  | nil => cases h.empty rfl
  | cons e boxes => cases h.each (List.cons_ne_nil _ _)

/-- `codeL_BOX` returns without a message, or not at all. -/
theorem codeLBox_silent {fuel : Nat} {s s' : Server} (h : codeLBox fuel s = .done (ok s')) :
    s'.session.written = s.session.written := by
  rcases codeLBox_ok h with ⟨-, rfl⟩ | ⟨-, -, rfl⟩
  · rfl
  · rfl

theorem not_brokerLists (decode : RawRequest → Listed) (s : Server)
    (boxes : List (Nat × BoxNode)) (rs : List Request) (pad : Nat → UInt8) :
    ¬ BrokerLists decode s boxes rs pad := by
  rintro ⟨fuel, s', hends, hwritten, hlists⟩
  rw [codeLBox_silent hends] at hwritten
  have hrs : rs = [] := List.self_eq_append_right.mp hwritten
  rw [hrs] at hlists
  exact lists_ne_nil hlists

theorem Unlisted.not_prints {m : Manager} (h : Unlisted m) {boxes : List (Nat × BoxNode)} :
    ¬ Prints boxes m.stdout := by
  intro hp
  cases boxes with
  | nil =>
    rcases h.stdout .noBoxes (by rw [hp.empty rfl]; exact List.mem_singleton_self _) with he | he
    · cases he
    · obtain ⟨message, he⟩ := he
      cases he
  | cons e boxes =>
    obtain ⟨sorted, hperm, -, hout⟩ := hp.each (List.cons_ne_nil _ _)
    have hmem : e ∈ sorted := hperm.mem_iff.mpr List.mem_cons_self
    rcases h.stdout e.2.line (by rw [hout]; exact List.mem_map_of_mem hmem) with he | he
    · cases he
    · obtain ⟨message, he⟩ := he
      cases he

theorem not_managerPrints (w : ManagerMemory) (request : RawRequest) (nodes : Heap BoxNode)
    (boxes : List (Nat × BoxNode)) (inbox : List ReadOutcome) :
    ¬ ManagerPrints w request nodes boxes inbox := by
  rintro ⟨fuel, ret, m', hends, hprints⟩
  exact (manager_prints (unlisted_start request nodes inbox) hends).2.not_prints hprints

/-- No list reaches the output: neither does the broker write one, whatever the messages are taken
to carry, nor does the manager print one, whatever it gets. -/
theorem listing_never (decode : RawRequest → Listed) (s : Server) (boxes : List (Nat × BoxNode))
    (pad : Nat → UInt8) (w : ManagerMemory) (request : RawRequest) (nodes : Heap BoxNode) :
    ¬ RoundTrip decode s boxes pad w request nodes ∧
      (∀ rs, ¬ BrokerLists decode s boxes rs pad) ∧
      ∀ inbox, ¬ ManagerPrints w request nodes boxes inbox := by
  refine ⟨?_, ?_, ?_⟩
  · rintro ⟨rs, hlists, -⟩
    exact not_brokerLists decode s boxes rs pad hlists
  · exact fun rs => not_brokerLists decode s boxes rs pad
  · exact fun inbox => not_managerPrints w request nodes boxes inbox

/-- A request to list the boxes. -/
structure ListRequest (s : Server) (boxes : List (Nat × BoxNode)) : Prop where
  fs : BrokerFs s.tfs
  running : s.serverRunning = true
  list : Boxes s boxes
  opened : s.session.fifo ≠ -1
  writable : ∀ n, 0 ≤ s.session.writes n
  memory : s.session.malloc ≠ none

/-- The list was never filled. -/
theorem not_roundTrip_start :
    ¬ ∃ decode, ∀ (s : Server) (boxes : List (Nat × BoxNode)) (pad : Nat → UInt8)
      (w : ManagerMemory) (request : RawRequest) (nodes : Heap BoxNode), ListRequest s boxes →
      RoundTrip decode s boxes pad w request nodes := by
  rintro ⟨decode, hall⟩
  have hrequest : ListRequest { Server.start brokerDisk with
      session := { Session.idle with fifo := 5, malloc := some 4096 } } [] :=
    { fs := ⟨zeroMallocs, brokerDisk, [], [], brokerDisk_init, rfl⟩
      running := rfl
      list := rfl
      opened := by
        show (5 : Int) ≠ -1
        decide
      writable := fun _ => Int.le_refl 0
      memory := nofun }
  let memory : ManagerMemory :=
    { line := fun _ => 0
      malloc := fun _ => some 4096
      boxName := some ⟨[], by simp⟩ }
  obtain ⟨rs, hlists, -⟩ := hall _ _ (fun _ => 0) memory RawRequest.zero Heap.empty hrequest
  exact not_brokerLists _ _ _ _ _ hlists

/-! ## One response -/

/-- What is in `request` behind the first `read`, unless that fails. -/
def firstResponse (request : RawRequest) : List ReadOutcome → Option RawRequest
  | [] => some request
  | .failed _ :: _ => none
  | o :: _ => some (o.fill request)

/-- `r` is a response to a create or remove request, for which `line` is printed. -/
structure Response (w : ManagerMemory) (r : RawRequest) (line : Output) : Prop where
  code : ∃ code, scanCode w.line r.code = ok code ∧ (code = 4 ∨ code = 6)
  line : ∃ message, copyMessage r = ok message ∧
    line = if r.returnCode = -1 then .error message else .ok

/-- The manager behind such a response. -/
def Manager.answered (m : Manager) (r : RawRequest) (line : Output) : Manager :=
  { { m with request := r }.printLine line with sessionEnd := true }

section
variable {w : ManagerMemory} {fuel : Nat} {m : Manager}

/-- The manager does not get over any other response. -/
theorem printResponse_iff (h : m.head = none) {x : Manager ⊕ Manager} :
    m.printResponse w fuel = .done (ok x) ↔
      ∃ line, Response w m.request line ∧ x = .inl (m.answered m.request line) := by
  constructor
  · intro hr
    unfold Manager.printResponse at hr
    obtain ⟨message, hmessage, hr⟩ := Bounded.bind_eq_ok.mp hr
    obtain ⟨code, hcode, hr⟩ := Bounded.bind_eq_ok.mp hr
    rw [Bounded.lift_eq, Bounded.done.injEq] at hmessage hcode
    split at hr
    · next h46 =>
      cases hr
      exact ⟨_, ⟨⟨code, hcode, h46⟩, message, hmessage, rfl⟩, rfl⟩
    · obtain ⟨box, -, hr⟩ := Bounded.bind_eq_ok.mp hr
      obtain ⟨⟨aux, nodes⟩, -, hr⟩ := Bounded.bind_eq_ok.mp hr
      simp only [h, insertionSort_null] at hr
      cases hr
  · rintro ⟨line, ⟨⟨code, hcode, h46⟩, message, hmessage, hline⟩, hx⟩
    unfold Manager.printResponse
    refine Bounded.bind_eq_ok.mpr ⟨message, congrArg Bounded.done hmessage, ?_⟩
    refine Bounded.bind_eq_ok.mpr ⟨code, congrArg Bounded.done hcode, ?_⟩
    rw [if_pos h46, hx, hline]
    rfl

theorem receive_some {r : RawRequest} (h : firstResponse m.request m.inbox = some r)
    (hhead : m.head = none) {x : Manager ⊕ Manager} : m.receive w fuel = .done (ok x) ↔
      ∃ line, Response w r line ∧ x = .inl (m.read.2.answered r line) := by
  have hread : m.read.2.head = none ∧
      m.receive w fuel = Manager.printResponse w fuel { m.read.2 with request := r } := by
    unfold Manager.receive Manager.read
    cases hinbox : m.inbox with
    | nil =>
      rw [hinbox] at h
      cases h
      exact ⟨hhead, rfl⟩
    | cons o inbox =>
      rw [hinbox] at h
      cases o with
      | failed errno => cases h
      | eof =>
        cases h
        exact ⟨hhead, rfl⟩
      | complete request errno =>
        cases h
        exact ⟨hhead, rfl⟩
  rw [hread.2]
  exact printResponse_iff (m := { m.read.2 with request := r }) hread.1

theorem receive_none (h : firstResponse m.request m.inbox = none) :
    m.receive w fuel = .done (ok (.inr m.read.2)) := by
  unfold Manager.receive Manager.read
  cases hinbox : m.inbox with
  | nil =>
    rw [hinbox] at h
    cases h
  | cons o inbox =>
    rw [hinbox] at h
    cases o with
    | failed errno => rfl
    | eof => cases h
    | complete request errno => cases h

theorem read_stdout (m : Manager) : m.read.2.stdout = m.stdout := by
  unfold Manager.read
  split
  · rfl
  · rfl

theorem read_inbox (m : Manager) : m.read.2.inbox = m.inbox.tail := by
  unfold Manager.read
  split
  · next h => rw [h]; rfl
  · next h => rw [h]; rfl

/-- Behind its loop the manager prints nothing. -/
theorem main_iff (h : Unlisted m) {ret : Int} {m' : Manager} :
    Manager.main w fuel m = .done (ok (ret, m')) ↔
      ret = 1 ∧ ∃ ended, Manager.responses w fuel m = .done (ok (ended, m')) := by
  unfold Manager.main
  rw [Bounded.bind_eq_ok]
  constructor
  · rintro ⟨⟨ended, m₁⟩, hresponses, hmain⟩
    simp only [(h.responses hresponses).print] at hmain
    split at hmain
    · cases hmain
      exact ⟨rfl, ended, hresponses⟩
    · cases hmain
      exact ⟨rfl, ended, hresponses⟩
  · rintro ⟨rfl, ended, hresponses⟩
    refine ⟨(ended, m'), hresponses, ?_⟩
    simp only [(h.responses hresponses).print]
    split
    · rfl
    · rfl

end

/-- The manager returns 1, behind its first `read`: when that fails, or when it brings a response
to a create or remove request, for which it prints a line.  Otherwise `main` does not return. -/
theorem manager_iff {w : ManagerMemory} {request : RawRequest} {nodes : Heap BoxNode}
    {inbox rest : List ReadOutcome} {ret : Int} {stdout : List Output} :
    (∃ fuel m', Manager.main w fuel (Manager.start request nodes inbox) = .done (ok (ret, m')) ∧
      m'.stdout = stdout ∧ m'.inbox = rest) ↔
    ret = 1 ∧ rest = inbox.tail ∧ ((firstResponse request inbox = none ∧ stdout = []) ∨
      ∃ r line, firstResponse request inbox = some r ∧ Response w r line ∧ stdout = [line]) := by
  have hun := unlisted_start request nodes inbox
  have hread := read_stdout (Manager.start request nodes inbox)
  have hrest : (Manager.start request nodes inbox).read.2.inbox = inbox.tail := read_inbox _
  constructor
  · rintro ⟨fuel, m', hmain, rfl, rfl⟩
    obtain ⟨hret, ended, hresponses⟩ := (main_iff hun).mp hmain
    refine ⟨hret, ?_⟩
    cases fuel with
    | zero => cases hresponses
    | succ fuel =>
      obtain ⟨x, hreceive, hgo⟩ := Bounded.bind_eq_ok.mp hresponses
      cases hfirst : firstResponse request inbox with
      | none =>
        rw [receive_none hfirst] at hreceive
        cases hreceive
        cases hgo
        exact ⟨hrest, Or.inl ⟨rfl, hread⟩⟩
      | some r =>
        obtain ⟨line, hline, rfl⟩ := (receive_some hfirst rfl).mp hreceive
        -- `session_end` is set
        cases fuel with
        | zero => cases hgo
        | succ fuel =>
          cases hgo
          exact ⟨hrest, Or.inr ⟨r, line, rfl, hline, congrArg (· ++ [line]) hread⟩⟩
  · rintro ⟨rfl, rfl, ⟨hfirst, rfl⟩ | ⟨r, line, hfirst, hline, rfl⟩⟩
    · refine ⟨1, _, (main_iff hun).mpr ⟨rfl, false, ?_⟩, hread, hrest⟩
      exact Bounded.bind_eq_ok.mpr ⟨_, receive_none hfirst, rfl⟩
    · let m' := (Manager.start request nodes inbox).read.2.answered r line
      refine ⟨2, m', (main_iff hun).mpr ⟨rfl, true, ?_⟩, congrArg (· ++ [line]) hread, hrest⟩
      exact Bounded.bind_eq_ok.mpr ⟨_, (receive_some hfirst rfl).mpr ⟨line, hline, rfl⟩, rfl⟩

end Mbroker
