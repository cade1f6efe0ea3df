import Mbroker.Fs.Operations
import Mbroker.Utils.BoxList
import Mbroker.Utils.Wire

/-!
# The broker's handlers (`mbroker/mbroker.c`)

A `Server` is the broker's global variables, with the boxes' nodes, the file system and
the session pipe of the request in hand; each handler takes and returns it.  What the
world does is in `Session`: what `open`, `read`, `write` and `malloc` return, and the
bytes of an uninitialised `message`.  `errno` comes with each result of `read`, since the
loops look at it whatever `read` returned.

`ERROR` prints and exits: `panic`.  `fuel` bounds the iterations of each loop.
-/

namespace Mbroker

open CLib Outcome

/-! ## Codes and results of `read` -/

inductive Codes where
  | rPub | rSub | cBox | rCBox | rBox | rRBox | lBox | rLBox | mPub | mSub
deriving DecidableEq

def Codes.val : Codes → UInt8
  | rPub => 1
  | rSub => 2
  | cBox => 3
  | rCBox => 4
  | rBox => 5
  | rRBox => 6
  | lBox => 7
  | rLBox => 8
  | mPub => 9
  | mSub => 10

def eIntr : Int := 4
def eAgain : Int := 11
def eExist : Int := 17

/-- The result of `read(fifo, &request, sizeof(request))`: a whole structure, with whatever value
`errno` has; 0; or -1 and a new value of `errno`. -/
inductive ReadOutcome where
  | complete (request : RawRequest) (errno : Int)
  | eof
  | failed (errno : Int)

/-- `request` behind the read. -/
def ReadOutcome.fill : ReadOutcome → RawRequest → RawRequest
  | complete request _, _ => request
  | _, request => request

/-- `errno`, where `ret != 0`. -/
def ReadOutcome.errno : ReadOutcome → Option Int
  | complete _ errno => some errno
  | eof => none
  | failed errno => some errno

/-! ## The session -/

structure Session where
  /-- What `open(session_pipe, …)` returns. -/
  fifo : Int
  isOpen : Bool
  /-- What `read` returns up to the client's `close`. -/
  pending : List ReadOutcome
  /-- What it returns from then on: 0, or -1 with this `errno`. -/
  closing : Option Int
  closeRead : Bool
  /-- What `write` returns behind so many writes. -/
  writes : Nat → Int
  written : List Request
  malloc : Option Nat
  stack : Nat → UInt8

namespace Session

/-- No request yet. -/
def idle : Session where
  fifo := -1
  isOpen := false
  pending := []
  closing := none
  closeRead := false
  writes _ := 0
  written := []
  malloc := none
  stack _ := 0

def read (s : Session) : ReadOutcome × Session :=
  match s.pending with
  | o :: pending => (o, { s with pending })
  | [] =>
    match s.closing with
    | none => (.eof, { s with closeRead := true })
    | some errno => (.failed errno, { s with closeRead := true })

theorem read_pending {s : Session} {o : ReadOutcome} {pending : List ReadOutcome}
    (h : s.pending = o :: pending) : s.read = (o, { s with pending }) := by
  simp only [read, h]

theorem read_eof {s : Session} (h : s.pending = []) (hc : s.closing = none) :
    s.read = (.eof, { s with closeRead := true }) := by
  simp only [read, h, hc]

theorem read_failed {s : Session} {errno : Int} (h : s.pending = []) (hc : s.closing = some errno) :
    s.read = (.failed errno, { s with closeRead := true }) := by
  simp only [read, h, hc]

def write (s : Session) (request : Request) : Int × Session :=
  let ret := s.writes s.written.length
  if ret < 0 then (ret, s) else (ret, { s with written := s.written ++ [request] })

/-- `char message[n]`, whose first byte is at 1. -/
def message (s : Session) (n : Nat) : Region UInt8 :=
  { isNull := false, lo := 1, hi := 1 + n, cell := s.stack }

end Session

/-! ## The server -/

structure Server where
  serverRunning : Bool
  nodes : Heap BoxNode
  head : Option (Option Nat)
  tfs : Tfs
  session : Session

namespace Server

/-- The broker in front of its loop. -/
def start (tfs : Tfs) : Server where
  serverRunning := true
  nodes := Heap.empty
  head := none
  tfs := tfs
  session := Session.idle

/-- `server_running = false;` -/
def stop (s : Server) : Server := { s with serverRunning := false }

def openSession (s : Server) : Server := { s with session := { s.session with isOpen := true } }

/-- `close(session_fifo);` -/
def closeSession (s : Server) : Server := { s with session := { s.session with isOpen := false } }

@[simp] theorem openSession_nodes (s : Server) : s.openSession.nodes = s.nodes := rfl
@[simp] theorem openSession_head (s : Server) : s.openSession.head = s.head := rfl
@[simp] theorem openSession_tfs (s : Server) : s.openSession.tfs = s.tfs := rfl

/-- `box->n_publishers = n;` -/
def setPublishers (s : Server) (box : Option Nat) (n : UInt64) : Outcome Server := do
  let node ← s.nodes.load box
  let nodes ← s.nodes.store box { node with nPublishers := n }
  return { s with nodes }

theorem setPublishers_ok {s : Server} {p : Nat} {node : BoxNode} (hp : s.nodes p = some node)
    (n : UInt64) : s.setPublishers (some p) n =
      ok { s with nodes := Function.update s.nodes p (some { node with nPublishers := n }) } := by
  simp [setPublishers, Heap.load_ok hp, Heap.store_ok hp]

/-- `ret = write(session_fifo, &request, sizeof(request));`, and whether `ret` is not negative. -/
def send (s : Server) (request : Request) : Bool × Server :=
  let (ret, session) := s.session.write request
  (decide (0 ≤ ret), { s with session })

end Server

/-! ## Messages -/

/-- `strcpy(message, text);` -/
def strcpyMessage (message : Region UInt8) (text : String) : Outcome (Region UInt8) :=
  let bytes := text.toUTF8.data.toList
  message.fill 1 (bytes.length + 1) fun k => bytes.getD k 0

/-- `memset(message + len - 1, 0, MAX_MESSAGE - len);` -/
def padMessage (message : Region UInt8) (len : Nat) : Outcome (Region UInt8) :=
  memset message (1 + len - 1) 0 (maxMessage - len)

/-- `newRequest(code, NULL, NULL, return_code, message)` -/
def messageRequest (message : Region UInt8) (code : Codes) (returnCode : Int) : Outcome Request :=
  newRequest message code.val none none returnCode (some 1)

/-- There is no message: its pipe's name would be copied from NULL. -/
theorem messageRequest_fault (message : Region UInt8) (code : Codes) (returnCode : Int) :
    messageRequest message code returnCode = fault :=
  newRequest_noPipe _ _ _ _ _

/-- A response and the end of the session, as the handlers have it after their messages. -/
def respond (s : Server) (request : Request) : Server :=
  let (sent, s) := s.send request
  if !sent then s.stop else s.closeSession

/-! ## `codeR_PUB` -/

/-- One round of the publisher's loop; `false` is the return on an error. -/
def publishStep (boxHandle : Int) (st : Server × RawRequest) :
    Outcome ((Server × RawRequest) ⊕ (Bool × Server)) := do
  let (s, request) := st
  let (o, session) := s.session.read
  let s := { s with session }
  let request := o.fill request
  if o.errno ≠ none ∧ o.errno ≠ some eAgain then return .inr (false, s.stop)
  else
    -- `errno == EAGAIN` is taken for the end of the session
    let len ← strlen request.memory atErrorMessage
    let (_, tfs) ← tfsWrite s.tfs boxHandle (fun k => request.memory.cell (atErrorMessage + k)) len
    let s := { s with tfs }
    if o.errno = some eAgain then return .inr (true, s) else return .inl (s, request)

def codeRPub (fuel : Nat) (s : Server) (request : Region UInt8) (boxName : Nat) :
    Bounded Server := do
  if s.session.fifo = -1 then return s.stop
  else
    let s := s.openSession
    let sessionBox ← findBox fuel s.nodes s.head request boxName
    let box ← s.nodes.load sessionBox
    if box.nPublishers = 1 then return s.closeSession
    else
      let s ← s.setPublishers sessionBox 1
      let (boxHandle, tfs) ← tfsOpen s.tfs (some box.boxName.str) tfsOAppend
      let s := { s with tfs }
      if boxHandle = -1 then
        let s ← s.closeSession.setPublishers sessionBox 0
        return s
      else
        let (ended, s) ← loop (publishStep boxHandle) fuel (s, RawRequest.zero)
        if !ended then return s
        else
          let (_, tfs) ← tfsClose s.tfs boxHandle
          let s ← { s with tfs }.setPublishers sessionBox 0
          return s.closeSession

/-! ## `codeR_SUB` -/

/-- One round of the subscriber's loop, which only returns on an error. -/
def subscribeStep (boxHandle : Int) (st : Server × Region UInt8) :
    Outcome ((Server × Region UInt8) ⊕ Server) := do
  let (s, message) := st
  let (ret, bytes, tfs) ← tfsRead s.tfs boxHandle (maxMessage + 1)
  let message ← message.fill 1 bytes.length fun k => bytes.getD k 0
  let s := { s with tfs }
  if ret ≠ 0 then return .inr s.stop
  else
    let len ← strlen message 1
    let message ← if len < maxMessage then padMessage message len else ok message
    let request ← messageRequest message .mSub 0
    let (sent, s) := s.send request
    if !sent then return .inr s.stop else return .inl (s, message)

/-- `codeR_SUB` up to its loop: the open box, or the server it returns with. -/
def subscribe (fuel : Nat) (s : Server) (request : Region UInt8) (boxName : Nat) :
    Bounded (Option Int × Server) := do
  if s.session.fifo = -1 then return (none, s.stop)
  else
    let s := s.openSession
    let sessionBox ← findBox fuel s.nodes s.head request boxName
    let box ← s.nodes.load sessionBox
    if box.nSubscribers ≤ 0 then return (none, s.closeSession)
    else
      let (boxHandle, tfs) ← tfsOpen s.tfs (some box.boxName.str) tfsOAppend
      let s := { s with tfs }
      if boxHandle = -1 then return (none, s.closeSession) else return (some boxHandle, s)

def codeRSub (fuel : Nat) (s : Server) (request : Region UInt8) (boxName : Nat) :
    Bounded Server := do
  match ← subscribe fuel s request boxName with
  | (none, s) => return s
  | (some boxHandle, s) => loop (subscribeStep boxHandle) fuel (s, s.session.message (maxMessage + 1))

/-! ## `codeC_BOX` -/

def codeCBox (fuel : Nat) (s : Server) (request : Region UInt8) (boxName : Nat) :
    Bounded Server := do
  if s.session.fifo = -1 then return s.stop
  else
    let s := s.openSession
    let message := s.session.message maxMessage
    match ← findBox fuel s.nodes s.head request boxName with
    | some _ => -- box already existed
      let message ← strcpyMessage message "Caixa já existe."
      let len ← strlen message 1
      let message ← padMessage message len
      let r ← messageRequest message .rRBox (-1)
      return respond s r
    | none =>
      let name ← strAt request boxName
      let (boxHandle, tfs) ← tfsOpen s.tfs (some name) tfsOCreat
      let (closeRet, tfs) ← tfsClose tfs boxHandle
      let s := { s with tfs }
      if boxHandle = -1 ∨ closeRet = -1 then -- create box failed
        let message ← strcpyMessage message "Erro a criar a caixa."
        let len ← strlen message 1
        let r ← messageRequest message .rRBox (-1)
        let _ ← padMessage message len
        return respond s r
      else
        let (aux, nodes) ← newBoxB s.nodes s.session.malloc name 0 defaultBoxSize 0 0
        let (nodes, head) ← insertionSort fuel nodes s.head aux
        let s := { s with nodes, head }
        let message ← memset message 1 0 maxMessage
        let r ← messageRequest message .mSub 0
        let (sent, s) := s.send r
        if !sent then return s.stop
        else
          (panic "Something went drastically wrong in server create box." : Outcome Server)

/-! ## `codeR_BOX` -/

def codeRBox (fuel : Nat) (s : Server) (request : Region UInt8) (boxName : Nat) :
    Bounded Server := do
  if s.session.fifo = -1 then return s.stop
  else
    let s := s.openSession
    let message := s.session.message maxMessage
    match ← findBox fuel s.nodes s.head request boxName with
    | none => -- box never existed to begin with
      let message ← strcpyMessage message "Caixa não existe."
      let len ← strlen message 1
      let message ← padMessage message len
      let r ← messageRequest message .rRBox (-1)
      return respond s r
    | some _ =>
      let name ← strAt request boxName
      let (ret, tfs) ← tfsUnlink s.tfs (some name)
      let s := { s with tfs }
      if ret = -1 then -- remove box failed
        let message ← strcpyMessage message "Erro a remover a caixa."
        let len ← strlen message 1
        let message ← padMessage message len
        let r ← messageRequest message .rRBox (-1)
        return respond s r
      else
        let (_, nodes, head) ← removeBox fuel s.nodes s.head request boxName
        let s := { s with nodes, head }
        let message ← memset message 1 0 maxMessage
        let r ← messageRequest message .rRBox 0
        return respond s r

/-! ## `codeL_BOX` -/

/-- One round of the loop over the list; `false` is the return on an error. -/
def listStep (message : Region UInt8) (st : Server × Option Nat × UInt8) :
    Outcome ((Server × Option Nat × UInt8) ⊕ (Bool × Server)) := do
  let (s, aux, last) := st
  match aux with
  | none => return .inr (true, s)
  | some p =>
    let node ← s.nodes.load (some p)
    let last := if node.next = none then 1 else last
    let nodes ← s.nodes.store (some p) { node with last }
    let s := { s with nodes }
    let r ← newRequest message Codes.rLBox.val none none 0 none
    let (sent, s) := s.send { r with boxa := some p }
    if !sent then return .inr (false, s.stop) else return .inl (s, node.next, last)

def codeLBox (fuel : Nat) (s : Server) : Bounded Server := do
  if s.session.fifo = -1 then return s.stop
  else
    let s := s.openSession
    let boxN : Region UInt8 := { s.session.message (maxBoxName + 1) with cell := fun _ => 0 }
    match s.head with
    | none =>
      let (newBox, nodes) ← newBoxB s.nodes s.session.malloc ⟨[], by simp⟩ 1 defaultBoxSize 0 0
      let s := { s with nodes }
      let r ← newRequest boxN Codes.rLBox.val none none 0 (some 1)
      let (sent, s) := s.send { r with boxa := some newBox }
      if !sent then return s.stop else return s.closeSession
    | some first =>
      let (ended, s) ← loop (listStep boxN) fuel (s, first, 0)
      if !ended then return s else return s.closeSession

end Mbroker
