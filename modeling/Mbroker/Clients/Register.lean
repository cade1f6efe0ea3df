import Mbroker.Broker.Server

/-!
# The clients up to their request

`main` of `publisher/pub.c`, `subscriber/sub.c` and `manager/manager.c`, from its first
line to `send_request`: the number of arguments, the signal handler, the session pipe,
the register pipe, and the manager's code for its instruction.  The three differ in
what a `ClientProgram` holds.  A pointer is `none` for NULL, as in `Utils.Request`.

    register_ends : a client returns from one of its checks, or it never comes back from
      `send_request`, whatever its arguments
-/

namespace Mbroker

open CLib Outcome

/-! ## Arguments and system calls -/

/-- What `main` gets: `argv` points into the memory of the process. -/
structure Args where
  argc : Nat
  argv : Nat → Option Nat
  memory : Region UInt8
  /-- `argv[argc]` is NULL. -/
  terminated : argv argc = none

/-- What the calls of `main` come to, and the uninitialised `code` of the manager. -/
structure Setup where
  signalError : Bool
  mkfifo : Int
  errno : Int
  /-- What `open(server_pipe, O_WRONLY)` returns. -/
  serverFifo : Int
  /-- What `write(server_fifo, …)` returns. -/
  written : Int
  code : UInt8

/-- What has come of a client: it has returned, with its session pipe unlinked or not, or it has
written its request. -/
inductive Registered where
  | returned (ret : Int) (unlinked : Bool)
  | sent (request : Request) (memory : Region UInt8)

/-! ## The programs -/

structure ClientProgram where
  /-- Whether so many arguments are no reason to print the usage. -/
  usage : Nat → Bool
  /-- Whether the session pipe is unlinked when the register pipe cannot be opened. -/
  unlinks : Bool
  /-- The code of the request, from `argv[3]` and an uninitialised variable. -/
  code : Region UInt8 → Option Nat → UInt8 → Outcome UInt8
  /-- Where in `argv` the box name is. -/
  boxName : Nat

def createText : CStr := ⟨"create".toUTF8.data.toList, by decide +kernel⟩
def removeText : CStr := ⟨"remove".toUTF8.data.toList, by decide +kernel⟩
def listText : CStr := ⟨"list".toUTF8.data.toList, by decide +kernel⟩

/-- The three comparisons of `manager.c`; another instruction leaves `code` as it is. -/
def instructionCode (m : Region UInt8) (instruction : Option Nat) (code : UInt8) :
    Outcome UInt8 := do
  match instruction with
  | none => fault
  | some a =>
    if ← strcmpEq m a createText then return Codes.cBox.val
    else if ← strcmpEq m a removeText then return Codes.rBox.val
    else if ← strcmpEq m a listText then return Codes.lBox.val
    else return code

def pub : ClientProgram where
  usage argc := argc == 4
  unlinks := false
  code _ _ _ := ok Codes.rPub.val
  boxName := 3

/-- `argc` is 3, and `argv[3]` is the box name. -/
def sub : ClientProgram where
  usage argc := argc == 3
  unlinks := true
  code _ _ _ := ok Codes.rSub.val
  boxName := 3

def manager : ClientProgram where
  usage argc := !(decide (argc < 3) || decide (5 < argc))
  unlinks := true
  code := instructionCode
  boxName := 4

namespace ClientProgram

/-- A `send_request` of pointers, one of which may be NULL: `strlen` dereferences both. -/
def send (m : Region UInt8) (code : UInt8) (sessionPipe boxName : Option Nat) (written : Int) :
    Outcome (Request × Region UInt8) :=
  match sessionPipe, boxName with
  | some p, some b => sendRequest m code p b written
  | _, _ => fault

def register (c : ClientProgram) (args : Args) (w : Setup) : Outcome Registered := do
  if !c.usage args.argc then return .returned 1 false
  else if w.signalError then return .returned 0 false -- exit(EXIT_SUCCESS)
  else if w.mkfifo = -1 ∧ w.errno = eExist then return .returned 1 false
  else if w.serverFifo = -1 then return .returned 1 c.unlinks
  else
    let code ← c.code args.memory (args.argv 3) w.code
    let (request, memory) ← send args.memory code (args.argv 2) (args.argv c.boxName) w.written
    return .sent request memory

/-- The checks of `main` pass. -/
def Passes (c : ClientProgram) (args : Args) (w : Setup) : Prop :=
  c.usage args.argc = true ∧ w.signalError = false ∧ ¬ (w.mkfifo = -1 ∧ w.errno = eExist) ∧
    w.serverFifo ≠ -1

end ClientProgram

/-! ## The request is never made -/

theorem copyField_isPanic (m : Region UInt8) (src : Option Nat) (n : Nat) :
    (copyField m src n).isPanic = false := by
  cases src with
  | none => rfl
  | some a => exact isPanic_bind (strncpyFrom_isPanic m a (n - 1)) fun bytes _ => by simp

theorem newRequest_isPanic (m : Region UInt8) (code : UInt8)
    (sessionPipeName boxName : Option Nat) (returnCode : Int) (errorMessage : Option Nat) :
    (newRequest m code sessionPipeName boxName returnCode errorMessage).isPanic = false := by
  refine isPanic_bind (copyField_isPanic _ _ _) fun sessionPipe _ => ?_
  refine isPanic_bind (copyField_isPanic _ _ _) fun box _ => ?_
  exact isPanic_bind (copyField_isPanic _ _ _) fun message _ => by simp

theorem backfill_isPanic (m : Region UInt8) (s max : Nat) :
    (backfill m s max).isPanic = false := by
  refine isPanic_bind (strlen_isPanic m s) fun n _ => ?_
  split
  · exact memset_isPanic _ _ _ _
  · simp

/-- `send_request` gets as far as the copy of its error message, at most. -/
theorem sendRequest_fault (m : Region UInt8) (code : UInt8) (p b : Nat) (written : Int) :
    sendRequest m code p b written = fault := by
  have hrequest : ∀ m, newRequest m code (some p) (some b) 0 none = fault := by
    intro m
    exact eq_fault (newRequest_isPanic _ _ _ _ _ _) fun request => newRequest_null _ _ _ _ _ request
  refine eq_fault ?_ ?_
  · refine isPanic_bind (isPanic_bind (backfill_isPanic _ _ _) fun m' _ => backfill_isPanic _ _ _) ?_
    intro m' _
    rw [hrequest, fault_bind]
    rfl
  · intro r h
    obtain ⟨m', -, h⟩ := (bind_eq_ok _ _ _).mp h
    rw [hrequest, fault_bind] at h
    cases h

theorem instructionCode_isPanic (m : Region UInt8) (instruction : Option Nat) (code : UInt8) :
    (instructionCode m instruction code).isPanic = false := by
  cases instruction with
  | none => rfl
  | some a =>
    refine isPanic_bind (strcmpEq_isPanic m a _) fun create _ => ?_
    split
    · simp
    · refine isPanic_bind (strcmpEq_isPanic m a _) fun remove _ => ?_
      split
      · simp
      · refine isPanic_bind (strcmpEq_isPanic m a _) fun list _ => ?_
        split
        · simp
        · simp

namespace ClientProgram

theorem send_fault (m : Region UInt8) (code : UInt8) (sessionPipe boxName : Option Nat)
    (written : Int) : send m code sessionPipe boxName written = fault := by
  cases sessionPipe with
  | none => rfl
  | some p =>
    cases boxName with
    | none => rfl
    | some b => exact sendRequest_fault m code p b written

/-- With its checks passed, a client whose code fails no assertion goes no further. -/
theorem register_passes {c : ClientProgram} {args : Args} {w : Setup}
    (hc : (c.code args.memory (args.argv 3) w.code).isPanic = false) (h : c.Passes args w) :
    c.register args w = fault := by
  obtain ⟨husage, hsignal, hmkfifo, hopen⟩ := h
  unfold register
  rw [if_neg (by simp [husage]), if_neg (by simp [hsignal]), if_neg hmkfifo, if_neg hopen]
  refine eq_fault (isPanic_bind hc fun code _ => ?_) fun r hr => ?_
  · rw [send_fault, fault_bind]
    rfl
  · obtain ⟨code, -, hr⟩ := (bind_eq_ok _ _ _).mp hr
    rw [send_fault, fault_bind] at hr
    cases hr

theorem register_checks {c : ClientProgram} {args : Args} {w : Setup} (h : ¬ c.Passes args w) :
    ∃ ret unlinked, c.register args w = ok (.returned ret unlinked) ∧ (ret = 0 ∨ ret = 1) := by
  unfold register
  by_cases husage : c.usage args.argc = true
  · rw [if_neg (by simp [husage])]
    cases hsignal : w.signalError with
    | true => exact ⟨0, false, by simp, Or.inl rfl⟩
    | false =>
      by_cases hmkfifo : w.mkfifo = -1 ∧ w.errno = eExist
      · exact ⟨1, false, by simp [hmkfifo], Or.inr rfl⟩
      · by_cases hopen : w.serverFifo = -1
        · exact ⟨1, c.unlinks, by simp [hmkfifo, hopen], Or.inr rfl⟩
        · exact absurd ⟨husage, hsignal, hmkfifo, hopen⟩ h
  · exact ⟨1, false, by simp [husage], Or.inr rfl⟩

end ClientProgram

theorem code_isPanic {c : ClientProgram} (hc : c ∈ [pub, sub, manager]) (m : Region UInt8)
    (argument : Option Nat) (code : UInt8) : (c.code m argument code).isPanic = false := by
  simp only [List.mem_cons, List.not_mem_nil, or_false] at hc
  rcases hc with rfl | rfl | rfl
  · rfl
  · rfl
  · exact instructionCode_isPanic m argument code

/-- Each of the clients returns from its checks, or ends in undefined behaviour before it has
written a request. -/
theorem register_ends {c : ClientProgram} (hc : c ∈ [pub, sub, manager]) (args : Args)
    (w : Setup) : (∃ ret unlinked, c.register args w = ok (.returned ret unlinked) ∧
        (ret = 0 ∨ ret = 1) ∧ ¬ c.Passes args w) ∨
      c.register args w = fault ∧ c.Passes args w := by
  by_cases h : c.Passes args w
  · exact Or.inr ⟨ClientProgram.register_passes (code_isPanic hc _ _ _) h, h⟩
  · obtain ⟨ret, unlinked, hr, hret⟩ := ClientProgram.register_checks h
    exact Or.inl ⟨ret, unlinked, hr, hret, h⟩

theorem register_unsent {c : ClientProgram} (hc : c ∈ [pub, sub, manager]) (args : Args)
    (w : Setup) (request : Request) (memory : Region UInt8) :
    c.register args w ≠ ok (.sent request memory) := by
  intro h
  rcases register_ends hc args w with ⟨ret, unlinked, hr, -⟩ | ⟨hr, -⟩
  · rw [hr] at h
    cases h
  · rw [hr] at h
    cases h

end Mbroker
