import Mbroker.Lib.Heap
import Mbroker.Lib.Loop
import Mbroker.Utils.Request

/-!
# The list of boxes

The linked list of `utils/utility_funcs.c`: nodes on a heap, and a `box *head`, which is
null or the place of a pointer to the first node.  A node's `box_name` ends within its
field (`BoxName`); a name that `strcpy` would carry past the field is `fault`.

`find_box` lacks the comparison with 0 behind `strcmp`: it returns the first box with
*another* name (`findBox_ends`).
-/

namespace Mbroker

open CLib Outcome

def defaultBoxSize : UInt64 := 1024

/-- A string that fits `char box_name[MAX_BOX_NAME]`. -/
structure BoxName where
  str : CStr
  fits : str.strlen < maxBoxName
deriving DecidableEq

/-- `BOX` -/
structure BoxNode where
  boxName : BoxName
  last : UInt8
  boxSize : UInt64
  nPublishers : UInt64
  nSubscribers : UInt64
  next : Option Nat
deriving DecidableEq

/-- The boxes of a list, each with its address. -/
abbrev BoxList (nodes : Heap BoxNode) (first : Option Nat) (boxes : List (Nat × BoxNode)) : Prop :=
  Chain BoxNode.next nodes first boxes

/-- The sign of `strcmp`. -/
def strcmp : List UInt8 → List UInt8 → Ordering
  | [], [] => .eq
  | [], _ :: _ => .lt
  | _ :: _, [] => .gt
  | x :: xs, y :: ys => if x < y then .lt else if y < x then .gt else strcmp xs ys

def BoxName.strcmp (a b : BoxName) : Ordering := Mbroker.strcmp a.str.toList b.str.toList

/-! ## The functions -/

/-- `newBox_b`; `addr` is what `malloc` returns. -/
def newBoxB (nodes : Heap BoxNode) (addr : Option Nat) (name : CStr) (last : UInt8)
    (boxSize nPublishers nSubscribers : UInt64) : Outcome (Nat × Heap BoxNode) :=
  match addr with
  | none => fault
  | some p =>
    if fits : name.strlen < maxBoxName then
      let newBox := ⟨⟨name, fits⟩, last, boxSize, nPublishers, nSubscribers, none⟩
      ok (p, Function.update nodes p (some newBox))
    else fault

/-- Where `insertion_sort` stops: `current`. -/
def insertPlace (nodes : Heap BoxNode) (newBox : BoxNode) (current : Option Nat) :
    Outcome (Option Nat ⊕ Option Nat) := do
  let node ← nodes.load current
  match node.next with
  | none => return .inr current
  | some p =>
    let next ← nodes.load (some p)
    if next.boxName.strcmp newBox.boxName = .lt then return .inl node.next
    else return .inr current

/-- `*head == NULL || strcmp((*head)->box_name, newBox->box_name) >= 0` -/
def insertsFirst (nodes : Heap BoxNode) (newBox : BoxNode) (first : Option Nat) : Outcome Bool :=
  match first with
  | none => ok true
  | some p => do
    let node ← nodes.load (some p)
    return decide (node.boxName.strcmp newBox.boxName ≠ .lt)

def insertionSort (fuel : Nat) (nodes : Heap BoxNode) (head : Option (Option Nat))
    (newBox : Nat) : Bounded (Heap BoxNode × Option (Option Nat)) := do
  match head with
  | none => (fault : Outcome _)
  | some first =>
    let new ← nodes.load (some newBox)
    if ← insertsFirst nodes new first then
      let nodes ← nodes.store (some newBox) { new with next := first }
      return (nodes, some (some newBox))
    else
      let current ← loop (insertPlace nodes new) fuel first
      let node ← nodes.load current
      let nodes ← nodes.store (some newBox) { new with next := node.next }
      let node ← nodes.load current
      let nodes ← nodes.store current { node with next := some newBox }
      return (nodes, head)

/-- `box_name` is the string at `boxName` in `m`. -/
def findStep (nodes : Heap BoxNode) (m : Region UInt8) (boxName : Nat) (aux : Option Nat) :
    Outcome (Option Nat ⊕ Option Nat) := do
  match aux with
  | none => return .inr none
  | some p =>
    let node ← nodes.load (some p)
    -- the source tests `strcmp(…)`, not `strcmp(…) == 0`
    if !(← strcmpEq m boxName node.boxName.str) then return .inr (some p)
    else return .inl node.next

def findBox (fuel : Nat) (nodes : Heap BoxNode) (head : Option (Option Nat)) (m : Region UInt8)
    (boxName : Nat) : Bounded (Option Nat) :=
  match head with
  | none => pure none
  | some first => loop (findStep nodes m boxName) fuel first

/-- `aux` stays where it is. -/
def removeStep (nodes : Heap BoxNode) (m : Region UInt8) (boxName : Nat) (aux : Option Nat) :
    Outcome (Option Nat ⊕ (Bool × Heap BoxNode)) := do
  match aux with
  | none => return .inr (false, nodes)
  | some p =>
    let node ← nodes.load (some p)
    let next ← nodes.load node.next
    if ← strcmpEq m boxName next.boxName.str then
      let nodes ← nodes.store aux { node with next := next.next }
      return .inr (true, nodes)
    else return .inl aux

def removeBox (fuel : Nat) (nodes : Heap BoxNode) (head : Option (Option Nat)) (m : Region UInt8)
    (boxName : Nat) : Bounded (Bool × Heap BoxNode × Option (Option Nat)) := do
  match head with
  | none => (fault : Outcome _)
  | some first =>
    let node ← nodes.load first
    if ← strcmpEq m boxName node.boxName.str then return (true, nodes, some node.next)
    else
      let (success, nodes) ← loop (removeStep nodes m boxName) fuel first
      return (success, nodes, head)

/-! ## What `find_box` returns -/

/-- The first box with another name than `name`. -/
def otherBox (name : CStr) (boxes : List (Nat × BoxNode)) : Option (Nat × BoxNode) :=
  boxes.find? fun e => decide (e.2.boxName.str ≠ name)

section
variable {nodes : Heap BoxNode} {first : Option Nat} {boxes : List (Nat × BoxNode)}
  {m : Region UInt8} {a : Nat} {name : CStr}

theorem findStep_box {p : Nat} {node : BoxNode} (hm : HasString m a name)
    (hp : nodes p = some node) : findStep nodes m a (some p) =
      if node.boxName.str ≠ name then ok (.inr (some p)) else ok (.inl node.next) := by
  simp only [findStep, Heap.load_ok hp, hm.strcmpEq, ok_bind, pure_eq]
  by_cases h : name = node.boxName.str
  · simp [h]
  · simp [h, Ne.symm h]

/-- With enough fuel `find_box` ends; with less it is still on its way. -/
theorem findBox_ends (hm : HasString m a name) (hl : BoxList nodes first boxes) (fuel : Nat) :
    (boxes.length < fuel → findBox fuel nodes (some first) m a =
      .done (ok ((otherBox name boxes).map Prod.fst))) ∧
    ∀ x, findBox fuel nodes (some first) m a = .done x →
      x = ok ((otherBox name boxes).map Prod.fst) := by
  show (boxes.length < fuel → loop (findStep nodes m a) fuel first = .done _) ∧
    ∀ x, loop (findStep nodes m a) fuel first = .done x → _
  induction boxes generalizing first fuel with
  | nil =>
    rw [show first = none from hl]
    cases fuel with
    | zero => exact ⟨fun h => absurd h (Nat.lt_irrefl 0), fun x hx => by cases hx⟩
    | succ fuel =>
      have hleave : findStep nodes m a none = ok (.inr none) := rfl
      rw [loop_leave hleave]
      exact ⟨fun _ => rfl, fun x hx => by cases hx; rfl⟩
  | cons e boxes ih =>
    obtain ⟨p, node⟩ := e
    obtain ⟨rfl, hp, hrest⟩ := hl
    have hstep := findStep_box hm hp
    cases fuel with
    | zero => exact ⟨fun h => by simp at h, fun x hx => by cases hx⟩
    | succ fuel =>
      by_cases hname : node.boxName.str ≠ name
      · rw [if_pos hname] at hstep
        have hother : otherBox name ((p, node) :: boxes) = some (p, node) :=
          List.find?_cons_of_pos (by simpa using hname)
        rw [loop_leave hstep, hother]
        exact ⟨fun _ => rfl, fun x hx => by cases hx; rfl⟩
      · rw [if_neg hname] at hstep
        have hother : otherBox name ((p, node) :: boxes) = otherBox name boxes :=
          List.find?_cons_of_neg (by simpa using hname)
        rw [loop_next hstep, hother]
        obtain ⟨hends, honly⟩ := ih hrest fuel
        exact ⟨fun h => hends (by simpa using h), honly⟩

theorem otherBox_some {e : Nat × BoxNode} (h : otherBox name boxes = some e) :
    e ∈ boxes ∧ e.2.boxName.str ≠ name :=
  ⟨List.mem_of_find?_eq_some h, by simpa using List.find?_some h⟩

end

end Mbroker
