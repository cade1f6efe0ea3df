import Mathlib.Data.Finmap
import Mbroker.Fs.Operations

/-!
# The abstract file store

What TécnicoFS is for: a finite map from names to bytes, and a table of open files,
each with the name it was opened under and an offset.  A name is the part of the path
behind the `/`.  `storeStep` makes one call; the flag `TFS_O_TRUNC` has no meaning here.
-/

namespace Mbroker

open CLib

structure OpenFile where
  name : CStr
  offset : Nat
deriving DecidableEq

structure Store where
  files : Finmap fun _ : CStr => List UInt8
  slots : List (Option OpenFile)

namespace Store

def init (p : TfsParams) : Store := ⟨∅, List.replicate p.maxOpenFilesCount none⟩

/-- The content of a file, empty when there is none. -/
def content (a : Store) (name : CStr) : List UInt8 := (a.files.lookup name).getD []

def nonEmpty (a : Store) : Finset CStr := a.files.keys.filter fun name => a.content name ≠ []

def slot (a : Store) (fhandle : Int) : Option OpenFile :=
  if 0 ≤ fhandle then a.slots[fhandle.toNat]?.join else none

def setSlot (a : Store) (fhandle : Int) (f : Option OpenFile) : Store :=
  { a with slots := a.slots.set fhandle.toNat f }

/-- The lowest free slot, if there is one. -/
def openSlot (a : Store) (f : OpenFile) : Int × Store :=
  match a.slots.findIdx? Option.isNone with
  | none => (-1, a)
  | some h => (h, a.setSlot h (some f))

/-- Whether there is room for a file `name`. -/
def canCreate (p : TfsParams) (a : Store) (name : CStr) : Bool :=
  decide (1 ≤ name.strlen ∧ name.strlen ≤ 39 ∧
    a.files.keys.card < min (p.maxInodeCount - 1) (p.blockSize / sizeofDirEntry))

def openFile (p : TfsParams) (a : Store) (name : CStr) (mode : UInt32) : Int × Store :=
  match a.files.lookup name with
  | some bytes => a.openSlot ⟨name, if hasFlag mode tfsOAppend then bytes.length else 0⟩
  | none =>
    if hasFlag mode tfsOCreat && a.canCreate p name then
      openSlot { a with files := a.files.insert name [] } ⟨name, 0⟩
    else (-1, a)

def write (p : TfsParams) (a : Store) (fhandle : Int) (f : OpenFile) (buffer : Nat → UInt8)
    (toWrite : Nat) : Int × Store :=
  let n := min toWrite (p.blockSize - f.offset)
  if a.content f.name = [] ∧ 0 < toWrite ∧ a.nonEmpty.card = p.maxBlockCount - 1 then (-1, a)
  else
    let bytes := overwrite (a.content f.name) f.offset ((List.range n).map buffer)
    (n, { a with files := a.files.insert f.name bytes }.setSlot fhandle
      (some { f with offset := f.offset + n }))

/-- The bytes that a read through `f` delivers. -/
def chunk (a : Store) (f : OpenFile) (len : Nat) : List UInt8 :=
  ((a.content f.name).drop f.offset).take len

theorem slot_setSlot_ne (a : Store) {fhandle fhandle' : Int} (f : Option OpenFile)
    (h0 : 0 ≤ fhandle) (h : fhandle' ≠ fhandle) :
    (a.setSlot fhandle f).slot fhandle' = a.slot fhandle' := by
  unfold slot setSlot
  split
  · rw [List.getElem?_set_ne (by omega)]
  · rfl

theorem slot_setSlot_self (a : Store) {fhandle : Int} (f : Option OpenFile)
    (h : 0 ≤ fhandle ∧ fhandle.toNat < a.slots.length) : (a.setSlot fhandle f).slot fhandle = f := by
  unfold slot setSlot
  rw [if_pos h.1, List.getElem?_set_self h.2]
  rfl

theorem slot_bounds {a : Store} {fhandle : Int} {f : OpenFile} (h : a.slot fhandle = some f) :
    0 ≤ fhandle ∧ fhandle.toNat < a.slots.length := by
  unfold slot at h
  split at h
  · next h0 =>
    rw [Option.join_eq_some_iff] at h
    exact ⟨h0, (List.getElem?_eq_some_iff.mp h).1⟩
  · cases h

/-- A new handle is one that was not open. -/
theorem openSlot_cases (a : Store) (f : OpenFile) :
    a.openSlot f = (-1, a) ∨ ∃ h : Nat, h < a.slots.length ∧ a.slot h = none ∧
      a.openSlot f = ((h : Int), a.setSlot h (some f)) := by
  unfold openSlot
  cases hi : a.slots.findIdx? Option.isNone with
  | none => exact Or.inl rfl
  | some h =>
    obtain ⟨hlt, hnone, -⟩ := List.findIdx?_eq_some_iff_getElem.mp hi
    refine Or.inr ⟨h, hlt, ?_, rfl⟩
    unfold slot
    rw [if_pos (by omega), Int.toNat_natCast, List.getElem?_eq_getElem hlt]
    simpa using hnone

/-- What a file holds, put in again, changes nothing. -/
theorem insert_self {files : Finmap fun _ : CStr => List UInt8} {name : CStr} {bytes : List UInt8}
    (h : files.lookup name = some bytes) : files.insert name bytes = files := by
  apply Finmap.ext_lookup
  intro x
  by_cases hx : x = name
  · rw [hx, Finmap.lookup_insert, h]
  · rw [Finmap.lookup_insert_of_ne _ hx]

theorem setSlot_self {a : Store} {fhandle : Int} {f : OpenFile} (h : a.slot fhandle = some f) :
    a.setSlot fhandle (some f) = a := by
  unfold slot at h
  split at h
  · rw [Option.join_eq_some_iff] at h
    have hset : a.slots.set fhandle.toNat (some f) = a.slots := by
      refine List.ext_getElem? (fun k => ?_)
      rw [List.getElem?_set]
      split
      · next hk =>
        subst hk
        rw [h, if_pos (List.getElem?_eq_some_iff.mp h).1]
      · rfl
    unfold setSlot
    rw [hset]
  · cases h

end Store

open Store

def storeStep (p : TfsParams) (a : Store) : Call → Ret × Store
  | .tfsOpen name mode =>
    match name with
    | none => (⟨-1, []⟩, a)
    | some path =>
      if validPathname (some path) then
        (⟨(a.openFile p path.tail mode).1, []⟩, (a.openFile p path.tail mode).2)
      else (⟨-1, []⟩, a)
  | .tfsClose fhandle =>
    match a.slot fhandle with
    | none => (⟨-1, []⟩, a)
    | some _ => (⟨0, []⟩, a.setSlot fhandle none)
  | .tfsWrite fhandle buffer toWrite =>
    match a.slot fhandle with
    | none => (⟨-1, []⟩, a)
    | some f => (⟨(a.write p fhandle f buffer toWrite).1, []⟩, (a.write p fhandle f buffer toWrite).2)
  | .tfsRead fhandle len =>
    match a.slot fhandle with
    | none => (⟨-1, []⟩, a)
    | some f => (⟨(a.chunk f len).length, a.chunk f len⟩,
        a.setSlot fhandle (some { f with offset := f.offset + (a.chunk f len).length }))
  | .tfsUnlink target =>
    match target with
    | none => (⟨-1, []⟩, a)
    | some path =>
      if validPathname (some path) ∧ path.tail ∈ a.files then
        (⟨0, []⟩, { a with files := a.files.erase path.tail })
      else (⟨-1, []⟩, a)

end Mbroker
