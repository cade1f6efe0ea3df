import Mbroker.Utils.Request

/-!
# Requests as bytes

`struct request` as it lies in memory and goes through a pipe (LP64): the fields in the
order of the declaration, `return_code` at a multiple of 4 and `boxa` at a multiple of
8, with padding in front of both.  `readBack` is a reader that reads `sizeof(Request)`
bytes at a time into one buffer.

    readBack of the bytes of whole structures gives these structures    (readBack_whole)
-/

namespace Mbroker

open CLib Outcome

def atSessionPipe : Nat := 1
def atBoxName : Nat := atSessionPipe + maxPipeName
def atReturnCode : Nat := atBoxName + maxBoxName + 1
def atErrorMessage : Nat := atReturnCode + 4
def atBoxa : Nat := atErrorMessage + maxMessage + 7
def sizeofRequest : Nat := atBoxa + 8

/-- The bytes of a `Request`. -/
abbrev RawRequest : Type := CharArray sizeofRequest

namespace RawRequest

/-- `Request request = {0};` -/
def zero : RawRequest := fun _ => 0

def code (r : RawRequest) : UInt8 := r ⟨0, by decide⟩

def byte (r : RawRequest) (i : Nat) : UInt8 := if h : i < sizeofRequest then r ⟨i, h⟩ else 0

/-- The object `request`, its first byte at 0. -/
def memory (r : RawRequest) : Region UInt8 where
  isNull := false
  lo := 0
  hi := sizeofRequest
  cell := r.byte

def returnCode (r : RawRequest) : Int := intAt r.memory atReturnCode

/-- The pointer `boxa`: an address, or NULL. -/
def boxa (r : RawRequest) : Option Nat :=
  let p := (List.range 8).foldr (fun k p => (r.byte (atBoxa + k)).toNat + 256 * p) 0
  if p = 0 then none else some p

/-- `request` behind a `read` of `bytes`. -/
def overwrite (r : RawRequest) (bytes : List UInt8) : RawRequest := fun i => bytes.getD i (r i)

def toList (r : RawRequest) : List UInt8 := List.ofFn r

end RawRequest

/-- Byte `k` of a pointer. -/
def pointerByte (p : Option Nat) (k : Nat) : UInt8 := UInt8.ofNat (p.getD 0 / 256 ^ k)

/-- The bytes of a structure, with `pad` in the padding. -/
def Request.raw (r : Request) (pad : Nat → UInt8) : RawRequest := fun i =>
  if i < atSessionPipe then r.code
  else if h : i - atSessionPipe < maxPipeName then r.sessionPipe ⟨i - atSessionPipe, h⟩
  else if h : i - atBoxName < maxBoxName then r.boxName ⟨i - atBoxName, h⟩
  else if i < atReturnCode then pad i
  else if i < atErrorMessage then intByte r.returnCode (i - atReturnCode)
  else if h : i - atErrorMessage < maxMessage then r.errorMessage ⟨i - atErrorMessage, h⟩
  else if i < atBoxa then pad i
  else pointerByte r.boxa (i - atBoxa)

/-- What the buffer `request` holds behind each `read(fifo, &request, sizeof(request))`, until all
of `bytes` is read. -/
def readBack : Nat → RawRequest → List UInt8 → List RawRequest
  | 0, _, _ => []
  | n + 1, request, bytes =>
    if bytes = [] then []
    else
      let request := request.overwrite (bytes.take sizeofRequest)
      request :: readBack n request (bytes.drop sizeofRequest)

theorem Request.raw_errorMessage (r : Request) (pad : Nat → UInt8) {k : Nat} (hk : k < maxMessage)
    (hin : atErrorMessage + k < sizeofRequest) :
    r.raw pad ⟨atErrorMessage + k, hin⟩ = r.errorMessage ⟨k, hk⟩ := by
  have hfields : atSessionPipe ≤ atErrorMessage ∧ atSessionPipe + maxPipeName ≤ atErrorMessage ∧
      atBoxName + maxBoxName ≤ atErrorMessage ∧ atReturnCode ≤ atErrorMessage := by decide
  unfold Request.raw
  rw [if_neg (by simp only; omega), dif_neg (by simp only; omega), dif_neg (by simp only; omega),
    if_neg (by simp only; omega), if_neg (by simp only; omega), dif_pos (by simp only; omega)]
  exact congrArg r.errorMessage (Fin.ext (Nat.add_sub_cancel_left _ _))

theorem RawRequest.length_toList (r : RawRequest) : r.toList.length = sizeofRequest :=
  List.length_ofFn

theorem RawRequest.overwrite_toList (r r' : RawRequest) : r.overwrite r'.toList = r' := by
  funext i
  have hi : (i : Nat) < r'.toList.length := by rw [r'.length_toList]; exact i.2
  unfold overwrite
  rw [List.getD_eq_getElem?_getD, List.getElem?_eq_getElem hi, Option.getD_some]
  exact List.getElem_ofFn hi

theorem length_le_flatMap (rs : List RawRequest) :
    rs.length ≤ (rs.flatMap RawRequest.toList).length := by
  induction rs with
  | nil => exact Nat.le_refl 0
  | cons r rs ih =>
    have hpos : 0 < sizeofRequest := by decide
    rw [List.flatMap_cons, List.length_append, r.length_toList, List.length_cons]
    omega

/-- Whole structures come back as they were written. -/
theorem readBack_whole (rs : List RawRequest) (n : Nat) (hn : rs.length ≤ n)
    (request : RawRequest) : readBack n request (rs.flatMap RawRequest.toList) = rs := by
  induction rs generalizing n request with
  | nil =>
    cases n with
    | zero => rfl
    | succ n => rfl
  | cons r rs ih =>
    obtain ⟨n, rfl⟩ : ∃ k, n = k + 1 := ⟨n - 1, by simp at hn; omega⟩
    have hlen := r.length_toList
    have hne : r.toList ++ rs.flatMap RawRequest.toList ≠ [] := by
      intro h
      rw [List.append_eq_nil_iff] at h
      rw [h.1] at hlen
      exact absurd hlen (by decide)
    rw [List.flatMap_cons, readBack, if_neg hne, List.take_left' hlen, List.drop_left' hlen,
      request.overwrite_toList r]
    exact congrArg (r :: ·) (ih n (by simpa using hn) r)

end Mbroker
