import Mbroker.Lib.Words
import Mbroker.Utils.Wire

/-!
# The format of a request

`struct request` and its bytes are the same thing: with an `int` and a pointer that fit
(`WireRequest`), a structure comes back from its bytes whatever is in the padding, and
any bytes of its size are those of a structure.

    format_stream    : whole structures come back from a pipe, and all that comes are structures
    newRequest_reads : the names and the message of a request come back as strings, cut off
      to what the fields hold
-/

namespace Mbroker

open CLib Outcome

/-! ## Structures and bytes -/

/-- A request whose `int32_t` and pointer are as C has them. -/
structure WireRequest extends Request where
  int : -2 ^ 31 ≤ returnCode ∧ returnCode < 2 ^ 31
  pointer : ∀ p, boxa = some p → 0 < p ∧ p < 2 ^ 64

namespace RawRequest

/-- The bytes of `boxa`. -/
def boxaBytes (r : RawRequest) : List UInt8 := (List.range 8).map fun k => r.byte (atBoxa + k)

theorem boxa_eq (r : RawRequest) :
    r.boxa = if wordAt r.boxaBytes = 0 then none else some (wordAt r.boxaBytes) := by
  unfold boxa boxaBytes wordAt
  rw [List.foldr_map]

theorem boxa_lt (r : RawRequest) : wordAt r.boxaBytes < 2 ^ 64 := by
  have hlen : r.boxaBytes.length = 8 := by
    unfold boxaBytes
    rw [List.length_map, List.length_range]
  have hlt := wordAt_lt r.boxaBytes
  rw [hlen] at hlt
  omega

theorem returnCode_bounds (r : RawRequest) :
    -2 ^ 31 ≤ r.returnCode ∧ r.returnCode < 2 ^ 31 := by
  unfold returnCode intAt
  exact intOfBytes_bounds _ _ _ _

theorem byte_of_lt (r : RawRequest) (i : Fin sizeofRequest) : r.byte i = r i := by
  unfold byte
  rw [dif_pos i.2]

/-- The structure with these bytes. -/
def decode (r : RawRequest) : WireRequest where
  code := r.code
  sessionPipe i := r.byte (atSessionPipe + i)
  boxName i := r.byte (atBoxName + i)
  returnCode := r.returnCode
  errorMessage i := r.byte (atErrorMessage + i)
  boxa := r.boxa
  int := r.returnCode_bounds
  pointer p hp := by
    rw [boxa_eq] at hp
    split at hp
    · cases hp
    · next hne =>
      rw [← Option.some.inj hp]
      exact ⟨Nat.pos_of_ne_zero hne, r.boxa_lt⟩

@[simp] theorem decode_code (r : RawRequest) : r.decode.code = r.code := rfl
@[simp] theorem decode_sessionPipe (r : RawRequest) (i : Fin maxPipeName) :
    r.decode.sessionPipe i = r.byte (atSessionPipe + i) := rfl
@[simp] theorem decode_boxName (r : RawRequest) (i : Fin maxBoxName) :
    r.decode.boxName i = r.byte (atBoxName + i) := rfl
@[simp] theorem decode_returnCode (r : RawRequest) : r.decode.returnCode = r.returnCode := by
  simp only [decode]
@[simp] theorem decode_errorMessage (r : RawRequest) (i : Fin maxMessage) :
    r.decode.errorMessage i = r.byte (atErrorMessage + i) := rfl
@[simp] theorem decode_boxa (r : RawRequest) : r.decode.boxa = r.boxa := by
  simp only [decode]

end RawRequest

/-! ## The bytes of the fields -/

section
variable (r : Request) (pad : Nat → UInt8) {k : Nat}

/-- Where the fields begin. -/
theorem request_layout : atSessionPipe = 1 ∧ atBoxName = 258 ∧ atReturnCode = 292 ∧
    atErrorMessage = 296 ∧ atBoxa = 1328 ∧ sizeofRequest = 1336 ∧ maxPipeName = 257 ∧
    maxBoxName = 33 ∧ maxMessage = 1025 := by decide

theorem byte_raw {i : Nat} (hi : i < sizeofRequest) :
    (RawRequest.byte (r.raw pad) i) = r.raw pad ⟨i, hi⟩ := RawRequest.byte_of_lt (r.raw pad) ⟨i, hi⟩

theorem byte_sessionPipe (hk : k < maxPipeName) :
    (r.raw pad).byte (atSessionPipe + k) = r.sessionPipe ⟨k, hk⟩ := by
  have hlayout := request_layout
  rw [byte_raw r pad (by omega)]
  unfold Request.raw
  rw [if_neg (by simp only; omega), dif_pos (by simp only; omega)]
  exact congrArg r.sessionPipe (Fin.ext (Nat.add_sub_cancel_left _ _))

theorem byte_boxName (hk : k < maxBoxName) :
    (r.raw pad).byte (atBoxName + k) = r.boxName ⟨k, hk⟩ := by
  have hlayout := request_layout
  rw [byte_raw r pad (by omega)]
  unfold Request.raw
  rw [if_neg (by simp only; omega), dif_neg (by simp only; omega), dif_pos (by simp only; omega)]
  exact congrArg r.boxName (Fin.ext (Nat.add_sub_cancel_left _ _))

theorem byte_returnCode (hk : k < 4) :
    (r.raw pad).byte (atReturnCode + k) = intByte r.returnCode k := by
  have hlayout := request_layout
  rw [byte_raw r pad (by omega)]
  unfold Request.raw
  rw [if_neg (by simp only; omega), dif_neg (by simp only; omega), dif_neg (by simp only; omega),
    if_neg (by simp only; omega), if_pos (by simp only; omega)]
  exact congrArg (intByte r.returnCode) (Nat.add_sub_cancel_left _ _)

theorem byte_errorMessage (hk : k < maxMessage) :
    (r.raw pad).byte (atErrorMessage + k) = r.errorMessage ⟨k, hk⟩ := by
  have hlayout := request_layout
  rw [byte_raw r pad (by omega)]
  exact r.raw_errorMessage pad hk _

theorem byte_boxa (hk : k < 8) : (r.raw pad).byte (atBoxa + k) = wordByte (r.boxa.getD 0) k := by
  have hlayout := request_layout
  rw [byte_raw r pad (by omega)]
  unfold Request.raw
  rw [if_neg (by simp only; omega), dif_neg (by simp only; omega), dif_neg (by simp only; omega),
    if_neg (by simp only; omega), if_neg (by simp only; omega), dif_neg (by simp only; omega),
    if_neg (by simp only; omega)]
  exact congrArg (pointerByte r.boxa) (Nat.add_sub_cancel_left _ _)

theorem boxaBytes_raw : (r.raw pad).boxaBytes = (List.range 8).map (wordByte (r.boxa.getD 0)) :=
  List.map_congr_left fun _ hk => byte_boxa r pad (List.mem_range.mp hk)

theorem returnCode_raw (h : -2 ^ 31 ≤ r.returnCode ∧ r.returnCode < 2 ^ 31) :
    (r.raw pad).returnCode = r.returnCode := by
  have hbytes : (r.raw pad).returnCode =
      intAt (RawRequest.zero.memory.put atReturnCode 4 (intByte r.returnCode)) atReturnCode := by
    refine intAt_congr fun k hk => ?_
    rw [Region.put_cell_in _ _ (by omega), Nat.add_sub_cancel_left]
    exact byte_returnCode r pad hk
  rw [hbytes]
  exact intAt_put_self _ _ _ h

end

/-! ## Round trips -/

/-- The bytes of `return_code` are those it was read from. -/
theorem intByte_returnCode (r : RawRequest) {k : Nat} (hk : k < 4) :
    intByte r.returnCode k = r.byte (atReturnCode + k) := by
  unfold RawRequest.returnCode intAt
  rw [intByte_ofBytes _ _ _ _ k hk]
  match k, hk with
  | 0, _ => rfl
  | 1, _ => rfl
  | 2, _ => rfl
  | 3, _ => rfl

/-- So are the bytes of `boxa`. -/
theorem pointerByte_boxa (r : RawRequest) {k : Nat} (hk : k < 8) :
    pointerByte r.boxa k = r.byte (atBoxa + k) := by
  have hword : r.boxa.getD 0 = wordAt r.boxaBytes := by
    rw [RawRequest.boxa_eq]
    split
    · next hzero => exact hzero.symm
    · rfl
  have hlen : k < r.boxaBytes.length := by
    unfold RawRequest.boxaBytes
    rw [List.length_map, List.length_range]
    exact hk
  have hbyte := wordByte_at r.boxaBytes k hlen
  unfold pointerByte
  rw [hword]
  refine hbyte.trans ?_
  simp [RawRequest.boxaBytes]

/-- The padding does not matter. -/
theorem decode_raw (r : WireRequest) (pad : Nat → UInt8) : (r.raw pad).decode = r := by
  have hboxa : (r.raw pad).boxa = r.boxa := by
    have hword : wordAt (r.raw pad).boxaBytes = r.boxa.getD 0 := by
      rw [boxaBytes_raw, wordAt_bytes]
      refine Nat.mod_eq_of_lt ?_
      cases hp : r.boxa with
      | none => exact Nat.two_pow_pos 64
      | some p => exact (r.pointer p hp).2
    rw [RawRequest.boxa_eq, hword]
    cases hp : r.boxa with
    | none => rfl
    | some p => exact if_neg (Nat.ne_of_gt (r.pointer p hp).1)
  have hcode : (r.raw pad).code = r.code := rfl
  have hpipe : (fun i : Fin maxPipeName => (r.raw pad).byte (atSessionPipe + i)) = r.sessionPipe :=
    funext fun i => byte_sessionPipe r.toRequest pad i.2
  have hname : (fun i : Fin maxBoxName => (r.raw pad).byte (atBoxName + i)) = r.boxName :=
    funext fun i => byte_boxName r.toRequest pad i.2
  have hmessage : (fun i : Fin maxMessage => (r.raw pad).byte (atErrorMessage + i)) =
      r.errorMessage := funext fun i => byte_errorMessage r.toRequest pad i.2
  have hret := returnCode_raw r.toRequest pad r.int
  obtain ⟨⟨code, sessionPipe, boxName, returnCode, errorMessage, boxa⟩, int, pointer⟩ := r
  unfold RawRequest.decode
  simp only [hcode, hpipe, hname, hret, hmessage, hboxa]

/-- All bytes are those of a structure. -/
theorem raw_decode (r : RawRequest) : r.decode.raw r.byte = r := by
  have hlayout := request_layout
  funext i
  rw [← r.byte_of_lt i]
  obtain ⟨i, hi⟩ := i
  unfold Request.raw
  simp only [RawRequest.decode_code, RawRequest.decode_sessionPipe, RawRequest.decode_boxName,
    RawRequest.decode_returnCode, RawRequest.decode_errorMessage, RawRequest.decode_boxa]
  by_cases h₁ : i < atSessionPipe
  · have hzero : i = 0 := by omega
    subst hzero
    rw [if_pos h₁, r.byte_of_lt ⟨0, hi⟩]
    rfl
  rw [if_neg h₁]
  by_cases h₂ : i - atSessionPipe < maxPipeName
  · rw [dif_pos h₂, Nat.add_sub_cancel' (by omega)]
  rw [dif_neg h₂]
  by_cases h₃ : i - atBoxName < maxBoxName
  · rw [dif_pos h₃, Nat.add_sub_cancel' (by omega)]
  rw [dif_neg h₃]
  by_cases h₄ : i < atReturnCode
  · rw [if_pos h₄]
  rw [if_neg h₄]
  by_cases h₅ : i < atErrorMessage
  · rw [if_pos h₅, intByte_returnCode r (by omega), Nat.add_sub_cancel' (by omega)]
  rw [if_neg h₅]
  by_cases h₆ : i - atErrorMessage < maxMessage
  · rw [dif_pos h₆, Nat.add_sub_cancel' (by omega)]
  rw [dif_neg h₆]
  by_cases h₇ : i < atBoxa
  · rw [if_pos h₇]
  rw [if_neg h₇, pointerByte_boxa r (by omega), Nat.add_sub_cancel' (by omega)]

/-- The bytes of structures one behind the other, each with its padding. -/
def requestBytes (rs : List (WireRequest × (Nat → UInt8))) : List UInt8 :=
  rs.flatMap fun e => RawRequest.toList (e.1.raw e.2)

/-- A reader that reads structures gets those that were written, whatever is in their padding; and
whatever whole structures it gets, they are those of some writer. -/
theorem format_stream (rs : List (WireRequest × (Nat → UInt8))) (raws : List RawRequest)
    (k : Nat) (request : RawRequest) :
    (readBack (rs.length + k) request (requestBytes rs)).map RawRequest.decode =
        rs.map Prod.fst ∧
      ∃ rs', requestBytes rs' = raws.flatMap RawRequest.toList ∧
        rs'.map Prod.fst = raws.map RawRequest.decode := by
  constructor
  · have hwhole := readBack_whole (rs.map fun e => e.1.raw e.2) (rs.length + k)
      (by rw [List.length_map]; omega) request
    rw [List.flatMap_map] at hwhole
    unfold requestBytes
    rw [hwhole, List.map_map]
    exact List.map_congr_left fun e _ => decode_raw e.1 e.2
  · refine ⟨raws.map fun r => (r.decode, r.byte), ?_, ?_⟩
    · unfold requestBytes
      rw [List.flatMap_map]
      exact congrArg raws.flatMap (funext fun r => congrArg RawRequest.toList (raw_decode r))
    · rw [List.map_map]
      rfl

/-! ## What `newRequest` makes -/

section
variable {m : Region UInt8} {a : Nat} {s : CStr}

theorem getD_pad (xs : List UInt8) (n i : Nat) :
    ((xs ++ List.replicate n 0).take n).getD i 0 = (xs.take n).getD i 0 := by
  simp only [List.getD_eq_getElem?_getD, List.getElem?_take, List.getElem?_append,
    List.getElem?_replicate]
  split
  · split
    · rfl
    · next hi =>
      rw [List.getElem?_eq_none (by omega)]
      split
      · rfl
      · rfl
  · rfl

/-- A field gets the string, or as much of it as leaves room for the NUL. -/
theorem copyField_eq (h : HasString m a s) (n : Nat) :
    copyField m (some a) n = ok (padded (s.first (n - 1)) n) := by
  unfold copyField
  simp only [h.strncpyFrom, ok_bind, pure_eq, ok.injEq]
  funext i
  exact getD_pad s.toList (n - 1) i

/-- Such a field reads as the string. -/
theorem cstr_field {r : RawRequest} {start n : Nat} (hn : s.strlen < n)
    (h : ∀ k (hk : k < n), r.byte (start + k) = padded s n ⟨k, hk⟩) :
    cstr r.memory start n = s.toList := by
  have hcell : ∀ k, k < n → r.memory.cell (start + k) =
      (RawRequest.zero.memory.put start n fun k => s.toList.getD k 0).cell (start + k) := by
    intro k hk
    rw [Region.put_cell_in _ _ (by omega), Nat.add_sub_cancel_left]
    exact h k hk
  rw [cstr_congr hcell]
  exact cstr_put_pad _ _ _ s hn

theorem first_strlen (s : CStr) {n : Nat} (hn : 0 < n) : (s.first (n - 1)).strlen < n := by
  have hlen : (s.toList.take (n - 1)).length ≤ n - 1 := List.length_take_le _ _
  show (s.toList.take (n - 1)).length < n
  omega

end

/-- What a reader finds in a request from `newRequest`. -/
structure ReadsAs (raw : RawRequest) (code : UInt8) (pipe box : CStr) (returnCode : Int)
    (message : CStr) : Prop where
  code : raw.code = code
  sessionPipe : cstr raw.memory atSessionPipe maxPipeName = pipe.toList.take 256
  boxName : cstr raw.memory atBoxName maxBoxName = box.toList.take 32
  returnCode : raw.returnCode = returnCode
  errorMessage : cstr raw.memory atErrorMessage maxMessage = message.toList.take 1024
  boxa : raw.boxa = none

/-- A request of three strings is made, and its bytes read as what it was made of, with names and
message cut off to 256, 32 and 1024 bytes. -/
theorem newRequest_reads {m : Region UInt8} {p b e : Nat} {pipe box message : CStr}
    (hpipe : HasString m p pipe) (hbox : HasString m b box) (hmessage : HasString m e message)
    (code : UInt8) {returnCode : Int} (hret : -2 ^ 31 ≤ returnCode ∧ returnCode < 2 ^ 31) :
    ∃ request, newRequest m code (some p) (some b) returnCode (some e) = ok request ∧
      ∀ pad, ReadsAs (request.raw pad) code pipe box returnCode message := by
  have hlayout := request_layout
  have hrequest : newRequest m code (some p) (some b) returnCode (some e) =
      ok { code := code, sessionPipe := padded (pipe.first (maxPipeName - 1)) maxPipeName,
           boxName := padded (box.first (maxBoxName - 1)) maxBoxName, returnCode := returnCode,
           errorMessage := padded (message.first (maxMessage - 1)) maxMessage, boxa := none } := by
    unfold newRequest
    simp only [copyField_eq hpipe, copyField_eq hbox, copyField_eq hmessage, ok_bind, pure_eq]
  refine ⟨_, hrequest, fun pad => ?_⟩
  refine
    { code := rfl
      sessionPipe := cstr_field (first_strlen pipe (by omega)) fun k hk => ?_
      boxName := cstr_field (first_strlen box (by omega)) fun k hk => ?_
      returnCode := returnCode_raw _ pad hret
      errorMessage := cstr_field (first_strlen message (by omega)) fun k hk => ?_
      boxa := ?_ }
  · exact byte_sessionPipe _ pad hk
  · exact byte_boxName _ pad hk
  · exact byte_errorMessage _ pad hk
  · rw [RawRequest.boxa_eq, boxaBytes_raw, wordAt_bytes]
    rfl

/-- `"p"`, `"b"` and `"b"` again for the message. -/
theorem newRequest_reads_argv : ∃ request,
    newRequest argv 9 (some 4096) (some 4098) (-1) (some 4098) = ok request ∧
      ∀ pad, ReadsAs (request.raw pad) 9 ⟨[112], by simp⟩ ⟨[98], by simp⟩ (-1) ⟨[98], by simp⟩ :=
  newRequest_reads ⟨by decide, by decide, by decide⟩ ⟨by decide, by decide, by decide⟩
    ⟨by decide, by decide, by decide⟩ 9 (by decide)

end Mbroker
