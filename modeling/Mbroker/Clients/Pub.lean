import Mbroker.Broker.Server

/-!
# `pub`

The message loop of `publisher/pub.c`.  It reads a line into `line` and sends `message`,
which nothing ever fills, and makes its request from NULL names; of the request it
would write as many bytes as `message` is long.

    agrees_whole : whole requests, one for each line, decode to the lines
    pub_agrees_iff : what `pub` writes does only if there is no line
-/

namespace Mbroker

open CLib Outcome

/-! ## The loop -/

/-- The variables of the loop; `stream` is what is in the session pipe. -/
structure Pub where
  stdin : List UInt8
  line : Region UInt8
  message : Region UInt8
  sessionEnd : Bool
  stream : List UInt8

/-- The bytes up to the first newline, at most `n`, and the rest. -/
def takeLine : Nat → List UInt8 → List UInt8 × List UInt8
  | 0, bytes => ([], bytes)
  | _ + 1, [] => ([], [])
  | n + 1, c :: bytes =>
    if c = 10 then ([c], bytes)
    else
      let (line, rest) := takeLine n bytes
      (c :: line, rest)

/-- `fgets(line, n, stdin)`; `none` is NULL. -/
def fgets (line : Region UInt8) (n : Nat) (stdin : List UInt8) :
    Outcome (Option (Region UInt8) × List UInt8) := do
  if stdin = [] then return (none, [])
  else
    let (bytes, rest) := takeLine (n - 1) stdin
    let line ← line.fill 0 (bytes.length + 1) fun k => bytes.getD k 0
    return (some line, rest)

namespace Pub

/-- Up to the end of the input; `failed` is `ferror(stdin)` there. -/
def getLine (p : Pub) (failed : Bool) : Outcome Pub := do
  match ← fgets p.line (1 + maxMessage) p.stdin with
  | (some line, stdin) => return { p with line, stdin }
  | (none, _) =>
    if failed then panic "Failed to read from user input."
    else return { p with sessionEnd := true }

/-- `write(session_fifo, &r, len)`; `writes` says what it returns behind so many bytes. -/
def write (p : Pub) (r : RawRequest) (len : Nat) (writes : Nat → Int) : Outcome Pub :=
  if sizeofRequest < len then fault
  else if writes p.stream.length < 0 then panic "Write failed."
  else ok { p with stream := p.stream ++ r.toList.take len }

/-- One round of the loop. -/
def step (failed : Bool) (pad : Nat → UInt8) (writes : Nat → Int) (p : Pub) :
    Outcome (Pub ⊕ Pub) := do
  if p.sessionEnd then return .inr p
  else
    let p ← p.getLine failed
    let len ← strlen p.message 1
    let message ← if len < maxMessage then padMessage p.message len else ok p.message
    let r ← messageRequest message .mPub 0
    let p ← { p with message }.write (r.raw pad) len writes
    return .inl p

/-- In front of the loop, with `lines` to come; `line` and `message` hold anything. -/
def start (lines : List CStr) (line message : Nat → UInt8) : Pub where
  stdin := lines.flatMap fun l => l.toList ++ [10]
  line := { isNull := false, lo := 0, hi := 1 + maxMessage, cell := line }
  message := { isNull := false, lo := 1, hi := 1 + maxMessage, cell := message }
  sessionEnd := false
  stream := []

end Pub

/-! ## Messages in the stream -/

/-- A message that the broker reads: its code and its text. -/
def RawRequest.received (r : RawRequest) : UInt8 × List UInt8 :=
  (r.code, cstr r.memory atErrorMessage maxMessage)

/-- Read request by request, the stream is one message for each line. -/
def Agrees (lines : List CStr) (stream : List UInt8) : Prop :=
  (readBack stream.length RawRequest.zero stream).map RawRequest.received =
    lines.map fun l => (Codes.mPub.val, l.toList)

/-- The message of a line. -/
def lineRequest (l : CStr) : Request where
  code := Codes.mPub.val
  sessionPipe _ := 0
  boxName _ := 0
  returnCode := 0
  errorMessage := padded l maxMessage
  boxa := none

theorem lineRequest_received (pad : Nat → UInt8) {l : CStr} (hl : l.strlen < maxMessage) :
    ((lineRequest l).raw pad).received = (Codes.mPub.val, l.toList) := by
  have hcell : ∀ k, k < maxMessage →
      ((lineRequest l).raw pad).memory.cell (atErrorMessage + k) =
        (RawRequest.zero.memory.put atErrorMessage maxMessage fun k => l.toList.getD k 0).cell
          (atErrorMessage + k) := by
    intro k hk
    rw [Region.put_cell_in _ _ (by omega), Nat.add_sub_cancel_left]
    have hin : atErrorMessage + k < sizeofRequest := by
      have hfield : atErrorMessage + maxMessage ≤ sizeofRequest := by decide
      omega
    simp only [RawRequest.memory, RawRequest.byte, dif_pos hin]
    exact (lineRequest l).raw_errorMessage pad hk _
  have hcode : ((lineRequest l).raw pad).code = Codes.mPub.val := rfl
  have htext : cstr ((lineRequest l).raw pad).memory atErrorMessage maxMessage = l.toList := by
    rw [cstr_congr hcell]
    exact cstr_put_pad _ _ _ l hl
  rw [RawRequest.received, hcode, htext]

/-- Whole requests, one for each line, are what the broker can read. -/
theorem agrees_whole (pad : Nat → UInt8) {lines : List CStr}
    (hlines : ∀ l ∈ lines, l.strlen < maxMessage) :
    Agrees lines ((lines.map fun l => (lineRequest l).raw pad).flatMap RawRequest.toList) := by
  have hlen : (lines.map fun l => (lineRequest l).raw pad).length ≤
      ((lines.map fun l => (lineRequest l).raw pad).flatMap RawRequest.toList).length :=
    length_le_flatMap _
  unfold Agrees
  rw [readBack_whole _ _ hlen, List.map_map]
  refine List.map_congr_left fun l hl => ?_
  exact lineRequest_received pad (hlines l hl)

/-! ## What `pub` writes -/

section
variable {failed : Bool} {pad : Nat → UInt8} {writes : Nat → Int}

/-- The body of the loop never gets to its end: the request cannot be made. -/
theorem pub_step_ok {p : Pub} {r : Pub ⊕ Pub} (h : p.step failed pad writes = ok r) :
    p.sessionEnd = true ∧ r = .inr p := by
  unfold Pub.step at h
  split at h
  · next hend =>
    cases h
    exact ⟨hend, rfl⟩
  · simp only [messageRequest_fault] at h
    obtain ⟨p₁, -, h⟩ := (bind_eq_ok _ _ _).mp h
    obtain ⟨len, -, h⟩ := (bind_eq_ok _ _ _).mp h
    split at h
    · obtain ⟨message, -, h⟩ := (bind_eq_ok _ _ _).mp h
      cases h
    · cases h

theorem pub_step_next (p p' : Pub) : p.step failed pad writes ≠ ok (.inl p') := by
  intro h
  cases (pub_step_ok h).2

/-- Not even when the input has ended does `pub` leave the loop. -/
theorem pub_never_ends (fuel : Nat) (lines : List CStr) (line message : Nat → UInt8) (p : Pub) :
    loop (Pub.step failed pad writes) fuel (Pub.start lines line message) ≠ .done (ok p) := by
  intro h
  obtain ⟨p₁, hp₁, hleave⟩ := loop_ends (fun p => p.sessionEnd = false)
    (fun p p' _ hs => (pub_step_next p p' hs).elim) rfl h
  rw [(pub_step_ok hleave).1] at hp₁
  cases hp₁

/-- What `pub` writes until it stops decodes to its lines exactly if there are none. -/
theorem pub_agrees_iff (lines : List CStr) (line message : Nat → UInt8) (failed : Bool)
    (pad : Nat → UInt8) (writes : Nat → Int) :
    (∃ p, Stops (Pub.step failed pad writes) (Pub.start lines line message) p ∧
      Agrees lines p.stream) ↔ lines = [] := by
  constructor
  · rintro ⟨p, hstops, hagrees⟩
    rw [(stops_first (pub_step_next _)).mp hstops] at hagrees
    have hlen := congrArg List.length hagrees
    rw [List.length_map, List.length_map] at hlen
    exact List.length_eq_zero_iff.mp hlen.symm
  · rintro rfl
    exact ⟨_, (stops_first (pub_step_next _)).mpr rfl, rfl⟩

end

/-- The line `"hi"` is not sent. -/
theorem not_agrees_hi :
    ¬ ∀ (lines : List CStr) (line message : Nat → UInt8) (pad : Nat → UInt8) (writes : Nat → Int),
      (∀ l ∈ lines, l.strlen < maxMessage ∧ 10 ∉ l.toList) → (∀ n, 0 ≤ writes n) →
      ∃ p, Stops (Pub.step false pad writes) (Pub.start lines line message) p ∧
        Agrees lines p.stream := by
  intro hall
  obtain ⟨p, hstops, hagrees⟩ := hall [⟨[104, 105], by simp⟩] (fun _ => 0) (fun _ => 0) (fun _ => 0)
    (fun _ => 0) (by simp [CStr.strlen, maxMessage]) (fun _ => Int.le_refl 0)
  rw [(stops_first (pub_step_next _)).mp hstops] at hagrees
  cases hagrees

end Mbroker
