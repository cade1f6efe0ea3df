import Mbroker.Lib.CString

/-!
# Requests

`newRequest` and `send_request` of `utils/utility_funcs.c` over a flat process
memory, a `Region` of bytes; a pointer is an address or `none`, the null pointer.

`send_request` first zero-fills both strings of its caller up to the size of the
request's fields.  `backfillNames_intact`: that leaves the caller's memory alone
only where the bytes behind both strings are zeros already; `backfillNames_argv`:
with the box name right behind the pipe name, as in `argv`, the box name is lost.
It then copies an error message from the null pointer.
-/

namespace Mbroker

open CLib Outcome

/-! ## The request -/

def maxPipeName : Nat := 256 + 1
def maxBoxName : Nat := 32 + 1
def maxMessage : Nat := 1024 + 1

/-- `char field[n]`. -/
abbrev CharArray (n : Nat) : Type := Fin n → UInt8

/-- `s` at the start of the array, zeros behind it. -/
def padded (s : CStr) (n : Nat) : CharArray n := fun i => s.toList.getD i 0

structure Request where
  code : UInt8
  sessionPipe : CharArray maxPipeName
  boxName : CharArray maxBoxName
  returnCode : Int
  errorMessage : CharArray maxMessage
  boxa : Option Nat

/-- `strncpy(field, src, n - 1); field[n - 1] = '\0'`, for a field of zeros. -/
def copyField (m : Region UInt8) (src : Option Nat) (n : Nat) : Outcome (CharArray n) :=
  match src with
  | none => fault
  | some a => do
    let bytes ← strncpyFrom m a (n - 1)
    return fun i => bytes.getD i 0

def newRequest (m : Region UInt8) (code : UInt8) (sessionPipeName boxName : Option Nat)
    (returnCode : Int) (errorMessage : Option Nat) : Outcome Request := do
  let sessionPipe ← copyField m sessionPipeName maxPipeName
  let box ← copyField m boxName maxBoxName
  let message ← copyField m errorMessage maxMessage
  return { code := code, sessionPipe := sessionPipe, boxName := box, returnCode := returnCode,
           errorMessage := message, boxa := none }

/-! ## Sending it -/

/-- `if (strlen(s) < max) memset(s + strlen(s), 0, max - strlen(s));` -/
def backfill (m : Region UInt8) (s max : Nat) : Outcome (Region UInt8) := do
  let n ← strlen m s
  if n < max then memset m (s + n) 0 (max - n) else return m

def backfillNames (m : Region UInt8) (sessionPipe boxName : Nat) : Outcome (Region UInt8) := do
  let m ← backfill m sessionPipe maxPipeName
  backfill m boxName maxBoxName

/-- `send_request`, which hands the request to `write`; `written` is what `write`
returns.  The result is the request and the memory afterwards. -/
def sendRequest (m : Region UInt8) (code : UInt8) (sessionPipe boxName : Nat) (written : Int) :
    Outcome (Request × Region UInt8) := do
  let m ← backfillNames m sessionPipe boxName
  let request ← newRequest m code (some sessionPipe) (some boxName) 0 none
  let request := { request with errorMessage := fun _ => 0 }
  if written < 0 then panic "Failed to send request to server." else return (request, m)

/-! ## What the zero-filling does to memory -/

/-- Both strings are still in memory, and the bytes outside them are as before. -/
structure Intact (m : Region UInt8) (p b : Nat) (s t : CStr) (m' : Region UInt8) : Prop where
  sessionPipe : HasString m' p s
  boxName : HasString m' b t
  frame : ∀ x, (x < p ∨ p + s.strlen < x) → (x < b ∨ b + t.strlen < x) → m'.cell x = m.cell x

section
variable {m m' : Region UInt8} {a p b max : Nat} {s t : CStr}

/-- The strings' own bytes too: nothing has changed. -/
theorem Intact.cell_eq (h : Intact m p b s t m') (hs : HasString m p s) (ht : HasString m b t)
    (x : Nat) : m'.cell x = m.cell x := by
  by_cases hp : p ≤ x ∧ x ≤ p + s.strlen
  · obtain ⟨k, rfl⟩ := Nat.exists_eq_add_of_le hp.1
    have hk : k ≤ s.strlen := by omega
    rw [h.sessionPipe.cell hk, hs.cell hk]
  · by_cases hb : b ≤ x ∧ x ≤ b + t.strlen
    · obtain ⟨k, rfl⟩ := Nat.exists_eq_add_of_le hb.1
      have hk : k ≤ t.strlen := by omega
      rw [h.boxName.cell hk, ht.cell hk]
    · exact h.frame x (by omega) (by omega)

theorem backfill_eq (h : HasString m a s) (hlen : s.strlen < max) :
    backfill m a max = memset m (a + s.strlen) 0 (max - s.strlen) := by
  unfold backfill
  rw [h.strlen, ok_bind, if_pos hlen]

/-- Only zeros are stored. -/
theorem backfill_cell (h : backfill m a max = ok m') (x : Nat) :
    m'.cell x = m.cell x ∨ m'.cell x = 0 := by
  unfold backfill at h
  obtain ⟨n, -, h⟩ := (bind_eq_ok _ _ _).mp h
  split at h
  · next hn =>
    obtain ⟨-, rfl⟩ := Region.fill_eq_ok (by omega) h
    rw [Region.put_cell]
    split
    · exact .inr rfl
    · exact .inl rfl
  · cases h
    exact .inl rfl

/-- The string's field lies in memory, and its bytes behind the string become zeros. -/
theorem backfill_pad (h : HasString m a s) (hlen : s.strlen < max) (hm : backfill m a max = ok m') :
    a + max ≤ m.hi ∧ ∀ k, s.strlen ≤ k → k < max → m'.cell (a + k) = 0 := by
  rw [backfill_eq h hlen] at hm
  obtain ⟨hin, rfl⟩ := Region.fill_eq_ok (by omega) hm
  refine ⟨by omega, fun k hk hkm => ?_⟩
  rw [Region.put_cell_in _ _ (by omega)]

theorem backfill_bounds (h : backfill m a max = ok m') :
    m'.isNull = m.isNull ∧ m'.lo = m.lo ∧ m'.hi = m.hi := by
  unfold backfill at h
  obtain ⟨n, -, h⟩ := (bind_eq_ok _ _ _).mp h
  split at h
  · next hn =>
    obtain ⟨-, rfl⟩ := Region.fill_eq_ok (by omega) h
    exact ⟨rfl, rfl, rfl⟩
  · cases h
    exact ⟨rfl, rfl, rfl⟩

/-- The memory stays as it is exactly when the field ends in zeros already. -/
theorem backfill_eq_self (h : HasString m a s) (hlen : s.strlen < max) :
    backfill m a max = ok m ↔
      a + max ≤ m.hi ∧ ∀ k, s.strlen ≤ k → k < max → m.cell (a + k) = 0 := by
  constructor
  · intro hm
    exact backfill_pad h hlen hm
  · rintro ⟨hhi, hz⟩
    have hlo : m.lo ≤ a := h.1
    rw [backfill_eq h hlen, memset, Region.fill_ok _ (by omega)]
    congr 1
    refine Region.ext' rfl rfl rfl (fun x => ?_)
    rw [Region.put_cell]
    split
    · next hx =>
      obtain ⟨k, rfl⟩ := Nat.exists_eq_add_of_le (show a ≤ x by omega)
      rw [hz k (by omega) (by omega)]
    · rfl

/-- The zero-filling keeps to the two strings exactly when both fields lie in
memory and end in zeros already. -/
theorem backfillNames_intact (hs : HasString m p s) (ht : HasString m b t)
    (hslen : s.strlen < maxPipeName) (htlen : t.strlen < maxBoxName) :
    (∃ m', backfillNames m p b = ok m' ∧ Intact m p b s t m') ↔
      (p + maxPipeName ≤ m.hi ∧ ∀ k, s.strlen ≤ k → k < maxPipeName → m.cell (p + k) = 0) ∧
      (b + maxBoxName ≤ m.hi ∧ ∀ k, t.strlen ≤ k → k < maxBoxName → m.cell (b + k) = 0) := by
  rw [← backfill_eq_self hs hslen, ← backfill_eq_self ht htlen]
  constructor
  · rintro ⟨m', hm', hi⟩
    obtain ⟨m₁, h₁, h₂⟩ := (bind_eq_ok _ _ _).mp hm'
    -- A byte zeroed by the first call stays zero, and was zero since nothing has changed.
    have hm₁ : m₁ = m := by
      obtain ⟨hnull, hlo, hhi⟩ := backfill_bounds h₁
      refine Region.ext' hnull hlo hhi (fun x => ?_)
      have hx := hi.cell_eq hs ht x
      rcases backfill_cell h₁ x with h | h
      · exact h
      · rcases backfill_cell h₂ x with h' | h'
        · rw [← h', hx]
        · rw [h, ← hx, h']
    rw [hm₁] at h₁ h₂
    have hm₂ : m' = m := by
      obtain ⟨hnull, hlo, hhi⟩ := backfill_bounds h₂
      exact Region.ext' hnull hlo hhi (hi.cell_eq hs ht)
    rw [hm₂] at h₂
    exact ⟨h₁, h₂⟩
  · rintro ⟨h₁, h₂⟩
    refine ⟨m, ?_, hs, ht, fun x _ _ => rfl⟩
    unfold backfillNames
    rw [h₁, ok_bind, h₂]

/-- With the box name right behind the pipe name, its first byte is zeroed and the
name that `newRequest` copies is empty. -/
theorem backfillNames_argv (hs : HasString m p s) (hslen : s.strlen + 1 < maxPipeName)
    (hm : backfillNames m p (p + s.strlen + 1) = ok m') (n : Nat) (hn : 0 < n) :
    strncpyFrom m' (p + s.strlen + 1) n = ok (List.replicate n 0) := by
  obtain ⟨m₁, h₁, h₂⟩ := (bind_eq_ok _ _ _).mp hm
  obtain ⟨hhi, hz⟩ := backfill_pad hs (by omega) h₁
  have hfirst : m₁.cell (p + s.strlen + 1) = 0 := hz (s.strlen + 1) (by omega) hslen
  have hcell : m'.cell (p + s.strlen + 1) = 0 := by
    rcases backfill_cell h₂ (p + s.strlen + 1) with h | h
    · rw [h, hfirst]
    · exact h
  obtain ⟨-, hlo₁, hhi₁⟩ := backfill_bounds h₁
  obtain ⟨-, hlo₂, hhi₂⟩ := backfill_bounds h₂
  have hlo : m.lo ≤ p := hs.1
  obtain ⟨n, rfl⟩ : ∃ j, n = j + 1 := ⟨n - 1, by omega⟩
  simp [strncpyFrom, Region.load_ok (r := m') (i := p + s.strlen + 1) ⟨by omega, by omega⟩, hcell]

end

/-! ## The error message -/

/-- The message is copied from the pointer, whatever it is. -/
theorem newRequest_null (m : Region UInt8) (code : UInt8) (sessionPipeName boxName : Option Nat)
    (returnCode : Int) (request : Request) :
    newRequest m code sessionPipeName boxName returnCode none ≠ ok request := by
  intro h
  obtain ⟨sessionPipe, -, h⟩ := (bind_eq_ok _ _ _).mp h
  obtain ⟨box, -, h⟩ := (bind_eq_ok _ _ _).mp h
  obtain ⟨message, hmessage, -⟩ := (bind_eq_ok _ _ _).mp h
  cases hmessage

/-- So is the session pipe's name, first of all. -/
theorem newRequest_noPipe (m : Region UInt8) (code : UInt8) (boxName : Option Nat)
    (returnCode : Int) (errorMessage : Option Nat) :
    newRequest m code none boxName returnCode errorMessage = fault := by
  simp [newRequest, copyField]

/-- `send_request` writes a request with the code and both names, and changes no byte
outside the two strings. -/
def Delivered (m : Region UInt8) (code : UInt8) (p b : Nat) (s t : CStr) (written : Int) : Prop :=
  ∃ request m', sendRequest m code p b written = ok (request, m') ∧ request.code = code ∧
    request.sessionPipe = padded s maxPipeName ∧ request.boxName = padded t maxBoxName ∧
    ∀ x, (x < p ∨ p + s.strlen < x) → (x < b ∨ b + t.strlen < x) → m'.cell x = m.cell x

theorem not_delivered (m : Region UInt8) (code : UInt8) (p b : Nat) (s t : CStr) (written : Int) :
    ¬ Delivered m code p b s t written := by
  rintro ⟨request, m', h, -⟩
  obtain ⟨m₁, -, h⟩ := (bind_eq_ok _ _ _).mp h
  obtain ⟨request₁, hrequest, -⟩ := (bind_eq_ok _ _ _).mp h
  exact newRequest_null m₁ code (some p) (some b) 0 request₁ hrequest

/-- `"p"` and `"b"` back to back at 4096, other bytes behind them. -/
def argv : Region UInt8 :=
  { isNull := false, lo := 4096, hi := 8192,
    cell := fun x => if x = 4096 then 112 else if x = 4097 then 0 else if x = 4098 then 98 else
      if x = 4099 then 0 else 1 }

theorem not_delivered_argv :
    ¬ ∀ (m : Region UInt8) (code : UInt8) (p b : Nat) (s t : CStr) (written : Int),
      HasString m p s → HasString m b t → s.strlen ≤ 256 → t.strlen ≤ 32 →
      (p + s.strlen < b ∨ b + t.strlen < p) → 0 ≤ written →
      Delivered m code p b s t written := by
  intro hall
  have hd := hall argv 1 4096 4098 ⟨[112], by simp⟩ ⟨[98], by simp⟩ 0
    ⟨by decide, by decide, by decide⟩ ⟨by decide, by decide, by decide⟩ (by decide) (by decide)
    (by decide) (by decide)
  obtain ⟨request, m', h, -⟩ := hd
  have hfault : (sendRequest argv 1 4096 4098 0).isOk = false := by decide +kernel
  rw [h] at hfault
  cases hfault

end Mbroker
