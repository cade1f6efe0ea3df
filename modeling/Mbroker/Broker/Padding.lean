import Mbroker.Broker.Server

/-!
# The padding of messages

`len = strlen(message); memset(message + len - 1, 0, MAX_MESSAGE - len);` stands in `pub`,
where it is meant to remove the newline of a line, and in three handlers of the broker, whose
texts have none.  The fill begins at the last byte of the text and ends one byte before the
last of the `MAX_MESSAGE` bytes.

    padText_ok : all but the last byte of the text is kept, and zeros are behind it up to
      byte `MAX_MESSAGE - 1`
    zeroPads_iff : a text is padded only if it has `MAX_MESSAGE` bytes; `pub` pads its line
      exactly if the last byte of the buffer is zero already
-/

namespace Mbroker

open CLib Outcome

/-- `char message[size]` that holds `text`. -/
structure MessageBuffer (message : Region UInt8) (size : Nat) (text : CStr) : Prop where
  lo : message.lo = 1
  hi : message.hi = 1 + size
  text : HasString message 1 text

/-- `len = strlen(message); memset(message + len - 1, 0, MAX_MESSAGE - len);` -/
def padText (message : Region UInt8) : Outcome (Region UInt8) := do
  let len ← strlen message 1
  padMessage message len

/-- The step stays inside the buffer, keeps its first `n` bytes and leaves zeros behind them. -/
def ZeroPads (message : Region UInt8) (size n : Nat) : Prop :=
  ∃ padded, padText message = ok padded ∧
    (∀ k, k < n → padded.cell (1 + k) = message.cell (1 + k)) ∧
    ∀ k, n ≤ k → k < size → padded.cell (1 + k) = 0

section
variable {message : Region UInt8} {size : Nat} {text : CStr}

theorem padText_eq (hm : MessageBuffer message size text) :
    padText message = memset message (1 + text.strlen - 1) 0 (maxMessage - text.strlen) := by
  unfold padText
  rw [hm.text.strlen, ok_bind]
  rfl

/-- An empty text: the fill begins in front of the buffer. -/
theorem padText_empty (hm : MessageBuffer message size text) (hempty : text.strlen = 0) :
    padText message = fault := by
  have hlo := hm.lo
  rw [padText_eq hm, hempty]
  unfold memset Region.fill
  rw [if_neg (by unfold maxMessage; omega)]

/-- Any other: from its last byte on there are zeros, up to the last byte but one of
`MAX_MESSAGE`. -/
theorem padText_ok (hm : MessageBuffer message size text) (hpos : 0 < text.strlen)
    (hlen : text.strlen ≤ maxMessage) (hsize : maxMessage ≤ size) :
    ∃ padded, padText message = ok padded ∧ ∀ k, padded.cell (1 + k) =
      if text.strlen - 1 ≤ k ∧ k < maxMessage - 1 then 0 else message.cell (1 + k) := by
  have hlo := hm.lo
  have hhi := hm.hi
  refine ⟨_, (padText_eq hm).trans (Region.fill_ok _ ⟨by omega, by omega⟩), fun k => ?_⟩
  rw [Region.put_cell]
  by_cases hk : text.strlen - 1 ≤ k ∧ k < maxMessage - 1
  · rw [if_pos hk, if_pos (by omega)]
  · rw [if_neg hk, if_neg (by omega)]

/-- A shorter text is not kept: an empty one is not padded, any other loses its last byte. -/
theorem not_zeroPads (hm : MessageBuffer message size text) (hlen : text.strlen < maxMessage)
    (hsize : maxMessage ≤ size) : ¬ ZeroPads message size text.strlen := by
  rintro ⟨padded, hpad, hkept, -⟩
  rcases Nat.eq_zero_or_pos text.strlen with hempty | hpos
  · rw [padText_empty hm hempty] at hpad
    cases hpad
  · obtain ⟨padded', hpad', hcell⟩ := padText_ok hm hpos (Nat.le_of_lt hlen) hsize
    rw [hpad] at hpad'
    cases hpad'
    obtain ⟨c, hc⟩ : ∃ c, text.toList[text.strlen - 1]? = some c := by
      refine ⟨_, List.getElem?_eq_getElem ?_⟩
      unfold CStr.strlen at hpos ⊢
      omega
    have hlast : message.cell (1 + (text.strlen - 1)) = c := by
      rw [hm.text.cell (by omega), List.getD_eq_getElem?_getD, List.getElem?_append_left, hc]
      · rfl
      · exact (List.getElem?_eq_some_iff.mp hc).1
    have hzero := hcell (text.strlen - 1)
    rw [if_pos ⟨Nat.le_refl _, by omega⟩, hkept _ (by omega), hlast] at hzero
    exact text.nonul c (List.mem_of_getElem? hc) hzero

/-- All but the last byte of the text is kept, and zeros are behind it exactly if the bytes that
the fill does not reach are zeros. -/
theorem zeroPads_line (hm : MessageBuffer message size text) (hpos : 0 < text.strlen)
    (hlen : text.strlen ≤ maxMessage) (hsize : maxMessage ≤ size) :
    ZeroPads message size (text.strlen - 1) ↔
      ∀ k, maxMessage - 1 ≤ k → k < size → message.cell (1 + k) = 0 := by
  obtain ⟨padded, hpad, hcell⟩ := padText_ok hm hpos hlen hsize
  constructor
  · rintro ⟨padded', hpad', -, hzero⟩ k hk hks
    rw [hpad] at hpad'
    cases hpad'
    have hk' := hcell k
    rw [if_neg (by omega), hzero k (by omega) hks] at hk'
    exact hk'.symm
  · intro hbehind
    refine ⟨padded, hpad, fun k hk => ?_, fun k hk hks => ?_⟩
    · rw [hcell, if_neg (by omega)]
    · rw [hcell]
      split
      · rfl
      · exact hbehind k (by omega) hks

/-- Behind `MAX_MESSAGE` bytes nothing is filled. -/
theorem zeroPads_full (hm : MessageBuffer message (maxMessage + 1) text)
    (hfull : text.strlen = maxMessage) : ZeroPads message (maxMessage + 1) text.strlen := by
  have hmax : 0 < maxMessage := by decide
  obtain ⟨padded, hpad, hcell⟩ := padText_ok hm (by omega) hfull.le (Nat.le_succ _)
  refine ⟨padded, hpad, fun k hk => ?_, fun k hk hks => ?_⟩
  · rw [hcell, if_neg (by omega)]
  · have hnul := hm.text.cell (Nat.le_refl _)
    rw [List.getD_eq_getElem?_getD, CStr.strlen, List.getElem?_concat_length] at hnul
    rw [hcell, if_neg (by omega), show k = text.strlen by omega]
    exact hnul

/-- The buffers have `MAX_MESSAGE` bytes, or one more in `codeR_SUB`.  The handlers, which mean to
keep their text, pad it just if it has `MAX_MESSAGE` bytes, where there is nothing to fill; `pub`,
which means to remove the newline of its line, pads the line exactly if the buffer has zeros from
byte `MAX_MESSAGE - 1` on, in `MAX_MESSAGE` bytes the last one. -/
theorem zeroPads_iff (hm : MessageBuffer message size text)
    (hsize : size = maxMessage ∨ size = maxMessage + 1) :
    (ZeroPads message size text.strlen ↔ text.strlen = maxMessage) ∧
    ∀ line, text.toList = line ++ [10] → (ZeroPads message size line.length ↔
      ∀ k, maxMessage - 1 ≤ k → k < size → message.cell (1 + k) = 0) := by
  have hhi := hm.hi
  have hends : 1 + text.strlen < message.hi := hm.text.2.1
  refine ⟨⟨fun hpads => ?_, fun hfull => ?_⟩, fun line hline => ?_⟩
  · by_contra hshort
    exact not_zeroPads hm (by omega) (by omega) hpads
  · obtain rfl : size = maxMessage + 1 := by omega
    exact zeroPads_full hm hfull
  · have htext : text.strlen = line.length + 1 := by
      unfold CStr.strlen
      rw [hline, List.length_append, List.length_singleton]
    have hpads := zeroPads_line hm (by omega) (by omega) (by omega)
    rwa [htext, Nat.add_sub_cancel] at hpads

end

/-- `message` of `pub`, with the line `"hi\n"` in it and zeros behind. -/
def hiLine : Region UInt8 where
  isNull := false
  lo := 1
  hi := 1 + maxMessage
  cell x := if x = 1 then 104 else if x = 2 then 105 else if x = 3 then 10 else 0

theorem zeroPads_iff_hi : ZeroPads hiLine maxMessage [104, 105].length := by
  have hm : MessageBuffer hiLine maxMessage ⟨[104, 105, 10], by simp⟩ :=
    ⟨rfl, rfl, by decide, by decide, by decide⟩
  refine ((zeroPads_iff hm (Or.inl rfl)).2 [104, 105] rfl).mpr fun k hk _ => ?_
  unfold maxMessage at hk
  simp only [hiLine]
  rw [if_neg (by omega), if_neg (by omega), if_neg (by omega)]

/-- "Caixa não existe." -/
def missingText : CStr :=
  ⟨[67, 97, 105, 120, 97, 32, 110, 195, 163, 111, 32, 101, 120, 105, 115, 116, 101, 46], by simp⟩

/-- `message` of `codeR_BOX`, for a box that does not exist, on a stack of zeros. -/
def missingMessage : Region UInt8 :=
  (strcpyMessage { hiLine with cell := fun _ => 0 } "Caixa não existe.").getD hiLine

theorem missingMessage_text : MessageBuffer missingMessage maxMessage missingText :=
  ⟨by decide +kernel, by decide +kernel, by decide +kernel, by decide +kernel, by decide +kernel⟩

/-- The full stop of "Caixa não existe." is lost. -/
theorem not_zeroPads_missing :
    ¬ ∀ (message : Region UInt8) (text : CStr), MessageBuffer message maxMessage text →
      ZeroPads message maxMessage text.strlen ∧
      ∀ line, text.toList = line ++ [10] → ZeroPads message maxMessage line.length := by
  intro hall
  obtain ⟨hpads, -⟩ := hall missingMessage missingText missingMessage_text
  exact not_zeroPads missingMessage_text (by decide) (Nat.le_refl _) hpads

end Mbroker
