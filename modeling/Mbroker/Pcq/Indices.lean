import Mbroker.Pcq.Queue

/-!
# The indices of `pcq_buffer`

`pcq_create` asks for one byte for each element, and an element takes eight; `pcq_dequeue`
steps its head by two.  The `k`-th enqueue stores at index `k - 1` and the `k`-th dequeue
loads from index `2 * (k - 1)`, so that no index of a sequence comes round.

    inBuffer_iff : all indices of a sequence are in the buffer iff the last enqueue and the
      last dequeue are in its bytes
-/

namespace Mbroker

open CLib CLib.Outcome

/-- The `i` of `pcq_buffer[i]`. -/
def indexUsed (q : PcQueue) : PcqOp → Nat
  | .enqueue => if q.pcqTail = q.pcqCapacity then 0 else sizeAdd q.pcqTail 1
  | .dequeue => q.pcqHead

/-- The call stays inside `capacity` elements and inside the bytes that were allocated. -/
def InBuffer (capacity allocated : Nat) (q : PcQueue) (c : PcqCall) : Prop :=
  indexUsed q c.op < capacity ∧ (indexUsed q c.op + 1) * sizeofPointer ≤ allocated

/-- An element is stored at the index and at no other. -/
theorem enqueueData_eq (q : PcQueue) (elem : UInt64) :
    enqueueData q elem = (q.pcqBuffer.store (indexUsed q .enqueue) elem).bind fun pcqBuffer =>
      ok { q with
        pcqTail := indexUsed q .enqueue
        pcqBuffer := pcqBuffer
        pcqCurrentSize := sizeAdd q.pcqCurrentSize 1 } := rfl

/-- `e` enqueues and `d` dequeues have been made, all of them in the first `slots` elements. -/
structure Advanced (capacity slots : Nat) (q : PcQueue) (e d : Nat) : Prop where
  stored : sizeofPointer * e ≤ capacity
  bounds : q.pcqBuffer.lo = 0 ∧ q.pcqBuffer.hi = slots
  capacity : q.pcqCapacity = capacity
  tail : q.pcqTail = sizeSub e 1
  head : q.pcqHead = 2 * d

section
variable {capacity slots e d : Nat} {q : PcQueue}

theorem advanced_create (block : Block (sizeMul capacity sizeofVoid)) :
    Advanced capacity (block.usable / sizeofPointer) (pcqCreate capacity (some block)).2 0 0 where
  bounds := ⟨rfl, rfl⟩
  capacity := rfl
  tail := rfl
  head := rfl
  stored := Nat.zero_le _

/-- The tail never gets to the capacity. -/
theorem index_enqueue (h : Advanced capacity slots q e d) (hlt : capacity < 2 ^ 64) :
    indexUsed q .enqueue = e := by
  have hstored := h.stored
  unfold sizeofPointer at hstored
  simp only [indexUsed, h.tail, h.capacity]
  unfold sizeSub sizeAdd
  split <;> omega

theorem inBuffer_enqueue (h : Advanced capacity slots q e d) (hlt : capacity < 2 ^ 64)
    (elem : UInt64) : InBuffer capacity capacity q (.pcqEnqueue elem) ↔
      sizeofPointer * (e + 1) ≤ capacity := by
  show indexUsed q .enqueue < capacity ∧ (indexUsed q .enqueue + 1) * sizeofPointer ≤ capacity ↔ _
  rw [index_enqueue h hlt]
  unfold sizeofPointer
  omega

theorem inBuffer_dequeue (h : Advanced capacity slots q e d) :
    InBuffer capacity capacity q .pcqDequeue ↔
      sizeofPointer * (2 * (d + 1) - 1) ≤ capacity := by
  show q.pcqHead < capacity ∧ (q.pcqHead + 1) * sizeofPointer ≤ capacity ↔ _
  rw [h.head]
  unfold sizeofPointer
  omega

theorem advanced_enqueue (h : Advanced capacity slots q e d) (hlt : capacity < 2 ^ 64)
    (hslots : capacity / sizeofPointer ≤ slots) (hin : sizeofPointer * (e + 1) ≤ capacity)
    (elem : UInt64) : ∃ q', execData q (.pcqEnqueue elem) = ok (none, q') ∧
      Advanced capacity slots q' (e + 1) d := by
  have hslot : e < slots := by
    unfold sizeofPointer at hslots hin
    omega
  have hbounds := h.bounds
  have hstore : q.pcqBuffer.store e elem = ok (q.pcqBuffer.set e elem) :=
    Region.store_ok _ (by omega)
  have htail : e = sizeSub (e + 1) 1 := by
    unfold sizeofPointer at hin
    rw [sizeSub_of_le (by omega) (by omega), Nat.add_sub_cancel]
  have hexec : execData q (.pcqEnqueue elem) = ok (none, { q with
      pcqTail := e
      pcqBuffer := q.pcqBuffer.set e elem
      pcqCurrentSize := sizeAdd q.pcqCurrentSize 1 }) := by
    simp only [execData, enqueueData_eq, index_enqueue h hlt, hstore]
    rfl
  exact ⟨_, hexec, hin, h.bounds, h.capacity, htail, h.head⟩

theorem advanced_dequeue (h : Advanced capacity slots q e d) (hlt : capacity < 2 ^ 64)
    (hslots : capacity / sizeofPointer ≤ slots) (hpos : 0 < e)
    (hin : sizeofPointer * (2 * (d + 1) - 1) ≤ capacity) :
    ∃ r q', execData q .pcqDequeue = ok (r, q') ∧ Advanced capacity slots q' e (d + 1) := by
  have hstored := h.stored
  have hbounds := h.bounds
  unfold sizeofPointer at hstored hslots hin
  have hload : q.pcqBuffer.load q.pcqHead = ok (q.pcqBuffer.cell q.pcqHead) :=
    Region.load_ok (by rw [h.head]; omega)
  have htail : ¬ q.pcqTail = q.pcqCapacity := by
    rw [h.tail, h.capacity, sizeSub_of_le (by omega) (by omega)]
    omega
  have hhead : sizeAdd (sizeAdd q.pcqHead 1) 1 = 2 * (d + 1) := by
    have hone : sizeAdd (2 * d) 1 = 2 * d + 1 := sizeAdd_of_lt (by omega)
    rw [h.head, hone, sizeAdd_of_lt (by omega)]
    omega
  have hexec : execData q .pcqDequeue = ok (some (q.pcqBuffer.cell q.pcqHead), { q with
      pcqHead := sizeAdd (sizeAdd q.pcqHead 1) 1
      pcqCurrentSize := sizeSub q.pcqCurrentSize 1 }) := by
    simp only [execData, dequeueData, hload, ok_bind, htail, if_false, pure_eq]
  exact ⟨_, _, hexec, h.stored, h.bounds, h.capacity, h.tail, hhead⟩

/-- Each call moves its bound by one; the calls before it are inside. -/
theorem inBuffer_run (hlt : capacity < 2 ^ 64) (hslots : capacity / sizeofPointer ≤ slots)
    (h : Advanced capacity slots q e d) (hd : sizeofPointer * (2 * d - 1) ≤ capacity)
    {cs : List PcqCall} (hv : Orderly capacity (e - d) (cs.map PcqCall.op)) (hde : d ≤ e) :
    Allowed execData (InBuffer capacity capacity) q cs ↔
      sizeofPointer * (e + enqueues cs) ≤ capacity ∧
      sizeofPointer * (2 * (d + dequeues cs) - 1) ≤ capacity := by
  induction cs generalizing q e d with
  | nil => exact ⟨fun _ => ⟨h.stored, hd⟩, fun _ => trivial⟩
  | cons c cs ih =>
    cases c with
    | pcqEnqueue elem =>
      obtain ⟨-, hv⟩ := hv
      have hsize : e - d + 1 = e + 1 - d := (Nat.sub_add_comm hde).symm
      rw [hsize] at hv
      have hnext : e + (enqueues cs + 1) = e + 1 + enqueues cs := by omega
      rw [enqueues_enqueue, dequeues_enqueue, hnext]
      constructor
      · rintro ⟨hin, hrest⟩
        obtain ⟨q', he, h'⟩ := advanced_enqueue h hlt hslots
          ((inBuffer_enqueue h hlt elem).mp hin) elem
        exact (ih h' hd hv (by omega)).mp (hrest none q' he)
      · rintro ⟨hall, hall'⟩
        have hin : sizeofPointer * (e + 1) ≤ capacity :=
          (Nat.mul_le_mul_left _ (Nat.le_add_right _ _)).trans hall
        obtain ⟨q', he, h'⟩ := advanced_enqueue h hlt hslots hin elem
        refine ⟨(inBuffer_enqueue h hlt elem).mpr hin, fun r q₁ he₁ => ?_⟩
        rw [he] at he₁
        simp only [ok.injEq, Prod.mk.injEq] at he₁
        exact he₁.2 ▸ (ih h' hd hv (by omega)).mpr ⟨hall, hall'⟩
    | pcqDequeue =>
      obtain ⟨hpos, hv⟩ := hv
      have hpos' : 0 < e := by omega
      have hde' : d + 1 ≤ e := by omega
      rw [Nat.sub_sub] at hv
      have hnext : d + (dequeues cs + 1) = d + 1 + dequeues cs := by omega
      rw [enqueues_dequeue, dequeues_dequeue, hnext]
      constructor
      · rintro ⟨hin, hrest⟩
        have hin' := (inBuffer_dequeue h).mp hin
        obtain ⟨r, q', he, h'⟩ := advanced_dequeue h hlt hslots hpos' hin'
        exact (ih h' hin' hv hde').mp (hrest r q' he)
      · rintro ⟨hall, hall'⟩
        have hin : sizeofPointer * (2 * (d + 1) - 1) ≤ capacity :=
          (Nat.mul_le_mul_left _ (by omega)).trans hall'
        obtain ⟨r, q', he, h'⟩ := advanced_dequeue h hlt hslots hpos' hin
        refine ⟨(inBuffer_dequeue h).mpr hin, fun r₁ q₁ he₁ => ?_⟩
        rw [he] at he₁
        simp only [ok.injEq, Prod.mk.injEq] at he₁
        exact he₁.2 ▸ (ih h' hin hv hde').mpr ⟨hall, hall'⟩

/-- All indices are in the buffer just when the last enqueue and the last dequeue are. -/
theorem inBuffer_iff (hlt : capacity < 2 ^ 64) (block : Block (sizeMul capacity sizeofVoid))
    {cs : List PcqCall} (hv : Orderly capacity 0 (cs.map PcqCall.op)) :
    Allowed execData (InBuffer capacity (sizeMul capacity sizeofVoid))
      (pcqCreate capacity (some block)).2 cs ↔
      sizeofPointer * enqueues cs ≤ capacity ∧
      sizeofPointer * (2 * dequeues cs - 1) ≤ capacity := by
  have hallocated : sizeMul capacity sizeofVoid = capacity := by
    unfold sizeMul sizeofVoid
    omega
  have hslots : capacity / sizeofPointer ≤ block.usable / sizeofPointer := by
    apply Nat.div_le_div_right
    exact Nat.le_trans (Nat.le_of_eq hallocated.symm) block.enough
  have hrun := inBuffer_run hlt hslots (advanced_create block) (Nat.zero_le _) hv (Nat.le_refl 0)
  rw [Nat.zero_add, Nat.zero_add] at hrun
  have hbytes : InBuffer capacity (sizeMul capacity sizeofVoid) = InBuffer capacity capacity := by
    rw [hallocated]
  rw [hbytes]
  exact hrun

end

/-- The 32 elements that were asked for take 32 bytes: there is room for four. -/
theorem inBuffer_iff_four :
    Allowed execData (InBuffer 32 (sizeMul 32 sizeofVoid))
      (pcqCreate 32 (some ⟨32, fun _ => 0, by decide⟩)).2
      [.pcqEnqueue 1, .pcqEnqueue 2, .pcqDequeue, .pcqEnqueue 3, .pcqDequeue] ↔
    sizeofPointer * enqueues
      [.pcqEnqueue 1, .pcqEnqueue 2, .pcqDequeue, .pcqEnqueue 3, .pcqDequeue] ≤ 32 ∧
    sizeofPointer * (2 * dequeues
      [.pcqEnqueue 1, .pcqEnqueue 2, .pcqDequeue, .pcqEnqueue 3, .pcqDequeue] - 1) ≤ 32 :=
  inBuffer_iff (by decide) ⟨32, fun _ => 0, by decide⟩
    ⟨by decide, by decide, by decide, by decide, by decide, trivial⟩

/-- With a capacity of one the first element is stored past the one byte that was allocated. -/
theorem not_inBuffer :
    ¬ ∀ (capacity : Nat) (block : Block (sizeMul capacity sizeofVoid)) (cs : List PcqCall),
      1 ≤ capacity → capacity < 2 ^ 64 → Orderly capacity 0 (cs.map PcqCall.op) →
      Allowed execData (InBuffer capacity (sizeMul capacity sizeofVoid))
        (pcqCreate capacity (some block)).2 cs := by
  intro hall
  obtain ⟨⟨-, hbytes⟩, -⟩ := hall 1 ⟨1, fun _ => 0, by decide⟩ [.pcqEnqueue 7] (by decide)
    (by decide) ⟨by decide, trivial⟩
  exact absurd hbytes (by decide)

end Mbroker
