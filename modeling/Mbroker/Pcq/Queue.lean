import Mbroker.Lib.CInt
import Mbroker.Lib.Counting
import Mbroker.Lib.Region
import Mbroker.Lib.Run

/-!
# The producer-consumer queue (`producer-consumer/producer-consumer.c`)

The data of `pc_queue_t` and what the bodies of `pcq_enqueue` and `pcq_dequeue` do
to it between their lock operations.  `pcq_create` asks `malloc` for
`capacity * sizeof(void)` bytes, one for each element of eight; what lies behind them
and can be reached is part of the `Block`, and an access behind that is `fault`.

    fifo_iff : the dequeues of a sequence return what its enqueues stored, in order,
      whatever that is, iff there is at most one dequeue and the stores are in the block
-/

namespace Mbroker

open CLib CLib.Outcome

/-- `sizeof(void)`, as GCC has it. -/
def sizeofVoid : Nat := 1
def sizeofPointer : Nat := 8

/-- What `malloc(bytes)` returns: `usable` bytes can be accessed from its address on. -/
structure Block (bytes : Nat) where
  usable : Nat
  content : Nat → UInt64
  enough : bytes ≤ usable

/-- The data of `pc_queue_t`, a `void *` being a number. -/
structure PcQueue where
  pcqBuffer : Region UInt64
  pcqCapacity : Nat
  pcqCurrentSize : Nat
  pcqHead : Nat
  pcqTail : Nat

def pcqCreate (capacity : Nat) (block : Option (Block (sizeMul capacity sizeofVoid))) :
    Int × PcQueue :=
  let q : PcQueue :=
    { pcqBuffer := .malloc ((block.map Block.usable).getD 0) sizeofPointer 0
        (block.map Block.content)
      pcqCapacity := capacity
      pcqCurrentSize := 0
      pcqHead := 0
      pcqTail := 2 ^ 64 - 1 }
  if q.pcqBuffer.isNull then (-1, q) else (0, q)

/-- What `pcq_enqueue` does under `pcq_tail_lock`. -/
def enqueueData (q : PcQueue) (elem : UInt64) : Outcome PcQueue := do
  -- goes round only when the tail is past the last of `capacity` elements
  let pcqTail := if q.pcqTail = q.pcqCapacity then 0 else sizeAdd q.pcqTail 1
  let pcqBuffer ← q.pcqBuffer.store pcqTail elem
  return { q with pcqTail, pcqBuffer, pcqCurrentSize := sizeAdd q.pcqCurrentSize 1 }

/-- What `pcq_dequeue` does under `pcq_head_lock`. -/
def dequeueData (q : PcQueue) : Outcome (UInt64 × PcQueue) := do
  let elem ← q.pcqBuffer.load q.pcqHead
  let q := { q with pcqHead := sizeAdd q.pcqHead 1 }
  let q :=
    if q.pcqTail = q.pcqCapacity then { q with pcqTail := 0 }
    else { q with pcqHead := sizeAdd q.pcqHead 1 }
  return (elem, { q with pcqCurrentSize := sizeSub q.pcqCurrentSize 1 })

/-! ## Sequences of calls -/

inductive PcqOp where
  | enqueue
  | dequeue
deriving DecidableEq

inductive PcqCall where
  | pcqEnqueue (elem : UInt64)
  | pcqDequeue
deriving DecidableEq

def PcqCall.op : PcqCall → PcqOp
  | .pcqEnqueue _ => .enqueue
  | .pcqDequeue => .dequeue

def PcqCall.elem : PcqCall → Option UInt64
  | .pcqEnqueue elem => some elem
  | .pcqDequeue => none

/-- The answer of a dequeue is its element. -/
def execData (q : PcQueue) : PcqCall → Outcome (Option UInt64 × PcQueue)
  | .pcqEnqueue elem => do
    let q ← enqueueData q elem
    return (none, q)
  | .pcqDequeue => do
    let (elem, q) ← dequeueData q
    return (some elem, q)

/-- With `n` elements stored: no enqueue into a full queue, no dequeue from an empty one. -/
def Orderly (capacity : Nat) : Nat → List PcqOp → Prop
  | _, [] => True
  | n, .enqueue :: ops => n < capacity ∧ Orderly capacity (n + 1) ops
  | n, .dequeue :: ops => 0 < n ∧ Orderly capacity (n - 1) ops

def enqueues (cs : List PcqCall) : Nat := (cs.map PcqCall.op).count .enqueue
def dequeues (cs : List PcqCall) : Nat := (cs.map PcqCall.op).count .dequeue

/-- At every point of the sequence, the `k`-th dequeue has returned the element of the `k`-th
enqueue, and the size is what is stored. -/
def Fifo (q : PcQueue) (cs : List PcqCall) : Prop :=
  ∀ pre, pre <+: cs → ∃ rs q', run execData q pre = ok (rs, q') ∧
    rs.filterMap id = (pre.filterMap PcqCall.elem).take (dequeues pre) ∧
    q'.pcqCurrentSize + dequeues pre = enqueues pre

section
variable (cs : List PcqCall) (elem : UInt64)

@[simp] theorem enqueues_nil : enqueues [] = 0 := rfl
@[simp] theorem dequeues_nil : dequeues [] = 0 := rfl

@[simp] theorem enqueues_enqueue : enqueues (.pcqEnqueue elem :: cs) = enqueues cs + 1 := by
  simp [enqueues, PcqCall.op]

@[simp] theorem enqueues_dequeue : enqueues (.pcqDequeue :: cs) = enqueues cs := by
  simp [enqueues, PcqCall.op]

@[simp] theorem dequeues_enqueue : dequeues (.pcqEnqueue elem :: cs) = dequeues cs := by
  simp [dequeues, PcqCall.op]

@[simp] theorem dequeues_dequeue : dequeues (.pcqDequeue :: cs) = dequeues cs + 1 := by
  simp [dequeues, PcqCall.op]

end

/-- The size is right in every sequence that returns, whatever the dequeues return. -/
theorem currentSize_run {capacity : Nat} (hlt : capacity < 2 ^ 64) {q q' : PcQueue}
    {cs : List PcqCall} {rs : List (Option UInt64)} (hfull : q.pcqCurrentSize ≤ capacity)
    (hv : Orderly capacity q.pcqCurrentSize (cs.map PcqCall.op))
    (h : run execData q cs = ok (rs, q')) :
    q'.pcqCurrentSize + dequeues cs = q.pcqCurrentSize + enqueues cs := by
  induction cs generalizing q rs with
  | nil =>
    simp only [run, ok.injEq, Prod.mk.injEq] at h
    rw [h.2, dequeues_nil, enqueues_nil]
  | cons c cs ih =>
    obtain ⟨r, q₁, rs₁, h1, h2, -⟩ := run_cons_eq_ok h
    cases c with
    | pcqEnqueue elem =>
      obtain ⟨hroom, hv⟩ := hv
      simp only [execData, enqueueData, bind_eq_ok, pure_eq, ok.injEq, Prod.mk.injEq] at h1
      obtain ⟨_, ⟨buffer, -, rfl⟩, -, rfl⟩ := h1
      have hsize : sizeAdd q.pcqCurrentSize 1 = q.pcqCurrentSize + 1 := sizeAdd_of_lt (by omega)
      have := ih (by simp only [hsize]; omega) (by simp only [hsize]; exact hv) h2
      simp only [hsize] at this
      rw [dequeues_enqueue, enqueues_enqueue]
      omega
    | pcqDequeue =>
      obtain ⟨hpos, hv⟩ := hv
      simp only [execData, dequeueData, bind_eq_ok, pure_eq, ok.injEq, Prod.mk.injEq] at h1
      obtain ⟨_, ⟨elem, -, rfl⟩, -, rfl⟩ := h1
      have hsize : sizeSub q.pcqCurrentSize 1 = q.pcqCurrentSize - 1 :=
        sizeSub_of_le (by omega) (by omega)
      have := ih (by split <;> simp only [hsize] <;> omega)
        (by split <;> simp only [hsize] <;> exact hv) h2
      rw [dequeues_dequeue, enqueues_dequeue]
      split at this <;> simp only [hsize] at this <;> omega

/-! ## The queue up to its first dequeue, and behind it -/

/-- `l` was enqueued and `d` elements were dequeued. -/
structure Filled (capacity slots : Nat) (content : Nat → UInt64) (q : PcQueue) (l : List UInt64)
    (d : Nat) : Prop where
  bounds : q.pcqBuffer.lo = 0 ∧ q.pcqBuffer.hi = slots
  capacity : q.pcqCapacity = capacity
  tail : q.pcqTail = sizeSub l.length 1
  head : q.pcqHead = 2 * d
  size : q.pcqCurrentSize + d = l.length
  fits : l.length ≤ slots
  stored : ∀ k v, l[k]? = some v → q.pcqBuffer.cell k = v
  fresh : ∀ k, l.length ≤ k → q.pcqBuffer.cell k = content k

section
variable {capacity slots : Nat} {content : Nat → UInt64} {q : PcQueue} {l : List UInt64} {d : Nat}

theorem filled_create {usable : Nat} (content : Nat → UInt64)
    (henough : sizeMul capacity sizeofVoid ≤ usable) :
    Filled capacity (usable / 8) content
      (pcqCreate capacity (some ⟨usable, content, henough⟩)).2 [] 0 where
  bounds := ⟨rfl, rfl⟩
  capacity := rfl
  tail := rfl
  head := rfl
  size := rfl
  fits := Nat.zero_le _
  stored k v h := by simp at h
  fresh k _ := rfl

/-- As long as there was at most one dequeue, the next slot is the first fresh one. -/
theorem filled_enqueue (h : Filled capacity slots content q l d) (hd : d ≤ 1)
    (hlt : capacity < 2 ^ 64) (hroom : l.length - d < capacity) (elem : UInt64) :
    (l.length < slots → ∃ q', enqueueData q elem = ok q' ∧
      Filled capacity slots content q' (l ++ [elem]) d) ∧
    (¬ l.length < slots → enqueueData q elem = fault) := by
  have hsize := h.size
  have htail : (if q.pcqTail = q.pcqCapacity then 0 else sizeAdd q.pcqTail 1) = l.length := by
    rw [h.tail, h.capacity]
    unfold sizeSub sizeAdd
    split <;> omega
  unfold enqueueData
  simp only [htail]
  constructor
  · intro hin
    rw [Region.store_ok _ (by rw [h.bounds.1, h.bounds.2]; omega), ok_bind]
    refine ⟨_, rfl, h.bounds, h.capacity, ?_, h.head, ?_, by simp; omega, fun k v hk => ?_,
      fun k hk => ?_⟩
    · simp only [List.length_append, List.length_singleton]
      unfold sizeSub
      omega
    · simp only [List.length_append, List.length_singleton]
      rw [sizeAdd_of_lt (by omega)]
      omega
    · by_cases hkl : k = l.length
      · subst hkl
        simp only [List.getElem?_concat_length, Option.some.injEq] at hk
        rw [Region.set_cell_self, hk]
      · have hlt' : k < l.length := by
          have := (List.getElem?_eq_some_iff.mp hk).1
          simp only [List.length_append, List.length_singleton] at this
          omega
        rw [List.getElem?_append_left hlt'] at hk
        simp only [Region.set_cell_ne _ _ hkl]
        exact h.stored k v hk
    · simp only [List.length_append, List.length_singleton] at hk
      simp only [Region.set_cell_ne _ _ (show k ≠ l.length by omega)]
      exact h.fresh k (by omega)
  · intro hout
    have hfault : q.pcqBuffer.store l.length elem = fault :=
      if_neg (by rw [h.bounds.1, h.bounds.2]; omega)
    rw [hfault, fault_bind]

/-- The first dequeue returns the first element, and leaves the head two slots further. -/
theorem filled_dequeue (h : Filled capacity slots content q l 0) (hlt : capacity < 2 ^ 64)
    (hfull : l.length ≤ capacity) {v : UInt64} (hv : l[0]? = some v) :
    ∃ q', dequeueData q = ok (v, q') ∧ Filled capacity slots content q' l 1 := by
  have hpos := (List.getElem?_eq_some_iff.mp hv).1
  have hfits := h.fits
  have hhead : q.pcqHead = 0 := h.head
  have hsize := h.size
  have htail : ¬ q.pcqTail = q.pcqCapacity := by
    rw [h.tail, h.capacity]
    unfold sizeSub
    omega
  unfold dequeueData
  rw [hhead, Region.load_ok (by rw [h.bounds.1, h.bounds.2]; omega), h.stored 0 v hv, ok_bind]
  simp only [htail, if_false]
  refine ⟨_, rfl, h.bounds, h.capacity, h.tail, rfl, ?_, h.fits, h.stored, h.fresh⟩
  simp only
  rw [sizeSub_of_le (by omega) (by omega)]
  omega

/-- The second dequeue reads the third slot. -/
theorem filled_dequeue_second (h : Filled capacity slots content q l 1) {v : UInt64}
    {q' : PcQueue} (hq : dequeueData q = ok (v, q')) : some v = l[2]? ∨ v = content 2 := by
  have hhead : q.pcqHead = 2 := h.head
  unfold dequeueData at hq
  simp only [bind_eq_ok, hhead, Region.load] at hq
  obtain ⟨e, hload, hq⟩ := hq
  split at hload
  · simp only [ok.injEq] at hload
    subst hload
    simp only [pure_eq, ok.injEq, Prod.mk.injEq] at hq
    rw [← hq.1]
    rcases Nat.lt_or_ge 2 l.length with hl | hl
    · exact Or.inl ((h.stored 2 l[2] (List.getElem?_eq_getElem hl)) ▸ (List.getElem?_eq_getElem hl).symm)
    · exact Or.inr (h.fresh 2 hl)
  · cases hload

/-- A sequence with at most one dequeue returns as long as its stores are in the block. -/
theorem filled_run (hlt : capacity < 2 ^ 64) {cs : List PcqCall}
    (h : Filled capacity slots content q l d)
    (hfull : l.length - d ≤ capacity)
    (hv : Orderly capacity (l.length - d) (cs.map PcqCall.op)) (hd : d + dequeues cs ≤ 1)
    (hin : l.length + enqueues cs ≤ slots) :
    ∃ rs q', run execData q cs = ok (rs, q') ∧
      Filled capacity slots content q' (l ++ cs.filterMap PcqCall.elem) (d + dequeues cs) ∧
      rs.filterMap id = ((l ++ cs.filterMap PcqCall.elem).drop d).take (dequeues cs) := by
  induction cs generalizing q l d with
  | nil => exact ⟨[], q, rfl, by simpa using h, by simp⟩
  | cons c cs ih =>
    have hsize := h.size
    cases c with
    | pcqEnqueue elem =>
      obtain ⟨hroom, hv⟩ := hv
      rw [dequeues_enqueue] at hd ⊢
      rw [enqueues_enqueue] at hin
      obtain ⟨q₁, he, h₁⟩ := (filled_enqueue h (by omega) hlt hroom elem).1 (by omega)
      have hlen : (l ++ [elem]).length - d = l.length - d + 1 := by
        simp only [List.length_append, List.length_singleton]
        omega
      obtain ⟨rs, q', hrun, h', hrs⟩ := ih h₁ (by omega) (by rw [hlen]; exact hv) hd
        (by simp only [List.length_append, List.length_singleton]; omega)
      have hex : execData q (.pcqEnqueue elem) = ok (none, q₁) := by simp [execData, he]
      have happ : l ++ [elem] ++ cs.filterMap PcqCall.elem =
          l ++ (PcqCall.pcqEnqueue elem :: cs).filterMap PcqCall.elem := by simp [PcqCall.elem]
      rw [happ] at h' hrs
      exact ⟨none :: rs, q', run_cons hex hrun, h', hrs⟩
    | pcqDequeue =>
      obtain ⟨hpos, hv⟩ := hv
      rw [dequeues_dequeue] at hd ⊢
      rw [enqueues_dequeue] at hin
      -- the only dequeue
      obtain ⟨rfl, hnone⟩ : d = 0 ∧ dequeues cs = 0 := by omega
      have hhead : l[0]? = some l[0] := List.getElem?_eq_getElem (by omega)
      obtain ⟨q₁, he, h₁⟩ := filled_dequeue h hlt (by omega) hhead
      obtain ⟨rs, q', hrun, h', hrs⟩ := ih h₁ (by omega) hv (by omega) hin
      have hex : execData q .pcqDequeue = ok (some l[0], q₁) := by simp [execData, he]
      have happ : cs.filterMap PcqCall.elem =
          (PcqCall.pcqDequeue :: cs).filterMap PcqCall.elem := rfl
      rw [hnone] at h' hrs ⊢
      rw [happ] at h'
      refine ⟨some l[0] :: rs, q', run_cons hex hrun, h', ?_⟩
      simp only [List.take_zero] at hrs
      have hcons : (some l[0] :: rs).filterMap id = l[0] :: rs.filterMap id := rfl
      rw [hcons, hrs]
      cases l with
      | nil => cases hhead
      | cons a l => rfl

/-- A run that returns has stored inside the block. -/
theorem filled_run_fits (hlt : capacity < 2 ^ 64) {cs : List PcqCall}
    (h : Filled capacity slots content q l d)
    (hfull : l.length - d ≤ capacity)
    (hv : Orderly capacity (l.length - d) (cs.map PcqCall.op)) (hd : d + dequeues cs ≤ 1)
    {rs : List (Option UInt64)} {q' : PcQueue} (hrun : run execData q cs = ok (rs, q')) :
    l.length + enqueues cs ≤ slots := by
  induction cs generalizing q l d rs with
  | nil => exact h.fits
  | cons c cs ih =>
    have hsize := h.size
    obtain ⟨r, q₁, rs₁, h1, h2, -⟩ := run_cons_eq_ok hrun
    cases c with
    | pcqEnqueue elem =>
      obtain ⟨hroom, hv⟩ := hv
      rw [dequeues_enqueue] at hd
      rw [enqueues_enqueue]
      obtain ⟨hfit, hfault⟩ := filled_enqueue h (by omega) hlt hroom elem
      by_cases hin : l.length < slots
      · obtain ⟨q₂, he, h₂⟩ := hfit hin
        simp only [execData, he, ok_bind, pure_eq, ok.injEq, Prod.mk.injEq] at h1
        obtain ⟨-, rfl⟩ := h1
        have hlen : (l ++ [elem]).length = l.length + 1 := by simp
        have := ih h₂ (by omega) (by rw [hlen, Nat.sub_add_comm (by omega)]; exact hv) hd h2
        omega
      · simp [execData, hfault hin] at h1
    | pcqDequeue =>
      obtain ⟨hpos, hv⟩ := hv
      rw [dequeues_dequeue] at hd
      rw [enqueues_dequeue]
      obtain rfl : d = 0 := by omega
      have hhead : l[0]? = some l[0] := List.getElem?_eq_getElem (by omega)
      obtain ⟨q₂, he, h₂⟩ := filled_dequeue h hlt (by omega) hhead
      simp only [execData, he, ok_bind, pure_eq, ok.injEq, Prod.mk.injEq] at h1
      obtain ⟨-, rfl⟩ := h1
      exact ih h₂ (by omega) hv (by omega) h2

end

/-! ## When the queue is one -/

theorem orderly_append {capacity n : Nat} {ops ops' : List PcqOp}
    (h : Orderly capacity n (ops ++ ops')) : Orderly capacity n ops := by
  induction ops generalizing n with
  | nil => trivial
  | cons op ops ih =>
    cases op with
    | enqueue => exact ⟨h.1, ih h.2⟩
    | dequeue => exact ⟨h.1, ih h.2⟩

theorem length_elems (cs : List PcqCall) : (cs.filterMap PcqCall.elem).length = enqueues cs := by
  induction cs with
  | nil => rfl
  | cons c cs ih =>
    cases c with
    | pcqEnqueue elem =>
      rw [enqueues_enqueue, ← ih]
      rfl
    | pcqDequeue =>
      rw [enqueues_dequeue, ← ih]
      rfl

/-- The calls of a sequence, with the elements numbered from `n` on. -/
def numbered : UInt64 → List PcqOp → List PcqCall
  | _, [] => []
  | n, .enqueue :: ops => .pcqEnqueue n :: numbered (n + 1) ops
  | n, .dequeue :: ops => .pcqDequeue :: numbered n ops

theorem numbered_op (n : UInt64) (ops : List PcqOp) : (numbered n ops).map PcqCall.op = ops := by
  induction ops generalizing n with
  | nil => rfl
  | cons op ops ih =>
    cases op with
    | enqueue => simpa [numbered, PcqCall.op] using ih (n + 1)
    | dequeue => simpa [numbered, PcqCall.op] using ih n

theorem numbered_elem {n v : UInt64} {ops : List PcqOp} {k : Nat}
    (h : ((numbered n ops).filterMap PcqCall.elem)[k]? = some v) : v = n + UInt64.ofNat k := by
  induction ops generalizing n k with
  | nil => simp [numbered] at h
  | cons op ops ih =>
    cases op with
    | dequeue => exact ih h
    | enqueue =>
      cases k with
      | zero =>
        simp only [numbered, List.filterMap_cons, PcqCall.elem, List.getElem?_cons_zero,
          Option.some.injEq] at h
        simp [h]
      | succ k =>
        simp only [numbered, List.filterMap_cons, PcqCall.elem, List.getElem?_cons_succ] at h
        rw [ih h, UInt64.ofNat_add, UInt64.add_assoc, UInt64.add_comm 1]
        rfl

section
variable {capacity usable : Nat} {ops : List PcqOp}

theorem fifo_of_one (hlt : capacity < 2 ^ 64) (henough : sizeMul capacity sizeofVoid ≤ usable)
    (hv : Orderly capacity 0 ops) (hd : ops.count .dequeue ≤ 1)
    (hin : sizeofPointer * ops.count .enqueue ≤ usable) (content : Nat → UInt64)
    {cs : List PcqCall} (hcs : cs.map PcqCall.op = ops) :
    Fifo (pcqCreate capacity (some ⟨usable, content, henough⟩)).2 cs := by
  rintro pre ⟨post, rfl⟩
  subst hcs
  rw [List.map_append] at hv hd hin
  rw [List.count_append] at hd hin
  obtain ⟨rs, q', hrun, h', hrs⟩ := filled_run hlt (filled_create content henough)
    (Nat.zero_le _) (orderly_append hv) (by unfold dequeues; omega)
    (by unfold enqueues sizeofPointer at *; simp only [List.length_nil]; omega)
  have hsize := h'.size
  rw [List.nil_append, length_elems, Nat.zero_add] at hsize
  exact ⟨rs, q', hrun, by simpa using hrs, hsize⟩

/-- The second of two dequeues does not return the second element. -/
theorem one_of_fifo (hlt : capacity < 2 ^ 64) (henough : sizeMul capacity sizeofVoid ≤ usable)
    (hv : Orderly capacity 0 ops)
    (h : ∀ content cs, cs.map PcqCall.op = ops →
      Fifo (pcqCreate capacity (some ⟨usable, content, henough⟩)).2 cs) :
    ops.count .dequeue ≤ 1 := by
  by_contra htwo
  obtain ⟨pre, post, rfl, hpre⟩ := exists_append_of_lt_count (k := 1) (by omega :
    1 < ops.count .dequeue)
  have hcs : (numbered 0 pre ++ .pcqDequeue :: numbered 0 post).map PcqCall.op =
      pre ++ .dequeue :: post := by
    simp [numbered_op, PcqCall.op]
  have hfifo := h (fun _ => 0) _ hcs
  have hdeq : dequeues (numbered 0 pre) = 1 := by unfold dequeues; rw [numbered_op]; exact hpre
  obtain ⟨rs, q', hrun, hrs, hsize⟩ := hfifo (numbered 0 pre ++ [.pcqDequeue])
    ⟨numbered 0 post, by simp⟩
  obtain ⟨rs₁, q₁, rs₂, h1, h2, rfl⟩ := run_append_eq_ok hrun
  -- the state before the second dequeue
  have hv' : Orderly capacity ([] : List UInt64).length ((numbered 0 pre).map PcqCall.op) := by
    rw [numbered_op]
    exact orderly_append hv
  have hcreate := filled_create (fun _ => 0) henough
  have hfit := filled_run_fits hlt hcreate (Nat.zero_le _) hv' (by omega) h1
  obtain ⟨rs₃, q₃, h3, hfilled, hrs₃⟩ := filled_run hlt hcreate (Nat.zero_le _) hv' (by omega) hfit
  rw [h1] at h3
  simp only [ok.injEq, Prod.mk.injEq] at h3
  obtain ⟨rfl, rfl⟩ := h3
  rw [hdeq, List.nil_append] at hfilled hrs₃
  obtain ⟨r, q₂, rs₄, h4, h5, rfl⟩ := run_cons_eq_ok h2
  simp only [run, ok.injEq, Prod.mk.injEq] at h5
  obtain ⟨rfl, rfl⟩ := h5
  simp only [execData, bind_eq_ok, pure_eq, ok.injEq, Prod.mk.injEq] at h4
  obtain ⟨⟨v, q₅⟩, h4, rfl, rfl⟩ := h4
  -- what it returns should be the second element
  have hsecond : ((numbered 0 pre).filterMap PcqCall.elem)[1]? = some v := by
    have hlen := length_elems (numbered 0 pre)
    generalize hl : (numbered 0 pre).filterMap PcqCall.elem = l at *
    have hdeq' : dequeues (numbered 0 pre ++ [PcqCall.pcqDequeue]) = 2 := by
      unfold dequeues at hdeq ⊢
      rw [List.map_append, List.count_append, hdeq]
      rfl
    have henq' : enqueues (numbered 0 pre ++ [PcqCall.pcqDequeue]) = l.length := by
      rw [hlen]
      unfold enqueues
      rw [List.map_append, List.count_append]
      rfl
    rw [hdeq', henq'] at hsize
    have hl' : (numbered 0 pre ++ [PcqCall.pcqDequeue]).filterMap PcqCall.elem = l := by
      rw [List.filterMap_append, hl]
      exact List.append_nil l
    have happ : (rs₁ ++ [some v]).filterMap id = rs₁.filterMap id ++ [v] := List.filterMap_append
    rw [hdeq', hl', happ, hrs₃, List.drop_zero] at hrs
    have htake : (l.take 1).length = 1 := by rw [List.length_take]; omega
    calc l[1]? = (l.take 2)[1]? := (List.getElem?_take_of_lt (by omega)).symm
      _ = (l.take 1 ++ [v])[1]? := by rw [hrs]
      _ = some v := by rw [List.getElem?_append_right (by omega), htake]; rfl
  have hone : v = 1 := numbered_elem hsecond
  subst hone
  rcases filled_dequeue_second hfilled h4 with hthird | hfresh
  · exact absurd (numbered_elem hthird.symm) (by decide)
  · exact absurd hfresh (by decide)

theorem fifo_iff (hlt : capacity < 2 ^ 64) (henough : sizeMul capacity sizeofVoid ≤ usable)
    (hv : Orderly capacity 0 ops) :
    (∀ content cs, cs.map PcqCall.op = ops →
      Fifo (pcqCreate capacity (some ⟨usable, content, henough⟩)).2 cs) ↔
    ops.count .dequeue ≤ 1 ∧ sizeofPointer * ops.count .enqueue ≤ usable := by
  constructor
  · intro h
    have hd := one_of_fifo hlt henough hv h
    refine ⟨hd, ?_⟩
    obtain ⟨rs, q', hrun, -⟩ := h (fun _ => 0) (numbered 0 ops) (numbered_op 0 ops) _
      (List.prefix_refl _)
    have hfit := filled_run_fits hlt (filled_create _ henough) (Nat.zero_le _)
      (by rw [numbered_op]; exact hv) (by unfold dequeues; rw [numbered_op]; omega) hrun
    unfold enqueues at hfit
    rw [numbered_op] at hfit
    simp only [List.length_nil] at hfit
    unfold sizeofPointer
    omega
  · rintro ⟨hd, hin⟩ content cs hcs
    exact fifo_of_one hlt henough hv hd hin content hcs

end

/-- Four slots, of which three get used. -/
def fourSlots (content : Nat → UInt64) : PcQueue :=
  (pcqCreate 32 (some ⟨32, content, by decide⟩)).2

theorem fifo_iff_fourSlots :
    (∀ content cs, cs.map PcqCall.op = [.enqueue, .enqueue, .dequeue, .enqueue] →
      Fifo (fourSlots content) cs) ↔
    [PcqOp.enqueue, .enqueue, .dequeue, .enqueue].count .dequeue ≤ 1 ∧
      sizeofPointer * [PcqOp.enqueue, .enqueue, .dequeue, .enqueue].count .enqueue ≤ 32 :=
  fifo_iff (by decide) (by decide) ⟨by decide, by decide, by decide, by decide, trivial⟩

/-- Three elements go in; the second one out is the third. -/
theorem not_fifo :
    ¬ ∀ (capacity usable : Nat) (content : Nat → UInt64)
      (henough : sizeMul capacity sizeofVoid ≤ usable) (cs : List PcqCall),
      1 ≤ capacity → capacity < 2 ^ 64 → Orderly capacity 0 (cs.map PcqCall.op) →
      sizeofPointer * enqueues cs ≤ usable →
      Fifo (pcqCreate capacity (some ⟨usable, content, henough⟩)).2 cs := by
  intro hall
  have h := hall 32 32 (fun _ => 0) (by decide)
    [.pcqEnqueue 1, .pcqEnqueue 2, .pcqEnqueue 3, .pcqDequeue, .pcqDequeue] (by decide) (by decide)
    ⟨by decide, by decide, by decide, by decide, by decide, trivial⟩ (by decide)
  obtain ⟨rs, q', hrun, hrs, -⟩ := h _ (List.prefix_refl _)
  have hanswers : ((run execData (fourSlots fun _ => 0) [.pcqEnqueue 1, .pcqEnqueue 2,
      .pcqEnqueue 3, .pcqDequeue, .pcqDequeue]).getD ([], fourSlots fun _ => 0)).1 =
      [none, none, none, some 1, some 3] := by decide +kernel
  rw [show run execData (fourSlots fun _ => 0) _ = _ from hrun] at hanswers
  change rs = _ at hanswers
  subst hanswers
  revert hrs
  decide +kernel

end Mbroker
