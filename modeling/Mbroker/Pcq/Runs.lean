import Mathlib.Algebra.BigOperators.Fin
import Mathlib.Data.Fintype.BigOperators
import Mbroker.Pcq.Threads

/-!
# How a run of the queue goes

Whatever the threads call and in whatever order they step: a `pcq_dequeue` that has
fetched its element keeps `pcq_current_size_lock`, and a thread that sleeps has it too.
So the data steps of a run are enqueues, at most as many as the capacity, and behind
them at most one dequeue, which fetches the first element (`log_run`).  A call takes
six steps at most, so every run is finite (`steps_run`), and it stops in one of three
ways (`stops_run`).  Memory is flat, as in `Pcq.Threads`.
-/

namespace Mbroker

open CLib CLib.Outcome

/-- What the data step of `c` returns: `pcq_dequeue` the element at the head. -/
def PcqCall.fetched (q : PcQueue) : PcqCall → Option UInt64
  | .pcqEnqueue _ => none
  | .pcqDequeue => some (q.pcqBuffer.cell q.pcqHead)

theorem execData_fetched {q q' : PcQueue} {c : PcqCall} {r : Option UInt64}
    (h : execData q c = ok (r, q')) : r = c.fetched q ∧ q' = c.body.data q := by
  cases c with
  | pcqEnqueue elem =>
    simp only [execData, bind_eq_ok, pure_eq, ok.injEq, Prod.mk.injEq] at h
    obtain ⟨q₁, hq, rfl, rfl⟩ := h
    exact ⟨rfl, enqueueData_eq_enqueued hq⟩
  | pcqDequeue =>
    simp only [execData, bind_eq_ok, pure_eq, ok.injEq, Prod.mk.injEq] at h
    obtain ⟨⟨elem, q₁⟩, hq, rfl, rfl⟩ := h
    refine ⟨?_, dequeueData_eq_dequeued hq⟩
    simp only [dequeueData, bind_eq_ok, pure_eq, ok.injEq, Prod.mk.injEq] at hq
    obtain ⟨v, hv, rfl, -⟩ := hq
    unfold Region.load at hv
    split at hv
    · simp only [ok.injEq] at hv
      rw [← hv]
      rfl
    · cases hv

variable {ι : Type} [DecidableEq ι]

omit [DecidableEq ι] in
/-- The data step that `t` takes next, if its next step is one. -/
def Pcq.logged (s : Pcq ι) (t : ι) : List (PcqCall × Option UInt64) :=
  match s.thread t with
  | ⟨c :: _, .data⟩ => [(c, c.fetched s.queue)]
  | _ => []

/-- The data steps among the steps of `ts`, with what they return. -/
def Pcq.log (s : Pcq ι) : List ι → List (PcqCall × Option UInt64)
  | [] => []
  | t :: ts => s.logged t ++ Pcq.log ((s.step t).getD s) ts

instance decidableSchedule : (ts : List ι) → (s : Pcq ι) →
    Decidable (s.Schedule (fun _ _ => True) ts)
  | [], _ => .isTrue trivial
  | t :: ts, s =>
    have := decidableSchedule ts ((s.step t).getD s)
    inferInstanceAs (Decidable (True ∧ (s.step t).isSome = true ∧
      ((s.step t).getD s).Schedule (fun _ _ => True) ts))

/-! ## The two phases of a run -/

/-- No dequeue has fetched an element: the queue has `elems`, from index 0 on. -/
structure Storing (capacity : Nat) (s : Pcq ι) (elems : List UInt64) : Prop where
  room : elems.length ≤ capacity
  size : s.queue.pcqCurrentSize = elems.length
  head : s.queue.pcqHead = 0
  tail : s.queue.pcqTail = sizeSub elems.length 1
  cells : ∀ i (h : i < elems.length), s.queue.pcqBuffer.cell i = elems[i]
  early : ∀ u c rest l, s.thread u = ⟨c :: rest, l⟩ → c.op = .dequeue →
    l ≠ .unlockFirst ∧ l ≠ .unlockEnd
  owner : ∀ u, s.sync.owner .currentSizeLock = some u →
    ∃ c rest l, s.thread u = ⟨c :: rest, l⟩ ∧ l.sizeLocked c.op = true

/-- A dequeue has fetched the first of `elems`, and its thread keeps `pcq_current_size_lock`. -/
structure Fetched (capacity : Nat) (s : Pcq ι) (elems : List UInt64) : Prop where
  room : elems.length ≤ capacity
  size : s.queue.pcqCurrentSize = elems.length - 1
  kept : ∃ t, s.sync.owner .currentSizeLock = some t ∧ ∀ c rest l, s.thread t = ⟨c :: rest, l⟩ →
    l = .lockSize ∨ c.op = .dequeue ∧ (l = .unlockFirst ∨ l = .unlockEnd)

/-- A thread that is on its way to its data step found that it need not wait. -/
def Goes (s : Pcq ι) : Prop :=
  ∀ t c rest l, s.thread t = ⟨c :: rest, l⟩ → l = .lockEnd ∨ l = .data →
    c.body.waits s.queue = false

/-- The calls that stored `elems`. -/
def stores (elems : List UInt64) : List (PcqCall × Option UInt64) :=
  elems.map fun elem => (.pcqEnqueue elem, none)

structure Logged (capacity : Nat) (s : Pcq ι) (log : List (PcqCall × Option UInt64)) : Prop where
  good : Good s
  goes : Goes s
  pcqCapacity : s.queue.pcqCapacity = capacity
  phase : (∃ elems, log = stores elems ∧ Storing capacity s elems) ∨
    ∃ first rest, log = stores (first :: rest) ++ [(.pcqDequeue, some first)] ∧
      Fetched capacity s (first :: rest)

section
variable {s s' : Pcq ι} {t : ι} {c : PcqCall} {rest : List PcqCall} {capacity : Nat}
  {elems : List UInt64}

omit [DecidableEq ι] in
theorem logged_data (ht : s.thread t = ⟨c :: rest, .data⟩) :
    s.logged t = [(c, c.fetched s.queue)] := by
  unfold Pcq.logged
  rw [ht]

omit [DecidableEq ι] in
theorem logged_ne {l : Line} (ht : s.thread t = ⟨c :: rest, l⟩) (hl : l ≠ .data) :
    s.logged t = [] := by
  unfold Pcq.logged
  rw [ht]
  cases l with
  | data => exact absurd rfl hl
  | _ => rfl

theorem goes_moved (hG : Good s) (hgo : Goes s) (h : Moved s t c rest s') : Goes s' := by
  intro u c' rest' l hu hl
  by_cases hut : u = t
  · subst hut
    cases h with
    | testGoes ht hw =>
      rw [Pcq.goto_thread_self] at hu
      cases hu
      exact hw
    | lockEnd ht hfree =>
      rw [Pcq.goto_thread_self] at hu
      cases hu
      exact hgo u c rest _ ht (Or.inl rfl)
    | _ =>
      rw [Pcq.goto_thread_self] at hu
      cases hu
      exact hl.elim nofun nofun
  · rw [h.thread_ne hut] at hu
    have hlocked : l.sizeLocked c'.op = true := by rcases hl with rfl | rfl <;> rfl
    rw [h.queue_other hG hut (hG.sizeLocked u c' rest' l hu hlocked)]
    exact hgo u c' rest' l hu hl

/-- A step other than the data step, before any fetch. -/
theorem storing_moved (hG : Good s) (hF : Storing capacity s elems) (h : Moved s t c rest s')
    (hline : (s.thread t).line ≠ .data) : Storing capacity s' elems := by
  have hqueue : s'.queue = s.queue := by
    cases h with
    | data ht => exact absurd (by rw [ht]) hline
    | _ => rfl
  refine
    { room := hF.room
      size := by rw [hqueue]; exact hF.size
      head := by rw [hqueue]; exact hF.head
      tail := by rw [hqueue]; exact hF.tail
      cells := by rw [hqueue]; exact hF.cells
      early := fun u c' rest' l hu hop => ?_
      owner := fun u hu => ?_ }
  · by_cases hut : u = t
    · subst hut
      cases h with
      | data ht => exact absurd (by rw [ht]) hline
      | unlockFirst ht =>
        rw [Pcq.goto_thread_self] at hu
        cases hu
        exact absurd rfl (hF.early u c rest _ ht hop).1
      | _ =>
        rw [Pcq.goto_thread_self] at hu
        cases hu
        exact ⟨nofun, nofun⟩
    · rw [h.thread_ne hut] at hu
      exact hF.early u c' rest' l hu hop
  · by_cases hut : u = t
    · subst hut
      cases h with
      | data ht => exact absurd (by rw [ht]) hline
      | unlockFirst ht =>
        have hop : c.op ≠ .dequeue := fun hop => (hF.early u c rest _ ht hop).1 rfl
        rw [Pcq.goto_sync, firstUnlock_enqueue c hop, Sync.unlock_owner_self] at hu
        cases hu
      | unlockEnd ht =>
        rw [Pcq.goto_sync, Sync.unlock_owner_ne (endLock_ne c).symm] at hu
        exact absurd rfl (hF.early u c rest _ ht (hG.sizeOwner u c rest hu ht)).2
      | _ => exact ⟨c, rest, _, Pcq.goto_thread_self _ _ _ _ _, rfl⟩
    · rw [h.thread_ne hut]
      rcases h.sizeOwner with ⟨-, -, hnew⟩ | ⟨-, -, hnone⟩ | ⟨-, hsame⟩
      · rw [hnew] at hu
        cases hu
        exact absurd rfl hut
      · rw [hnone] at hu
        cases hu
      · rw [hsame] at hu
        exact hF.owner u hu

/-- The element goes behind the others. -/
theorem storing_enqueue (hlt : capacity < 2 ^ 64) (hG : Good s) (hgo : Goes s)
    (hcap : s.queue.pcqCapacity = capacity) (hF : Storing capacity s elems) {elem : UInt64}
    (ht : s.thread t = ⟨.pcqEnqueue elem :: rest, .data⟩) :
    Storing capacity (s.goto t ⟨.pcqEnqueue elem :: rest, .unlockFirst⟩ (s.queue.enqueued elem)
      s.sync) (elems ++ [elem]) := by
  have hroom := hF.room
  have hnot := hgo t _ rest _ ht (Or.inr rfl)
  have hfull : elems.length ≠ capacity := by
    intro he
    simp [PcqCall.body, pcqEnqueue, hF.size, hcap, he] at hnot
  have hindex : (if s.queue.pcqTail = s.queue.pcqCapacity then 0 else sizeAdd s.queue.pcqTail 1) =
      elems.length := by
    rw [hF.tail, hcap]
    unfold sizeSub sizeAdd
    split <;> omega
  have hlen : (elems ++ [elem]).length = elems.length + 1 := by simp
  refine
    { room := by omega
      size := ?_
      head := hF.head
      tail := ?_
      cells := fun i hi => ?_
      early := fun u c' rest' l hu hop => ?_
      owner := fun u hu => ?_ }
  · simp only [Pcq.goto_queue, PcQueue.enqueued, hF.size, hlen]
    exact sizeAdd_of_lt (by omega)
  · simp only [Pcq.goto_queue, PcQueue.enqueued, hindex, hlen]
    rw [sizeSub_of_le (by omega) (by omega), Nat.add_sub_cancel]
  · simp only [Pcq.goto_queue, PcQueue.enqueued, hindex, Region.set_cell]
    by_cases hie : i = elems.length
    · subst hie
      simp
    · rw [if_neg hie, List.getElem_append_left (by omega)]
      exact hF.cells i (by omega)
  · by_cases hut : u = t
    · subst hut
      rw [Pcq.goto_thread_self] at hu
      cases hu
      cases hop
    · rw [Pcq.goto_thread_ne _ _ _ _ hut] at hu
      exact hF.early u c' rest' l hu hop
  · have howner := hG.sizeLocked t _ rest _ ht rfl
    rw [Pcq.goto_sync, howner] at hu
    cases hu
    exact ⟨_, rest, _, Pcq.goto_thread_self _ _ _ _ _, rfl⟩

/-- A dequeue fetches the first element. -/
theorem storing_dequeue (hlt : capacity < 2 ^ 64) (hG : Good s) (hgo : Goes s)
    (hF : Storing capacity s elems) (ht : s.thread t = ⟨.pcqDequeue :: rest, .data⟩) :
    ∃ first others, elems = first :: others ∧ PcqCall.pcqDequeue.fetched s.queue = some first ∧
      Fetched capacity (s.goto t ⟨.pcqDequeue :: rest, .unlockFirst⟩ s.queue.dequeued s.sync)
        elems := by
  have hnot := hgo t _ rest _ ht (Or.inr rfl)
  have hroom := hF.room
  cases elems with
  | nil => simp [PcqCall.body, pcqDequeue, hF.size] at hnot
  | cons first others =>
    refine ⟨first, others, rfl, ?_, hroom, ?_, t, ?_, fun c' rest' l hu => ?_⟩
    · simp only [PcqCall.fetched, hF.head]
      rw [hF.cells 0 (Nat.succ_pos _)]
      rfl
    · have hsize : (s.queue.dequeued).pcqCurrentSize = sizeSub s.queue.pcqCurrentSize 1 := by
        unfold PcQueue.dequeued
        simp only
        split <;> rfl
      rw [Pcq.goto_queue, hsize, hF.size]
      exact sizeSub_of_le (by omega) (Nat.succ_pos _)
    · exact hG.sizeLocked t _ rest _ ht rfl
    · rw [Pcq.goto_thread_self] at hu
      cases hu
      exact Or.inr ⟨rfl, Or.inl rfl⟩

/-- Once an element was fetched there is no data step, and the lock is kept. -/
theorem fetched_moved (hG : Good s) (hF : Fetched capacity s elems) (h : Moved s t c rest s') :
    (s.thread t).line ≠ .data ∧ Fetched capacity s' elems := by
  obtain ⟨v, hv, hline⟩ := hF.kept
  have hdata : (s.thread t).line ≠ .data := by
    intro hl
    have ht := h.thread
    rw [hl] at ht
    have ho := hG.sizeLocked t c rest _ ht rfl
    rw [hv] at ho
    cases ho
    rcases hline c rest _ ht with hl | ⟨-, hl | hl⟩ <;> cases hl
  have hqueue : s'.queue = s.queue := by
    cases h with
    | data ht => exact absurd (by rw [ht]) hdata
    | _ => rfl
  refine ⟨hdata, hF.room, by rw [hqueue]; exact hF.size, v, ?_, fun c' rest' l hu => ?_⟩
  · rcases h.sizeOwner with ⟨-, hfree, -⟩ | ⟨hl, hop, -⟩ | ⟨-, hsame⟩
    · rw [hfree] at hv
      cases hv
    · have ht := h.thread
      rw [hl] at ht
      have ho := hG.sizeLocked t c rest _ ht rfl
      rw [hv] at ho
      cases ho
      rcases hline c rest _ ht with hl | ⟨hdeq, -⟩
      · cases hl
      · exact absurd hdeq hop
    · rw [hsame, hv]
  · by_cases hvt : v = t
    · subst hvt
      cases h with
      | lockSize ht hfree =>
        rw [hfree] at hv
        cases hv
      | unlockFirst ht =>
        rw [Pcq.goto_thread_self] at hu
        cases hu
        rcases hline c rest _ ht with hl | ⟨hdeq, -⟩
        · cases hl
        · exact Or.inr ⟨hdeq, Or.inr rfl⟩
      | unlockEnd ht =>
        rw [Pcq.goto_thread_self] at hu
        cases hu
        exact Or.inl rfl
      | _ ht => rcases hline c rest _ ht with hl | ⟨-, hl | hl⟩ <;> cases hl
    · rw [h.thread_ne hvt] at hu
      exact hline c' rest' l hu

/-- What one step does to the log. -/
theorem logged_moved (hlt : capacity < 2 ^ 64) {log : List (PcqCall × Option UInt64)}
    (hL : Logged capacity s log) (h : Moved s t c rest s') :
    Logged capacity s' (log ++ s.logged t) := by
  have hcap : s'.queue.pcqCapacity = capacity := by
    rw [← hL.pcqCapacity]
    cases h with
    | data ht =>
      cases c with
      | pcqEnqueue elem => rfl
      | pcqDequeue =>
        show s.queue.dequeued.pcqCapacity = _
        unfold PcQueue.dequeued
        simp only
        split <;> rfl
    | _ => rfl
  refine ⟨good_moved hL.good h, goes_moved hL.good hL.goes h, hcap, ?_⟩
  by_cases hdata : (s.thread t).line = .data
  · have ht := h.thread
    rw [hdata] at ht
    rw [logged_data ht]
    rcases hL.phase with ⟨elems, rfl, hF⟩ | ⟨first, others, -, hF⟩
    · cases h with
      | data ht =>
        cases c with
        | pcqEnqueue elem =>
          refine Or.inl ⟨elems ++ [elem], ?_,
            storing_enqueue hlt hL.good hL.goes hL.pcqCapacity hF ht⟩
          simp [stores, PcqCall.fetched]
        | pcqDequeue =>
          obtain ⟨first, others, rfl, hfirst, hF'⟩ := storing_dequeue hlt hL.good hL.goes hF ht
          exact Or.inr ⟨first, others, by rw [hfirst], hF'⟩
      | _ ht' =>
        rw [ht'] at hdata
        cases hdata
    · exact absurd hdata (fetched_moved hL.good hF h).1
  · rw [logged_ne h.thread hdata, List.append_nil]
    rcases hL.phase with ⟨elems, hlog, hF⟩ | ⟨first, others, hlog, hF⟩
    · exact Or.inl ⟨elems, hlog, storing_moved hL.good hF h hdata⟩
    · exact Or.inr ⟨first, others, hlog, (fetched_moved hL.good hF h).2⟩

/-! ## The calls that have ended -/

/-- The data steps of all calls that have ended, or are past it, are in the log. -/
def Recorded (calls : ι → List PcqCall) (s : Pcq ι) (log : List (PcqCall × Option UInt64)) : Prop :=
  ∀ t, ∃ ended, calls t = ended ++ (s.thread t).calls ∧ (∀ c ∈ ended, c ∈ log.map Prod.fst) ∧
    ∀ c rest l, s.thread t = ⟨c :: rest, l⟩ → l = .unlockFirst ∨ l = .unlockEnd →
      c ∈ log.map Prod.fst

theorem recorded_moved {calls : ι → List PcqCall} {log : List (PcqCall × Option UInt64)}
    (hR : Recorded calls s log) (h : Moved s t c rest s') :
    Recorded calls s' (log ++ s.logged t) := by
  have hmem : ∀ {c'}, c' ∈ log.map Prod.fst → c' ∈ (log ++ s.logged t).map Prod.fst := by
    intro c' hc'
    rw [List.map_append]
    exact List.mem_append_left _ hc'
  intro u
  obtain ⟨ended, hcalls, hover, hpast⟩ := hR u
  by_cases hut : u = t
  · subst hut
    cases h with
    | data ht =>
      rw [ht] at hcalls
      refine ⟨ended, by rw [Pcq.goto_thread_self]; exact hcalls, fun c' hc' => hmem (hover c' hc'),
        fun c' rest' l hu _ => ?_⟩
      rw [Pcq.goto_thread_self] at hu
      cases hu
      rw [logged_data ht]
      simp
    | unlockFirst ht =>
      rw [ht] at hcalls
      refine ⟨ended, by rw [Pcq.goto_thread_self]; exact hcalls, fun c' hc' => hmem (hover c' hc'),
        fun c' rest' l hu _ => ?_⟩
      rw [Pcq.goto_thread_self] at hu
      cases hu
      exact hmem (hpast c rest _ ht (Or.inl rfl))
    | unlockEnd ht =>
      rw [ht] at hcalls
      refine ⟨ended ++ [c], ?_, fun c' hc' => ?_, fun c' rest' l hu hl => ?_⟩
      · rw [Pcq.goto_thread_self, hcalls, List.append_assoc]
        rfl
      · rcases List.mem_append.mp hc' with hc' | hc'
        · exact hmem (hover c' hc')
        · rw [List.mem_singleton] at hc'
          subst hc'
          exact hmem (hpast c' rest _ ht (Or.inr rfl))
      · rw [Pcq.goto_thread_self] at hu
        cases hu
        exact hl.elim nofun nofun
    | _ ht =>
      rw [ht] at hcalls
      refine ⟨ended, by rw [Pcq.goto_thread_self]; exact hcalls, fun c' hc' => hmem (hover c' hc'),
        fun c' rest' l hu hl => ?_⟩
      rw [Pcq.goto_thread_self] at hu
      cases hu
      exact hl.elim nofun nofun
  · rw [h.thread_ne hut]
    exact ⟨ended, hcalls, fun c' hc' => hmem (hover c' hc'),
      fun c' rest' l hu hl => hmem (hpast c' rest' l hu hl)⟩

/-! ## Steps -/

/-- The steps that a call has taken. -/
def Line.taken : Line → Nat
  | .lockSize => 0
  | .test => 1
  | .wait | .lockEnd => 2
  | .asleep | .data => 3
  | .unlockFirst => 4
  | .unlockEnd => 5

/-- The steps that a thread has left, when none of its calls waits. -/
def Thread.left (th : Thread) : Nat := 6 * th.calls.length - th.line.taken

theorem left_moved (h : Moved s t c rest s') :
    (s'.thread t).left + 1 = (s.thread t).left ∧
      ∀ u, u ≠ t → (s'.thread u).left = (s.thread u).left := by
  refine ⟨?_, fun u hu => by rw [h.thread_ne hu]⟩
  cases h with
  | unlockEnd ht =>
    rw [Pcq.goto_thread_self, ht]
    simp only [Thread.left, List.length_cons, Line.taken]
    omega
  | _ ht =>
    rw [Pcq.goto_thread_self, ht]
    simp only [Thread.left, List.length_cons, Line.taken]
    omega

theorem sum_left_moved [Fintype ι] (h : Moved s t c rest s') :
    ∑ u, (s'.thread u).left + 1 = ∑ u, (s.thread u).left := by
  obtain ⟨hself, hother⟩ := left_moved h
  rw [← Finset.add_sum_erase _ _ (Finset.mem_univ t),
    ← Finset.add_sum_erase _ _ (Finset.mem_univ t), ← hself,
    Finset.sum_congr rfl fun u hu => hother u (Finset.ne_of_mem_erase hu)]
  omega

end

/-! ## Runs -/

section
variable {capacity : Nat}

omit [DecidableEq ι] in
theorem logged_initial (block : Block (sizeMul capacity sizeofVoid)) (calls : ι → List PcqCall) :
    Logged capacity (Pcq.initial block calls) [] where
  good := good_initial block calls
  goes t c rest l h hl := by
    obtain ⟨-, rfl⟩ := Thread.mk.inj h
    exact hl.elim nofun nofun
  pcqCapacity := rfl
  phase := by
    refine Or.inl ⟨[], rfl, ?_⟩
    exact
      { room := Nat.zero_le _
        size := rfl
        head := rfl
        tail := rfl
        cells := nofun
        early := fun u c rest l h _ => by
          obtain ⟨-, rfl⟩ := Thread.mk.inj h
          exact ⟨nofun, nofun⟩
        owner := nofun }

omit [DecidableEq ι] in
theorem recorded_initial (block : Block (sizeMul capacity sizeofVoid)) (calls : ι → List PcqCall) :
    Recorded calls (Pcq.initial block calls) [] := by
  intro t
  refine ⟨[], rfl, nofun, fun c rest l h hl => ?_⟩
  obtain ⟨-, rfl⟩ := Thread.mk.inj h
  exact hl.elim nofun nofun

/-- What each step keeps holds behind every schedule. -/
theorem logged_schedule (hlt : capacity < 2 ^ 64) {calls : ι → List PcqCall} {s : Pcq ι}
    {log : List (PcqCall × Option UInt64)} (hL : Logged capacity s log) (hR : Recorded calls s log)
    {ts : List ι} (hts : s.Schedule (fun _ _ => True) ts) :
    Logged capacity (s.after ts) (log ++ s.log ts) ∧
      Recorded calls (s.after ts) (log ++ s.log ts) := by
  induction ts generalizing s log with
  | nil =>
    rw [Pcq.log, List.append_nil]
    exact ⟨hL, hR⟩
  | cons t ts ih =>
    obtain ⟨-, hs, hrest⟩ := hts
    obtain ⟨s', hs'⟩ := Option.isSome_iff_exists.mp hs
    obtain ⟨c, rest, hm⟩ := step_moved hL.good.sleeps hs'
    rw [hs', Option.getD_some] at hrest
    rw [Pcq.log, Pcq.after, hs', Option.getD_some, ← List.append_assoc]
    exact ih (logged_moved hlt hL hm) (recorded_moved hR hm) hrest

/-- In every run the data steps are enqueues, no more than the capacity, and then at most one
dequeue, which fetches the element of the first enqueue; the size counts the rest. -/
theorem log_run (hlt : capacity < 2 ^ 64) (block : Block (sizeMul capacity sizeofVoid))
    (calls : ι → List PcqCall) (ts : List ι)
    (hts : (Pcq.initial block calls).Schedule (fun _ _ => True) ts) :
    ∃ elems, elems.length ≤ capacity ∧
      (((Pcq.initial block calls).log ts = stores elems ∧
        ((Pcq.initial block calls).after ts).queue.pcqCurrentSize = elems.length) ∨
      ∃ first rest, elems = first :: rest ∧
        (Pcq.initial block calls).log ts = stores elems ++ [(.pcqDequeue, some first)] ∧
        ((Pcq.initial block calls).after ts).queue.pcqCurrentSize = rest.length ∧
        ((Pcq.initial block calls).after ts).sync.owner .currentSizeLock ≠ none) := by
  have hL := (logged_schedule hlt (logged_initial block calls) (recorded_initial block calls) hts).1
  rw [List.nil_append] at hL
  rcases hL.phase with ⟨elems, hlog, hF⟩ | ⟨first, rest, hlog, hF⟩
  · exact ⟨elems, hF.room, Or.inl ⟨hlog, hF.size⟩⟩
  · obtain ⟨t, ht, -⟩ := hF.kept
    refine ⟨first :: rest, hF.room, Or.inr ⟨first, rest, rfl, hlog, hF.size, ?_⟩⟩
    rw [ht]
    exact nofun

/-- A call takes at most six steps. -/
theorem steps_run [Fintype ι] (block : Block (sizeMul capacity sizeofVoid))
    (calls : ι → List PcqCall) (ts : List ι)
    (hts : (Pcq.initial block calls).Schedule (fun _ _ => True) ts) :
    ts.length ≤ 6 * ∑ t, (calls t).length := by
  have hrun : ∀ (ts : List ι) (s : Pcq ι), Good s → s.Schedule (fun _ _ => True) ts →
      ts.length ≤ ∑ t, (s.thread t).left := by
    intro ts
    induction ts with
    | nil => exact fun _ _ _ => Nat.zero_le _
    | cons t ts ih =>
      intro s hG hts
      obtain ⟨-, hs, hrest⟩ := hts
      obtain ⟨s', hs'⟩ := Option.isSome_iff_exists.mp hs
      obtain ⟨c, rest, hm⟩ := step_moved hG.sleeps hs'
      rw [hs', Option.getD_some] at hrest
      have := ih s' (good_moved hG hm) hrest
      rw [← sum_left_moved hm, List.length_cons]
      omega
  have h := hrun ts _ (good_initial block calls) hts
  rw [Finset.mul_sum]
  exact h

/-- Thread `t` is through or waits for `pcq_current_size_lock`. -/
def Pcq.DoneOrWaits (s : Pcq ι) (t : ι) : Prop :=
  (s.thread t).calls = [] ∨ (s.thread t).line = .lockSize

/-- How a run stops: all calls are enqueues and have returned; or one thread sleeps for ever in a
dequeue from the empty queue or an enqueue into the full one; or the one dequeue that fetched its
element keeps the others waiting. -/
inductive Stopped (capacity : Nat) (calls : ι → List PcqCall)
    (log : List (PcqCall × Option UInt64)) (s : Pcq ι) : Prop
  | returned (elems : List UInt64) (hlog : log = stores elems)
      (hcalls : ∀ t, PcqCall.pcqDequeue ∉ calls t) (hdone : ∀ t, (s.thread t).calls = [])
  | asleep (t : ι) (c : PcqCall) (rest : List PcqCall) (elems : List UInt64)
      (hlog : log = stores elems) (ht : s.thread t = ⟨c :: rest, .asleep⟩)
      (hwhy : c.op = .dequeue ∧ elems = [] ∨ c.op = .enqueue ∧ elems.length = capacity)
      (hothers : ∀ u, u ≠ t → s.DoneOrWaits u)
  | fetched (first : UInt64) (rest : List UInt64)
      (hlog : log = stores (first :: rest) ++ [(.pcqDequeue, some first)])
      (hothers : ∀ u, s.DoneOrWaits u)

section
variable {s : Pcq ι} {log : List (PcqCall × Option UInt64)} {calls : ι → List PcqCall}

/-- A thread of a state without a step: one that sleeps has `pcq_current_size_lock`. -/
theorem stuck_thread (hG : Good s) (hstuck : ∀ t, s.step t = none) (t : ι) :
    (s.thread t).calls = [] ∨
      ((s.thread t).line = .lockSize ∧ s.sync.owner .currentSizeLock ≠ none) ∨
      ∃ c rest, s.thread t = ⟨c :: rest, .asleep⟩ ∧ s.sync.owner .currentSizeLock = some t := by
  cases ht : s.thread t with
  | mk cs l =>
    cases cs with
    | nil => exact Or.inl rfl
    | cons c rest =>
      rcases stuck_line hG hstuck ht with ⟨rfl, howner⟩ | rfl
      · exact Or.inr (Or.inl ⟨rfl, howner⟩)
      · exact Or.inr (Or.inr ⟨c, rest, rfl, hG.sizeLocked t c rest _ ht rfl⟩)

/-- All but a sleeping owner of the lock have returned or wait for it. -/
theorem stuck_others (hG : Good s) (hstuck : ∀ t, s.step t = none) {t : ι}
    (ht : s.sync.owner .currentSizeLock = some t) {u : ι} (hu : u ≠ t) : s.DoneOrWaits u := by
  rcases stuck_thread hG hstuck u with hnil | ⟨hline, -⟩ | ⟨c, rest, -, howner⟩
  · exact Or.inl hnil
  · exact Or.inr hline
  · rw [ht] at howner
    cases howner
    exact absurd rfl hu

/-- Nobody has the lock: all threads are through. -/
theorem stopped_returned (hG : Good s) (hstuck : ∀ t, s.step t = none) (hR : Recorded calls s log)
    {elems : List UInt64} (hlog : log = stores elems)
    (hown : s.sync.owner .currentSizeLock = none) : Stopped capacity calls log s := by
  have hdone : ∀ t, (s.thread t).calls = [] := by
    intro t
    rcases stuck_thread hG hstuck t with hnil | ⟨-, howner⟩ | ⟨c, rest, -, howner⟩
    · exact hnil
    · exact absurd hown howner
    · rw [hown] at howner
      cases howner
  refine .returned elems hlog (fun t hmem => ?_) hdone
  obtain ⟨ended, hcalls, hover, -⟩ := hR t
  rw [hdone t, List.append_nil] at hcalls
  have := hover _ (hcalls ▸ hmem)
  rw [hlog] at this
  simp [stores] at this

/-- Thread `t` has the lock, before any dequeue. -/
theorem stopped_asleep (hL : Logged capacity s log) (hstuck : ∀ t, s.step t = none)
    {elems : List UInt64} (hlog : log = stores elems) (hS : Storing capacity s elems) {t : ι}
    (hown : s.sync.owner .currentSizeLock = some t) : Stopped capacity calls log s := by
  obtain ⟨c, rest, l, ht, hlocked⟩ := hS.owner t hown
  have hl : l = .asleep := by
    rcases stuck_line hL.good hstuck ht with ⟨rfl, -⟩ | hl
    · cases hlocked
    · exact hl
  subst hl
  refine .asleep t c rest elems hlog ht ?_ fun u hu => stuck_others hL.good hstuck hown hu
  have hw := hL.good.waits t c rest _ ht (Or.inr rfl)
  cases c with
  | pcqEnqueue elem =>
    refine Or.inr ⟨rfl, ?_⟩
    simpa [PcqCall.body, pcqEnqueue, hS.size, hL.pcqCapacity] using hw
  | pcqDequeue =>
    refine Or.inl ⟨rfl, ?_⟩
    simpa [PcqCall.body, pcqDequeue, hS.size] using hw

/-- Behind a dequeue no thread sleeps. -/
theorem stopped_fetched (hG : Good s) (hstuck : ∀ t, s.step t = none) {first : UInt64}
    {rest : List UInt64} (hlog : log = stores (first :: rest) ++ [(.pcqDequeue, some first)])
    (hF : Fetched capacity s (first :: rest)) : Stopped capacity calls log s := by
  obtain ⟨t, ht, hkept⟩ := hF.kept
  refine .fetched first rest hlog fun u => ?_
  rcases stuck_thread hG hstuck u with hnil | ⟨hline, -⟩ | ⟨c, rest', hu, howner⟩
  · exact Or.inl hnil
  · exact Or.inr hline
  · rw [ht] at howner
    cases howner
    rcases hkept c rest' _ hu with h | ⟨-, h | h⟩ <;> cases h

end

theorem stops_run (hlt : capacity < 2 ^ 64) (block : Block (sizeMul capacity sizeofVoid))
    (calls : ι → List PcqCall) (ts : List ι)
    (hts : (Pcq.initial block calls).Schedule (fun _ _ => True) ts)
    (hstuck : ∀ t, ((Pcq.initial block calls).after ts).step t = none) :
    Stopped capacity calls ((Pcq.initial block calls).log ts)
      ((Pcq.initial block calls).after ts) := by
  obtain ⟨hL, hR⟩ :=
    logged_schedule hlt (logged_initial block calls) (recorded_initial block calls) hts
  rw [List.nil_append] at hL hR
  rcases hL.phase with ⟨elems, hlog, hS⟩ | ⟨first, rest, hlog, hF⟩
  · cases hown : ((Pcq.initial block calls).after ts).sync.owner .currentSizeLock with
    | none => exact stopped_returned hL.good hstuck hR hlog hown
    | some t => exact stopped_asleep hL hstuck hlog hS hown
  · exact stopped_fetched hL.good hstuck hlog hF

end

/-- Two elements are stored, the first is fetched, and the second dequeue waits for ever. -/
def twoAndTwo (t : Bool) : List PcqCall :=
  if t then [.pcqDequeue, .pcqDequeue] else [.pcqEnqueue 7, .pcqEnqueue 8]

/-- Room for two elements. -/
def twoElements : Block (sizeMul 2 sizeofVoid) := ⟨16, fun _ => 0, by decide⟩

def twoSteps : List Bool := List.replicate 12 false ++ List.replicate 6 true

theorem log_run_two : ∃ elems, elems.length ≤ 2 ∧
    (((Pcq.initial twoElements twoAndTwo).log twoSteps = stores elems ∧
      ((Pcq.initial twoElements twoAndTwo).after twoSteps).queue.pcqCurrentSize = elems.length) ∨
    ∃ first rest, elems = first :: rest ∧
      (Pcq.initial twoElements twoAndTwo).log twoSteps =
        stores elems ++ [(.pcqDequeue, some first)] ∧
      ((Pcq.initial twoElements twoAndTwo).after twoSteps).queue.pcqCurrentSize = rest.length ∧
      ((Pcq.initial twoElements twoAndTwo).after twoSteps).sync.owner .currentSizeLock ≠ none) := by
  refine log_run (by decide) _ _ _ ?_
  decide

theorem steps_run_two : twoSteps.length ≤ 6 * ∑ t, (twoAndTwo t).length := by
  refine steps_run twoElements _ _ ?_
  decide

theorem stops_run_two : Stopped 2 twoAndTwo ((Pcq.initial twoElements twoAndTwo).log twoSteps)
    ((Pcq.initial twoElements twoAndTwo).after twoSteps) := by
  refine stops_run (by decide) _ _ _ ?_ ?_
  · decide
  · decide

end Mbroker
