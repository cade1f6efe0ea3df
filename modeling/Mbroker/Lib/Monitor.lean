import Mathlib.Logic.Function.Basic
import Mbroker.Lib.Program
import Mbroker.Lib.Run

/-!
# Threads that call guarded programs

Threads `ι` make calls; `body c` is the program of call `c`.  A step is one step of one
thread: the start of a call, a lock, an access, an unlock or a return; `after` runs a
given order of the threads.  `acquired` and `released` record the calls in the order in
which they lock and unlock.

    reaches_serial : if every body is guarded, then in every reachable state the calls that
      have unlocked gave the results, and left the state, of a run one call at a time in
      the order in which they locked
-/

namespace CLib

open Outcome

structure Monitor (σ κ ρ ι : Type) : Type 1 where
  shared : σ
  owner : Option ι
  calls : ι → List κ
  current : ι → Option (κ × Program σ ρ)
  returned : ι → List ρ
  acquired : List (ι × κ)
  released : List (ι × κ)

namespace Monitor

variable {σ κ ρ ι : Type} [DecidableEq ι]

omit [DecidableEq ι] in
def start (s : σ) (calls : ι → List κ) : Monitor σ κ ρ ι :=
  ⟨s, none, calls, fun _ => none, fun _ => [], [], []⟩

/-- Thread `t` goes on at `p` in call `c`. -/
def goto (m : Monitor σ κ ρ ι) (t : ι) (c : κ) (p : Program σ ρ) : Monitor σ κ ρ ι :=
  { m with current := Function.update m.current t (some (c, p)) }

/-- The steps of thread `t`. -/
inductive Step (body : κ → Program σ ρ) (m : Monitor σ κ ρ ι) (t : ι) : Monitor σ κ ρ ι → Prop
  | start {c : κ} {cs : List κ} (ht : m.current t = none) (hcs : m.calls t = c :: cs) :
      Step body m t { m.goto t c (body c) with calls := Function.update m.calls t cs }
  | lock {c : κ} {k : Program σ ρ} (ht : m.current t = some (c, .lock k)) (hfree : m.owner = none) :
      Step body m t { m.goto t c k with owner := some t, acquired := m.acquired ++ [(t, c)] }
  | access {c : κ} {β : Type} {f : σ → Outcome (β × σ)} {k : β → Program σ ρ} {b : β} {s : σ}
      (ht : m.current t = some (c, .access f k)) (hf : f m.shared = ok (b, s)) :
      Step body m t { m.goto t c (k b) with shared := s }
  | unlock {c : κ} {k : Program σ ρ} (ht : m.current t = some (c, .unlock k)) :
      Step body m t { m.goto t c k with owner := none, released := m.released ++ [(t, c)] }
  | ret {c : κ} {r : ρ} (ht : m.current t = some (c, .ret r)) :
      Step body m t { m with
        current := Function.update m.current t none
        returned := Function.update m.returned t (m.returned t ++ [r]) }

/-- The end of the process: a failed assertion or undefined behaviour. -/
def ended {α : Type} : Option String → Outcome α
  | some msg => panic msg
  | none => fault

@[simp] theorem ended_bind {α β : Type} (x : Option String) (f : α → Outcome β) :
    ended x >>= f = ended x := by
  cases x with
  | some msg => exact panic_bind msg f
  | none => exact fault_bind f

/-- The access that thread `t` makes next ends the process, with a failed assertion or otherwise. -/
def Ends (m : Monitor σ κ ρ ι) (t : ι) (x : Option String) : Prop :=
  ∃ (c : κ) (β : Type) (f : σ → Outcome (β × σ)) (k : β → Program σ ρ),
    m.current t = some (c, .access f k) ∧ f m.shared = ended x

/-- The next step of thread `t` is an access. -/
def Accesses (m : Monitor σ κ ρ ι) (t : ι) : Prop :=
  ∃ (c : κ) (β : Type) (f : σ → Outcome (β × σ)) (k : β → Program σ ρ),
    m.current t = some (c, .access f k)

/-- The next step of thread `t` is an unlock. -/
def Unlocks (m : Monitor σ κ ρ ι) (t : ι) : Prop := ∃ c k, m.current t = some (c, .unlock k)

inductive Reaches (body : κ → Program σ ρ) (m₀ : Monitor σ κ ρ ι) : Monitor σ κ ρ ι → Prop
  | refl : Reaches body m₀ m₀
  | tail {m m' : Monitor σ κ ρ ι} {t : ι} (h : Reaches body m₀ m) (hs : Step body m t m') :
      Reaches body m₀ m'

/-! ## Schedules -/

/-- The step that thread `t` can make. -/
def next (body : κ → Program σ ρ) (m : Monitor σ κ ρ ι) (t : ι) : Option (Monitor σ κ ρ ι) :=
  match m.current t with
  | none =>
    match m.calls t with
    | [] => none
    | c :: cs => some { m.goto t c (body c) with calls := Function.update m.calls t cs }
  | some (c, .lock k) =>
    match m.owner with
    | none => some { m.goto t c k with owner := some t, acquired := m.acquired ++ [(t, c)] }
    | some _ => none
  | some (c, .access f k) =>
    match f m.shared with
    | ok (b, s) => some { m.goto t c (k b) with shared := s }
    | _ => none
  | some (c, .unlock k) =>
    some { m.goto t c k with owner := none, released := m.released ++ [(t, c)] }
  | some (_, .ret r) =>
    some { m with
      current := Function.update m.current t none
      returned := Function.update m.returned t (m.returned t ++ [r]) }

/-- The state behind a schedule, the threads in the order of their steps. -/
def after (body : κ → Program σ ρ) (m : Monitor σ κ ρ ι) : List ι → Option (Monitor σ κ ρ ι)
  | [] => some m
  | t :: ts => (m.next body t).bind fun m' => m'.after body ts

theorem step_next {body : κ → Program σ ρ} {m m' : Monitor σ κ ρ ι} {t : ι}
    (h : m.next body t = some m') : Step body m t m' := by
  unfold next at h
  split at h
  next ht =>
    split at h
    · cases h
    next c cs hcs =>
      cases h
      exact .start ht hcs
  next c k ht =>
    split at h
    next hfree =>
      cases h
      exact .lock ht hfree
    · cases h
  next c β f k ht =>
    split at h
    next b s hf =>
      cases h
      exact .access ht hf
    · cases h
  next c k ht =>
    cases h
    exact .unlock ht
  next c r ht =>
    cases h
    exact .ret ht

theorem reaches_after {body : κ → Program σ ρ} {m₀ m m' : Monitor σ κ ρ ι} {ts : List ι}
    (h₀ : Reaches body m₀ m) (h : m.after body ts = some m') : Reaches body m₀ m' := by
  induction ts generalizing m with
  | nil =>
    cases h
    exact h₀
  | cons t ts ih =>
    obtain ⟨m₁, hnext, hrest⟩ := Option.bind_eq_some_iff.mp h
    exact ih (h₀.tail (step_next hnext)) hrest

/-! ## One call at a time -/

/-- Call `c` on its own. -/
def serial (body : κ → Program σ ρ) (s : σ) (c : κ) : Outcome (ρ × σ) := (body c).eval s

/-- The results, among `rs`, of the calls that thread `t` made. -/
def resultsOf (t : ι) (cs : List (ι × κ)) (rs : List ρ) : List ρ :=
  ((cs.zip rs).filter fun e => e.1.1 = t).map Prod.snd

def callsOf (t : ι) (cs : List (ι × κ)) : List κ := (cs.filter fun e => e.1 = t).map Prod.snd

/-- The result of a call that has unlocked and not returned. -/
def pendingResult : Option (κ × Program σ ρ) → List ρ
  | some (_, .ret r) => [r]
  | _ => []

/-- A call that has not locked. -/
def pendingCall : Option (κ × Program σ ρ) → List κ
  | some (c, .lock _) => [c]
  | _ => []

/-- In state `m` the calls that have unlocked are those of a run of `serial` with the answers `rs`,
to state `s`. -/
structure Serial (body : κ → Program σ ρ) (s₀ : σ) (calls : ι → List κ) (m : Monitor σ κ ρ ι)
    (rs : List ρ) (s : σ) : Prop where
  run : run (serial body) s₀ (m.released.map Prod.snd) = ok (rs, s)
  free : m.owner = none → m.acquired = m.released ∧ m.shared = s
  inside : ∀ t, m.owner = some t → ∃ c p, m.current t = some (c, p) ∧ p.Inside ∧
    m.acquired = m.released ++ [(t, c)] ∧ p.eval m.shared = (body c).eval s
  outside : ∀ t c p, m.current t = some (c, p) → m.owner ≠ some t → p = body c ∨ ∃ r, p = .ret r
  results : ∀ t, m.returned t ++ pendingResult (m.current t) = resultsOf t m.released rs
  order : ∀ t, callsOf t m.acquired ++ pendingCall (m.current t) ++ m.calls t = calls t

section
variable {body : κ → Program σ ρ} {s₀ s : σ} {calls : ι → List κ} {m m' : Monitor σ κ ρ ι}
  {rs : List ρ} {t : ι}

theorem guarded_eq {p : Program σ ρ} (h : p.Guarded) : ∃ k, p = .lock k ∧ k.Inside := by
  cases p with
  | lock k => exact ⟨k, rfl, h⟩
  | ret a => exact h.elim
  | access f k => exact h.elim
  | unlock k => exact h.elim

theorem pendingResult_inside {c : κ} {p : Program σ ρ} (h : p.Inside) :
    pendingResult (some (c, p)) = [] := by
  cases p with
  | ret a => exact h.elim
  | _ => rfl

theorem pendingCall_inside {c : κ} {p : Program σ ρ} (h : p.Inside) :
    pendingCall (some (c, p)) = [] := by
  cases p with
  | lock k => exact h.elim
  | _ => rfl

theorem Serial.outside_ret (h : Serial body s₀ calls m rs s) {c : κ} {r : ρ}
    (ht : m.current t = some (c, .ret r)) : m.owner ≠ some t := by
  intro hown
  obtain ⟨c', p, ht', hp, -⟩ := h.inside t hown
  rw [ht] at ht'
  cases ht'
  exact hp

/-- A thread that is neither before its lock nor at its return has the mutex. -/
theorem Serial.owner_of (hg : ∀ c, (body c).Guarded) (h : Serial body s₀ calls m rs s) {c : κ}
    {p : Program σ ρ} (ht : m.current t = some (c, p)) (hlock : ∀ k, p ≠ .lock k)
    (hret : ∀ r, p ≠ .ret r) : m.owner = some t ∧ p.Inside ∧
      m.acquired = m.released ++ [(t, c)] ∧ p.eval m.shared = (body c).eval s := by
  have hown : m.owner = some t := by
    by_contra hne
    rcases h.outside t c p ht hne with rfl | ⟨r, rfl⟩
    · obtain ⟨k, hk, -⟩ := guarded_eq (hg c)
      exact hlock k hk
    · exact hret r rfl
  obtain ⟨c', p', ht', hp, hacq, heval⟩ := h.inside t hown
  rw [ht] at ht'
  cases ht'
  exact ⟨hown, hp, hacq, heval⟩

theorem Serial.owner_of_step (hg : ∀ c, (body c).Guarded) (h : Serial body s₀ calls m rs s)
    (ht : m.Accesses t ∨ m.Unlocks t) : m.owner = some t := by
  rcases ht with ⟨c, β, f, k, ht⟩ | ⟨c, k, ht⟩
  · exact (h.owner_of hg ht nofun nofun).1
  · exact (h.owner_of hg ht nofun nofun).1

/-! ## What a step keeps -/

omit [DecidableEq ι] in
theorem start_serial (body : κ → Program σ ρ) (s₀ : σ) (calls : ι → List κ) [DecidableEq ι] :
    Serial body s₀ calls (start s₀ calls) [] s₀ where
  run := rfl
  free _ := ⟨rfl, rfl⟩
  inside t h := by cases h
  outside t c p h := by cases h
  results t := rfl
  order t := rfl

theorem callsOf_append (t u : ι) (c : κ) (cs : List (ι × κ)) :
    callsOf t (cs ++ [(u, c)]) = callsOf t cs ++ if u = t then [c] else [] := by
  unfold callsOf
  by_cases h : u = t
  · simp [h]
  · simp [h]

theorem resultsOf_append (t u : ι) (c : κ) (r : ρ) {cs : List (ι × κ)} {rs : List ρ}
    (hlen : cs.length = rs.length) :
    resultsOf t (cs ++ [(u, c)]) (rs ++ [r]) = resultsOf t cs rs ++ if u = t then [r] else [] := by
  unfold resultsOf
  rw [List.zip_append hlen]
  by_cases h : u = t
  · simp [h]
  · simp [h]

theorem serial_start (hg : ∀ c, (body c).Guarded) (h : Serial body s₀ calls m rs s) {c : κ}
    {cs : List κ} (ht : m.current t = none) (hcs : m.calls t = c :: cs) :
    Serial body s₀ calls { m.goto t c (body c) with calls := Function.update m.calls t cs } rs s := by
  obtain ⟨k, hk, -⟩ := guarded_eq (hg c)
  have hne : ∀ u, m.owner = some u → u ≠ t := by
    rintro u hu rfl
    obtain ⟨c', p, hc', -⟩ := h.inside u hu
    rw [ht] at hc'
    cases hc'
  refine ⟨h.run, h.free, fun u hu => ?_, fun u c' p hu hown => ?_, fun u => ?_, fun u => ?_⟩
  · have hcur : (m.goto t c (body c)).current u = m.current u := Function.update_of_ne (hne u hu) _ _
    simp only [hcur]
    exact h.inside u hu
  · by_cases hut : u = t
    · subst hut
      simp only [goto, Function.update_self, Option.some.injEq, Prod.mk.injEq] at hu
      obtain ⟨rfl, rfl⟩ := hu
      exact Or.inl rfl
    · simp only [goto, Function.update_of_ne hut] at hu
      exact h.outside u c' p hu hown
  · by_cases hut : u = t
    · subst hut
      simp only [goto, Function.update_self]
      have hold := h.results u
      rw [ht] at hold
      rw [hk]
      exact hold
    · simp only [goto, Function.update_of_ne hut]
      exact h.results u
  · by_cases hut : u = t
    · subst hut
      simp only [goto, Function.update_self]
      have hold := h.order u
      rw [ht, hcs] at hold
      rw [hk, ← hold]
      simp [pendingCall]
    · simp only [goto, Function.update_of_ne hut]
      exact h.order u

theorem serial_lock (hg : ∀ c, (body c).Guarded) (h : Serial body s₀ calls m rs s) {c : κ}
    {k : Program σ ρ} (ht : m.current t = some (c, .lock k)) (hfree : m.owner = none) :
    Serial body s₀ calls
      { m.goto t c k with owner := some t, acquired := m.acquired ++ [(t, c)] } rs s := by
  have hbody : Program.lock k = body c := by
    rcases h.outside t c _ ht (by rw [hfree]; exact nofun) with hb | ⟨r, hr⟩
    · exact hb
    · cases hr
  have hk : k.Inside := by
    have := hg c
    rwa [← hbody] at this
  obtain ⟨hacq, hshared⟩ := h.free hfree
  refine ⟨h.run, nofun, fun u hu => ?_, fun u c' p hu hown => ?_, fun u => ?_, fun u => ?_⟩
  · cases hu
    refine ⟨c, k, Function.update_self _ _ _, hk, ?_, ?_⟩
    · simp [goto, hacq]
    · rw [← hbody]
      simp [goto, hshared]
  · have hut : u ≠ t := fun e => hown (by rw [e])
    simp only [goto, Function.update_of_ne hut] at hu
    exact h.outside u c' p hu (by rw [hfree]; exact nofun)
  · by_cases hut : u = t
    · subst hut
      have hold := h.results u
      rw [ht] at hold
      simp only [goto, Function.update_self, pendingResult_inside hk]
      exact hold
    · simp only [goto, Function.update_of_ne hut]
      exact h.results u
  · have hold := h.order u
    by_cases hut : u = t
    · subst hut
      rw [ht] at hold
      simp only [goto, Function.update_self, pendingCall_inside hk, callsOf_append, if_true]
      simpa [pendingCall] using hold
    · simp only [goto, Function.update_of_ne hut, callsOf_append, if_neg (Ne.symm hut)]
      simpa using hold

theorem serial_access (hg : ∀ c, (body c).Guarded) (h : Serial body s₀ calls m rs s) {c : κ}
    {β : Type} {f : σ → Outcome (β × σ)} {k : β → Program σ ρ} {b : β} {s' : σ}
    (ht : m.current t = some (c, .access f k)) (hf : f m.shared = ok (b, s')) :
    Serial body s₀ calls { m.goto t c (k b) with shared := s' } rs s := by
  obtain ⟨hown, hp, hacq, heval⟩ := h.owner_of hg ht nofun nofun
  refine ⟨h.run, fun hnone => ?_, fun u hu => ?_, fun u c' p hu hne => ?_, fun u => ?_, fun u => ?_⟩
  · rw [show m.owner = none from hnone] at hown
    cases hown
  · rw [show m.owner = some u from hu] at hown
    cases hown
    refine ⟨c, k b, Function.update_self _ _ _, hp b, hacq, ?_⟩
    rw [← heval, Program.eval_access, hf, ok_bind]
  · have hut : u ≠ t := fun e => hne (by rw [e]; exact hown)
    simp only [goto, Function.update_of_ne hut] at hu
    exact h.outside u c' p hu hne
  · have hold := h.results u
    by_cases hut : u = t
    · subst hut
      rw [ht] at hold
      simp only [goto, Function.update_self, pendingResult_inside (hp b)]
      exact hold
    · simp only [goto, Function.update_of_ne hut]
      exact hold
  · have hold := h.order u
    by_cases hut : u = t
    · subst hut
      rw [ht] at hold
      simp only [goto, Function.update_self, pendingCall_inside (hp b)]
      exact hold
    · simp only [goto, Function.update_of_ne hut]
      exact hold

theorem serial_unlock (hg : ∀ c, (body c).Guarded) (h : Serial body s₀ calls m rs s) {c : κ}
    {k : Program σ ρ} (ht : m.current t = some (c, .unlock k)) :
    ∃ r, k = .ret r ∧ Serial body s₀ calls
      { m.goto t c k with owner := none, released := m.released ++ [(t, c)] }
      (rs ++ [r]) m.shared := by
  obtain ⟨hown, ⟨r, rfl⟩, hacq, heval⟩ := h.owner_of hg ht nofun nofun
  rw [Program.eval_unlock, Program.eval_ret] at heval
  have hlen : m.released.length = rs.length := by
    have := run_length h.run
    rw [List.length_map] at this
    exact this.symm
  refine ⟨r, rfl, ?_, fun _ => ⟨hacq, rfl⟩, nofun, fun u c' p hu _ => ?_, fun u => ?_, fun u => ?_⟩
  · rw [List.map_append, List.map_singleton, run_append_singleton, h.run]
    simp only [ok_bind, serial, ← heval]
  · by_cases hut : u = t
    · subst hut
      simp only [goto, Function.update_self, Option.some.injEq, Prod.mk.injEq] at hu
      exact Or.inr ⟨r, hu.2.symm⟩
    · simp only [goto, Function.update_of_ne hut] at hu
      exact h.outside u c' p hu (by rw [hown]; exact fun e => hut (Option.some.inj e).symm)
  · have hold := h.results u
    rw [resultsOf_append u t c r hlen]
    by_cases hut : u = t
    · subst hut
      rw [ht] at hold
      simp only [goto, Function.update_self, if_true]
      rw [← hold]
      simp [pendingResult]
    · simp only [goto, Function.update_of_ne hut, if_neg (Ne.symm hut), List.append_nil]
      exact hold
  · have hold := h.order u
    by_cases hut : u = t
    · subst hut
      rw [ht] at hold
      simp only [goto, Function.update_self]
      exact hold
    · simp only [goto, Function.update_of_ne hut]
      exact hold

theorem serial_ret (h : Serial body s₀ calls m rs s) {c : κ} {r : ρ}
    (ht : m.current t = some (c, .ret r)) :
    Serial body s₀ calls { m with
      current := Function.update m.current t none
      returned := Function.update m.returned t (m.returned t ++ [r]) } rs s := by
  have hout := h.outside_ret ht
  refine ⟨h.run, h.free, fun u hu => ?_, fun u c' p hu hne => ?_, fun u => ?_, fun u => ?_⟩
  · have hut : u ≠ t := fun e => hout (by rw [← e]; exact hu)
    simp only [Function.update_of_ne hut]
    exact h.inside u hu
  · by_cases hut : u = t
    · subst hut
      simp only [Function.update_self] at hu
      cases hu
    · simp only [Function.update_of_ne hut] at hu
      exact h.outside u c' p hu hne
  · have hold := h.results u
    by_cases hut : u = t
    · subst hut
      rw [ht] at hold
      simp only [Function.update_self]
      rw [← hold]
      simp [pendingResult]
    · simp only [Function.update_of_ne hut]
      exact hold
  · have hold := h.order u
    by_cases hut : u = t
    · subst hut
      rw [ht] at hold
      simp only [Function.update_self]
      exact hold
    · simp only [Function.update_of_ne hut]
      exact hold

theorem serial_step (hg : ∀ c, (body c).Guarded) (h : Serial body s₀ calls m rs s)
    (hs : Step body m t m') : ∃ rs' s', Serial body s₀ calls m' rs' s' := by
  cases hs with
  | start ht hcs => exact ⟨rs, s, serial_start hg h ht hcs⟩
  | lock ht hfree => exact ⟨rs, s, serial_lock hg h ht hfree⟩
  | access ht hf => exact ⟨rs, s, serial_access hg h ht hf⟩
  | unlock ht =>
    obtain ⟨r, -, h'⟩ := serial_unlock hg h ht
    exact ⟨_, _, h'⟩
  | ret ht => exact ⟨rs, s, serial_ret h ht⟩

theorem reaches_serial (hg : ∀ c, (body c).Guarded)
    (h : Reaches body (start s₀ calls) m) : ∃ rs s, Serial body s₀ calls m rs s := by
  induction h with
  | refl => exact ⟨[], s₀, start_serial body s₀ calls⟩
  | tail h hs ih =>
    obtain ⟨rs, s, hserial⟩ := ih
    exact serial_step hg hserial hs

/-- A process that ends in an access of thread `t` ends in the serial run too. -/
theorem Serial.ends (hg : ∀ c, (body c).Guarded) (h : Serial body s₀ calls m rs s)
    {x : Option String} (he : m.Ends t x) :
    CLib.run (serial body) s₀ (m.acquired.map Prod.snd) = ended x := by
  obtain ⟨c, β, f, k, ht, hf⟩ := he
  obtain ⟨-, -, hacq, heval⟩ := h.owner_of hg ht nofun nofun
  rw [Program.eval_access, hf, ended_bind] at heval
  rw [hacq, List.map_append, List.map_singleton, run_append_singleton, h.run, ok_bind]
  simp only [serial, ← heval, ended_bind]

end

end Monitor

end CLib
