import Mathlib.Data.DFinsupp.WellFounded
import Mathlib.SetTheory.Cardinal.Order
import Mbroker.Lib.Monitor

/-!
# Threads under a mutex get done

The threads of `Lib.Monitor`, when every body is guarded.  A step takes something from
what its thread has left to do and nothing from the others, so no schedule is infinite
(`step_wf`).  Whoever has the mutex can go on or ends the process (`owner_runs`), so a
schedule stops only when all calls have returned or when the process ends (`stuck`).
What has unlocked at one moment stays in front of everything that locks later
(`reaches_later`).
-/

namespace CLib

open Outcome

namespace Program

variable {σ α : Type}

/-- `q` is `p` behind its first step. -/
inductive Next : Program σ α → Program σ α → Prop
  | access {β : Type} (f : σ → Outcome (β × σ)) (k : β → Program σ α) (b : β) :
      Next (k b) (access f k)
  | lock (k : Program σ α) : Next k (lock k)
  | unlock (k : Program σ α) : Next k (unlock k)

/-- A program is finite on every path. -/
theorem next_wf : WellFounded fun q p : Program σ α => Next q p := by
  constructor
  intro p
  induction p with
  | ret a => exact ⟨_, fun q h => by cases h⟩
  | access f k ih =>
    constructor
    intro q h
    cases h with
    | access _ _ b => exact ih b
  | lock k ih =>
    constructor
    intro q h
    cases h
    exact ih
  | unlock k ih =>
    constructor
    intro q h
    cases h
    exact ih

/-- Between two calls there is less to do than inside one. -/
inductive Less : Option (Program σ α) → Option (Program σ α) → Prop
  | idle (p : Program σ α) : Less none (some p)
  | next {q p : Program σ α} (h : Next q p) : Less (some q) (some p)

theorem less_wf : WellFounded fun q p : Option (Program σ α) => Less q p := by
  have hnone : Acc (fun q p : Option (Program σ α) => Less q p) none :=
    ⟨_, fun q h => by cases h⟩
  constructor
  intro p
  cases p with
  | none => exact hnone
  | some p =>
    induction p using next_wf.induction with
    | _ p ih =>
      constructor
      intro q h
      cases h with
      | idle => exact hnone
      | next h => exact ih _ h

end Program

namespace Monitor

open Program

variable {σ κ ρ ι : Type} [DecidableEq ι]

omit [DecidableEq ι] in
/-- What thread `t` has left: the calls to make and the rest of the current one. -/
def work (m : Monitor σ κ ρ ι) (t : ι) : Nat × Option (Program σ ρ) :=
  ((m.calls t).length, (m.current t).map Prod.snd)

def LessWork : Nat × Option (Program σ ρ) → Nat × Option (Program σ ρ) → Prop :=
  Prod.Lex (· < ·) Less

theorem lessWork_wf : WellFounded fun v w : Nat × Option (Program σ ρ) => LessWork v w :=
  WellFounded.prod_lex Nat.lt_wfRel.wf less_wf

section
variable {body : κ → Program σ ρ} {s₀ : σ} {calls : ι → List κ} {m m' : Monitor σ κ ρ ι} {t : ι}

/-- The work of the thread that steps gets less, that of the others stays. -/
theorem step_work (hs : Step body m t m') :
    LessWork (m'.work t) (m.work t) ∧ ∀ u, u ≠ t → m'.work u = m.work u := by
  have hsame : ∀ {n : Nat} {q p : Program σ ρ}, Next q p →
      LessWork (n, some q) (n, some p) := fun h => .right _ (.next h)
  cases hs with
  | start ht hcs =>
    constructor
    · simp only [work, goto, Function.update_self, hcs]
      exact .left _ _ (Nat.lt_succ_self _)
    · intro u hu
      simp only [work, goto, Function.update_of_ne hu]
  | lock ht hfree =>
    constructor
    · simp only [work, goto, Function.update_self, ht]
      exact hsame (.lock _)
    · intro u hu
      simp only [work, goto, Function.update_of_ne hu]
  | access ht hf =>
    constructor
    · simp only [work, goto, Function.update_self, ht]
      exact hsame (.access _ _ _)
    · intro u hu
      simp only [work, goto, Function.update_of_ne hu]
  | unlock ht =>
    constructor
    · simp only [work, goto, Function.update_self, ht]
      exact hsame (.unlock _)
    · intro u hu
      simp only [work, goto, Function.update_of_ne hu]
  | ret ht =>
    constructor
    · simp only [work, Function.update_self, ht]
      exact .right _ (.idle _)
    · intro u hu
      simp only [work, Function.update_of_ne hu]

/-- Finitely many threads take finitely many steps. -/
theorem step_wf [Finite ι] (body : κ → Program σ ρ) :
    WellFounded fun m' m : Monitor σ κ ρ ι => ∃ t, Step body m t m' := by
  have hlex : WellFounded (Pi.Lex WellOrderingRel fun {_ : ι} => LessWork (σ := σ) (ρ := ρ)) :=
    Pi.Lex.wellFounded WellOrderingRel fun _ => lessWork_wf
  refine Subrelation.wf ?_ (InvImage.wf (fun m : Monitor σ κ ρ ι => m.work) hlex)
  rintro m' m ⟨t, hs⟩
  obtain ⟨hless, hother⟩ := step_work hs
  refine ⟨t, fun u hu => hother u ?_, hless⟩
  rintro rfl
  exact irrefl_of WellOrderingRel u hu

theorem no_endless_run [Finite ι] (body : κ → Program σ ρ) (f : Nat → Monitor σ κ ρ ι) :
    ¬ ∀ n, ∃ t, Step body (f n) t (f (n + 1)) := by
  intro hsteps
  have hchain := wellFounded_iff_isEmpty_descending_chain.mp (step_wf (ι := ι) body)
  exact hchain.false ⟨f, hsteps⟩

/-! ## Who can step -/

omit [DecidableEq ι] in
/-- Thread `t` has made all its calls. -/
def Done (m : Monitor σ κ ρ ι) (t : ι) : Prop := m.calls t = [] ∧ m.current t = none

omit [DecidableEq ι] in
/-- Thread `t` waits for the mutex. -/
def Waits (m : Monitor σ κ ρ ι) (t : ι) : Prop :=
  (∃ c k, m.current t = some (c, .lock k)) ∧ m.owner ≠ none

/-- A thread is done, waits, ends the process or can step. -/
theorem thread_cases (body : κ → Program σ ρ) (m : Monitor σ κ ρ ι) (t : ι) :
    m.Done t ∨ m.Waits t ∨ (∃ x, m.Ends t x) ∨ ∃ m', Step body m t m' := by
  cases ht : m.current t with
  | none =>
    cases hcs : m.calls t with
    | nil => exact Or.inl ⟨hcs, ht⟩
    | cons c cs => exact Or.inr (Or.inr (Or.inr ⟨_, .start ht hcs⟩))
  | some e =>
    obtain ⟨c, p⟩ := e
    cases p with
    | ret r => exact Or.inr (Or.inr (Or.inr ⟨_, .ret ht⟩))
    | unlock k => exact Or.inr (Or.inr (Or.inr ⟨_, .unlock ht⟩))
    | lock k =>
      by_cases hfree : m.owner = none
      · exact Or.inr (Or.inr (Or.inr ⟨_, .lock ht hfree⟩))
      · exact Or.inr (Or.inl ⟨⟨c, k, ht⟩, hfree⟩)
    | access f k =>
      cases hf : f m.shared with
      | ok r => exact Or.inr (Or.inr (Or.inr ⟨_, .access (b := r.1) (s := r.2) ht hf⟩))
      | panic msg => exact Or.inr (Or.inr (Or.inl ⟨some msg, c, _, f, k, ht, hf⟩))
      | fault => exact Or.inr (Or.inr (Or.inl ⟨none, c, _, f, k, ht, hf⟩))

/-- The owner of the mutex goes on, or ends the process. -/
theorem owner_runs (hg : ∀ c, (body c).Guarded) (h : Reaches body (start s₀ calls) m)
    (hown : m.owner = some t) : (∃ x, m.Ends t x) ∨ ∃ m', Step body m t m' := by
  obtain ⟨rs, s, hserial⟩ := reaches_serial hg h
  obtain ⟨c, p, ht, hp, -⟩ := hserial.inside t hown
  rcases thread_cases body m t with ⟨-, hdone⟩ | ⟨⟨c', k, hwait⟩, -⟩ | hends | hstep
  · rw [ht] at hdone
    cases hdone
  · rw [ht] at hwait
    cases hwait
    exact hp.elim
  · exact Or.inl hends
  · exact Or.inr hstep

/-- No deadlock: where no thread can step, all are done or the process ends. -/
theorem stuck (hg : ∀ c, (body c).Guarded) (h : Reaches body (start s₀ calls) m)
    (hstop : ∀ t m', ¬ Step body m t m') :
    (∀ t, m.Done t) ∨ ∃ t x, m.owner = some t ∧ m.Ends t x := by
  cases hown : m.owner with
  | none =>
    refine Or.inl fun t => ?_
    rcases thread_cases body m t with hdone | ⟨-, hwait⟩ | ⟨x, hends⟩ | ⟨m', hstep⟩
    · exact hdone
    · exact absurd hown hwait
    · -- an access is behind the lock
      obtain ⟨rs, s, hserial⟩ := reaches_serial hg h
      obtain ⟨c, β, f, k, ht, -⟩ := hends
      have := hserial.owner_of_step hg (Or.inl ⟨c, β, f, k, ht⟩)
      rw [hown] at this
      cases this
    · exact absurd hstep (hstop t m')
  | some t =>
    rcases owner_runs hg h hown with ⟨x, hends⟩ | ⟨m', hstep⟩
    · exact Or.inr ⟨t, x, rfl, hends⟩
    · exact absurd hstep (hstop t m')

theorem Serial.acquired_mem {rs : List ρ} {s : σ} (h : Serial body s₀ calls m rs s) {c : κ}
    (hc : (t, c) ∈ m.acquired) : c ∈ calls t := by
  rw [← h.order t, List.append_assoc]
  refine List.mem_append_left _ (List.mem_map.mpr ⟨(t, c), ?_, rfl⟩)
  rw [List.mem_filter]
  exact ⟨hc, decide_eq_true rfl⟩

/-- Where all threads are done, all calls have unlocked and returned. -/
theorem Serial.done {rs : List ρ} {s : σ} (h : Serial body s₀ calls m rs s)
    (hdone : ∀ t, m.Done t) : m.owner = none ∧ m.shared = s ∧
      ∀ t, callsOf t m.released = calls t ∧ m.returned t = resultsOf t m.released rs := by
  have hown : m.owner = none := by
    cases hown : m.owner with
    | none => rfl
    | some t =>
      obtain ⟨c, p, ht, -⟩ := h.inside t hown
      rw [(hdone t).2] at ht
      cases ht
  obtain ⟨hacq, hshared⟩ := h.free hown
  refine ⟨hown, hshared, fun t => ?_⟩
  obtain ⟨hcalls, hcur⟩ := hdone t
  have horder := h.order t
  have hresults := h.results t
  rw [hcalls, hcur, hacq] at horder
  rw [hcur] at hresults
  simp only [pendingCall, List.append_nil] at horder
  simp only [pendingResult, List.append_nil] at hresults
  exact ⟨horder, hresults⟩

/-! ## Before and after -/

theorem Reaches.trans {m₀ m₁ m₂ : Monitor σ κ ρ ι} (h : Reaches body m₀ m₁)
    (h' : Reaches body m₁ m₂) : Reaches body m₀ m₂ := by
  induction h' with
  | refl => exact h
  | tail _ hs ih => exact ih.tail hs

/-- The records only grow. -/
theorem step_grows (hs : Step body m t m') : m.acquired <+: m'.acquired ∧
    m.released <+: m'.released ∧ ∀ u, m.returned u <+: m'.returned u := by
  cases hs with
  | start ht hcs =>
    exact ⟨List.prefix_refl _, List.prefix_refl _, fun _ => List.prefix_refl _⟩
  | lock ht hfree =>
    exact ⟨List.prefix_append _ _, List.prefix_refl _, fun _ => List.prefix_refl _⟩
  | access ht hf =>
    exact ⟨List.prefix_refl _, List.prefix_refl _, fun _ => List.prefix_refl _⟩
  | unlock ht =>
    exact ⟨List.prefix_refl _, List.prefix_append _ _, fun _ => List.prefix_refl _⟩
  | ret ht =>
    refine ⟨List.prefix_refl _, List.prefix_refl _, fun u => ?_⟩
    by_cases hu : u = t
    · subst hu
      simp only [Function.update_self]
      exact List.prefix_append _ _
    · simp only [Function.update_of_ne hu]
      exact List.prefix_refl _

theorem reaches_grows {m₁ : Monitor σ κ ρ ι} (h : Reaches body m₁ m) :
    m₁.acquired <+: m.acquired ∧ m₁.released <+: m.released ∧
      ∀ u, m₁.returned u <+: m.returned u := by
  induction h with
  | refl => exact ⟨List.prefix_refl _, List.prefix_refl _, fun _ => List.prefix_refl _⟩
  | tail _ hs ih =>
    obtain ⟨h1, h2, h3⟩ := step_grows hs
    exact ⟨ih.1.trans h1, ih.2.1.trans h2, fun u => (ih.2.2 u).trans (h3 u)⟩

theorem callsOf_append_list (t : ι) (cs ds : List (ι × κ)) :
    callsOf t (cs ++ ds) = callsOf t cs ++ callsOf t ds := by
  unfold callsOf
  rw [List.filter_append, List.map_append]

theorem resultsOf_length (t : ι) {cs : List (ι × κ)} {rs : List ρ} (h : cs.length = rs.length) :
    (resultsOf t cs rs).length = (callsOf t cs).length := by
  induction cs generalizing rs with
  | nil => rfl
  | cons c cs ih =>
    cases rs with
    | nil => cases h
    | cons r rs =>
      have hrest := ih (Nat.succ.inj h)
      simp only [resultsOf, callsOf, List.length_map] at hrest ⊢
      by_cases hc : c.1 = t
      · simp [hc, hrest]
      · simp [hc, hrest]

/-- What has unlocked has locked. -/
theorem callsOf_released {rs : List ρ} {s : σ} (h : Serial body s₀ calls m rs s) (t : ι) :
    (callsOf t m.released).length ≤ (callsOf t m.acquired).length := by
  cases hown : m.owner with
  | none => rw [(h.free hown).1]
  | some u =>
    obtain ⟨c, -, -, -, hacq, -⟩ := h.inside u hown
    rw [hacq, callsOf_append_list, List.length_append]
    omega

/-- What locks from `m₁` on are the calls that had not locked there, and the calls that had
returned there locked before. -/
theorem reaches_later (hg : ∀ c, (body c).Guarded) {m₁ : Monitor σ κ ρ ι}
    (h₁ : Reaches body (start s₀ calls) m₁) (h : Reaches body m₁ m) :
    ∃ later, m.acquired = m₁.acquired ++ later ∧ ∀ t,
      (m₁.returned t).length ≤ (callsOf t m₁.acquired).length ∧
      callsOf t later ++ pendingCall (m.current t) ++ m.calls t =
        pendingCall (m₁.current t) ++ m₁.calls t := by
  obtain ⟨rs₁, s₁, hserial₁⟩ := reaches_serial hg h₁
  obtain ⟨rs, s, hserial⟩ := reaches_serial hg (h₁.trans h)
  obtain ⟨later, hlater⟩ := (reaches_grows h).1
  refine ⟨later, hlater.symm, fun t => ⟨?_, ?_⟩⟩
  · have hlen : m₁.released.length = rs₁.length := by
      have := run_length hserial₁.run
      rw [List.length_map] at this
      exact this.symm
    have hresults := congrArg List.length (hserial₁.results t)
    have hcalls := resultsOf_length t hlen
    have hsub := callsOf_released hserial₁ t
    rw [List.length_append] at hresults
    omega
  · have hall := (hserial.order t).trans (hserial₁.order t).symm
    rw [← hlater, callsOf_append_list, List.append_assoc, List.append_assoc, List.append_assoc,
      List.append_cancel_left_eq] at hall
    rw [List.append_assoc]
    exact hall

end

end Monitor

end CLib
