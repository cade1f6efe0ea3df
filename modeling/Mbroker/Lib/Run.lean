import Mbroker.Lib.Outcome

/-!
# Runs of a machine with outcomes

`run step s cs` makes the calls `cs` one after the other and collects the answers; it
is `ok` only when every call returns.

* `run_inv`: what every returning call keeps holds after every run.
* `Allowed ok s cs`: each call of `cs` meets `ok` in the state it is made in.
* `run_paired`: two runs of paired calls end in related states when paired calls do.
* `withHistory`: the same machine with variables that record what happened.
* `run_refine`: a relation to a total machine that every allowed call keeps, with
  equal answers, gives equal answers over every allowed run.
* `run_permitted`: the same, where the total machine says which calls are allowed.
* `run_trace`: the same for an abstract machine that leaves a choice.
* `trace_simulates`: and for two machines that both do.
-/

namespace CLib

open Outcome

section
variable {σ κ ρ : Type} (step : σ → κ → Outcome (ρ × σ))

def run : σ → List κ → Outcome (List ρ × σ)
  | s, [] => ok ([], s)
  | s, c :: cs => do
    let (r, s) ← step s c
    let (rs, s) ← run s cs
    return (r :: rs, s)

/-- Each call meets `P` in the state in which it is made. -/
def Allowed (P : σ → κ → Prop) : σ → List κ → Prop
  | _, [] => True
  | s, c :: cs => P s c ∧ ∀ r s', step s c = ok (r, s') → Allowed P s' cs

variable {step}

theorem run_cons_eq_ok {s : σ} {c : κ} {cs : List κ} {rs : List ρ} {s' : σ}
    (h : run step s (c :: cs) = ok (rs, s')) :
    ∃ r s₁ rs₁, step s c = ok (r, s₁) ∧ run step s₁ cs = ok (rs₁, s') ∧ rs = r :: rs₁ := by
  simp only [run, bind_eq_ok, pure_eq, ok.injEq, Prod.mk.injEq] at h
  obtain ⟨⟨r, s₁⟩, h1, ⟨rs₁, s₂⟩, h2, h3, rfl⟩ := h
  exact ⟨r, s₁, rs₁, h1, h2, h3.symm⟩

theorem run_cons {s s₁ s' : σ} {c : κ} {cs : List κ} {r : ρ} {rs : List ρ}
    (h1 : step s c = ok (r, s₁)) (h2 : run step s₁ cs = ok (rs, s')) :
    run step s (c :: cs) = ok (r :: rs, s') := by
  simp [run, h1, h2]

theorem run_append_eq_ok {s s' : σ} {cs ds : List κ} {rs : List ρ}
    (h : run step s (cs ++ ds) = ok (rs, s')) :
    ∃ rs₁ s₁ rs₂, run step s cs = ok (rs₁, s₁) ∧ run step s₁ ds = ok (rs₂, s') ∧
      rs = rs₁ ++ rs₂ := by
  induction cs generalizing s rs with
  | nil => exact ⟨[], s, rs, rfl, h, rfl⟩
  | cons c cs ih =>
    obtain ⟨r, s₁, rs₁, h1, h2, rfl⟩ := run_cons_eq_ok h
    obtain ⟨rs₂, s₂, rs₃, h3, h4, rfl⟩ := ih h2
    exact ⟨r :: rs₂, s₂, rs₃, run_cons h1 h3, h4, rfl⟩

/-- One more call. -/
theorem run_append_singleton (s : σ) (cs : List κ) (c : κ) :
    run step s (cs ++ [c]) = run step s cs >>= fun q => step q.2 c >>= fun r =>
      ok (q.1 ++ [r.1], r.2) := by
  induction cs generalizing s with
  | nil => simp [run]
  | cons d cs ih =>
    simp only [List.cons_append, run, ih]
    cases step s d with
    | ok q =>
      simp only [ok_bind]
      cases run step q.2 cs with
      | ok q' =>
        simp only [ok_bind, pure_eq]
        cases step q'.2 c with
        | ok r => simp
        | panic msg => simp
        | fault => simp
      | panic msg => simp
      | fault => simp
    | panic msg => simp
    | fault => simp

theorem run_length {s s' : σ} {cs : List κ} {rs : List ρ} (h : run step s cs = ok (rs, s')) :
    rs.length = cs.length := by
  induction cs generalizing s rs with
  | nil =>
    simp only [run, ok.injEq, Prod.mk.injEq] at h
    obtain ⟨rfl, -⟩ := h
    rfl
  | cons c cs ih =>
    obtain ⟨r, s₁, rs₁, -, h2, rfl⟩ := run_cons_eq_ok h
    simp [ih h2]

theorem allowed_of_forall {P : σ → κ → Prop} {s : σ} {cs : List κ}
    (h : ∀ c ∈ cs, ∀ s, P s c) : Allowed step P s cs := by
  induction cs generalizing s with
  | nil => trivial
  | cons c cs ih =>
    rw [List.forall_mem_cons] at h
    exact ⟨h.1 s, fun _ _ _ => ih h.2⟩

/-- What every returning call keeps holds after every run. -/
theorem run_inv {I : σ → Prop} (hstep : ∀ s c r s', I s → step s c = ok (r, s') → I s')
    {s : σ} {cs : List κ} {rs : List ρ} {s' : σ} (hs : I s) (h : run step s cs = ok (rs, s')) :
    I s' := by
  induction cs generalizing s rs with
  | nil =>
    simp only [run, ok.injEq, Prod.mk.injEq] at h
    exact h.2 ▸ hs
  | cons c cs ih =>
    obtain ⟨r, s₁, rs₁, h1, h2, -⟩ := run_cons_eq_ok h
    exact ih (hstep s c r s₁ hs h1) h2

/-- When every allowed call returns, so does every allowed run. -/
theorem run_total_allowed {P : σ → κ → Prop} {I : σ → Prop}
    (hstep : ∀ s c, I s → P s c → ∃ r s', step s c = ok (r, s') ∧ I s') {s : σ} {cs : List κ}
    (hs : I s) (ha : Allowed step P s cs) : ∃ rs s', run step s cs = ok (rs, s') ∧ I s' := by
  induction cs generalizing s with
  | nil => exact ⟨[], s, rfl, hs⟩
  | cons c cs ih =>
    obtain ⟨r, s₁, h1, hI⟩ := hstep s c hs ha.1
    obtain ⟨rs, s', h2, hI'⟩ := ih hI (ha.2 r s₁ h1)
    exact ⟨r :: rs, s', run_cons h1 h2, hI'⟩

/-- The calls of two lists are pairwise related by `Q` in the states of the run of the first. -/
def Paired (step : σ → κ → Outcome (ρ × σ)) (Q : σ → κ → κ → Prop) : σ → List κ → List κ → Prop
  | _, [], [] => True
  | s, c :: cs, d :: ds => Q s c d ∧ ∀ r s', step s c = ok (r, s') → Paired step Q s' cs ds
  | _, [], _ :: _ => False
  | _, _ :: _, [] => False

/-- The second run of a pair returns when the first does, and the states stay related. -/
theorem run_paired {P : σ → κ → Prop} {Q : σ → κ → κ → Prop} {R : σ → σ → Prop}
    (hstep : ∀ s t c d r s', R s t → P s c → Q s c d → step s c = ok (r, s') →
      ∃ r' t', step t d = ok (r', t') ∧ R s' t')
    {s t s' : σ} {cs ds : List κ} {rs : List ρ} (hR : R s t) (ha : Allowed step P s cs)
    (hq : Paired step Q s cs ds) (h : run step s cs = ok (rs, s')) :
    ∃ rs' t', run step t ds = ok (rs', t') ∧ R s' t' := by
  induction cs generalizing s t ds rs with
  | nil =>
    cases ds with
    | cons d ds => exact hq.elim
    | nil =>
      simp only [run, ok.injEq, Prod.mk.injEq] at h
      exact ⟨[], t, rfl, h.2 ▸ hR⟩
  | cons c cs ih =>
    cases ds with
    | nil => exact hq.elim
    | cons d ds =>
      obtain ⟨r, s₁, rs₁, h1, h2, -⟩ := run_cons_eq_ok h
      obtain ⟨r', t₁, h1', hR₁⟩ := hstep s t c d r s₁ hR ha.1 hq.1 h1
      obtain ⟨rs', t', h2', hR'⟩ := ih hR₁ (ha.2 r s₁ h1) (hq.2 r s₁ h1) h2
      exact ⟨r' :: rs', t', run_cons h1' h2', hR'⟩

/-- When a call panics exactly where it is not allowed, so does a run. -/
theorem run_isPanic_iff {P : σ → κ → Prop} {I : σ → Prop}
    (hstep : ∀ s c r s', I s → step s c = ok (r, s') → I s')
    (hpanic : ∀ s c, I s → ((step s c).isPanic = false ↔ P s c)) {s : σ} {cs : List κ}
    (hs : I s) : (run step s cs).isPanic = false ↔ Allowed step P s cs := by
  induction cs generalizing s with
  | nil => simp [run, Allowed]
  | cons c cs ih =>
    have hP := hpanic s c hs
    cases hc : step s c with
    | ok rs =>
      obtain ⟨r, s₁⟩ := rs
      rw [hc] at hP
      have hrest := ih (hstep s c r s₁ hs hc)
      have htail : (run step s (c :: cs)).isPanic = (run step s₁ cs).isPanic := by
        simp only [run, hc, ok_bind]
        cases run step s₁ cs <;> simp
      rw [htail, hrest]
      constructor
      · intro h
        refine ⟨hP.mp rfl, fun r' s' he => ?_⟩
        cases hc.symm.trans he
        exact h
      · exact fun h => h.2 r s₁ hc
    | panic msg =>
      rw [hc] at hP
      simp only [run, hc, panic_bind, isPanic_panic, Bool.true_eq_false, false_iff]
      exact fun h => absurd (hP.mpr h.1) (by simp)
    | fault =>
      rw [hc] at hP
      simp only [run, hc, fault_bind, isPanic_fault, true_iff]
      exact ⟨hP.mp rfl, fun r s' he => by rw [hc] at he; cases he⟩

/-- When calls of kind `K` keep `Q` exactly where they are allowed, `Q` holds in all states of a
run of them iff every call is allowed. -/
theorem run_always_iff {K : κ → Prop} {P : σ → κ → Prop} {I Q : σ → Prop}
    (hstep : ∀ s c r s', K c → I s → step s c = ok (r, s') → I s')
    (hQ : ∀ s c r s', K c → I s → Q s → step s c = ok (r, s') → (Q s' ↔ P s c))
    (hret : ∀ s c, I s → ¬ P s c → (step s c).isOk = true) {s : σ} {cs : List κ}
    (hK : ∀ c ∈ cs, K c) (hI : I s) (hs : Q s) :
    (∀ pre, pre <+: cs → ∀ rs s', run step s pre = ok (rs, s') → Q s') ↔
      Allowed step P s cs := by
  induction cs generalizing s with
  | nil =>
    simp only [Allowed, iff_true, List.prefix_nil]
    rintro _ rfl rs s' h
    simp only [run, ok.injEq, Prod.mk.injEq] at h
    exact h.2 ▸ hs
  | cons c cs ih =>
    rw [List.forall_mem_cons] at hK
    obtain ⟨hc, hK⟩ := hK
    constructor
    · intro h
      have hP : P s c := by
        by_contra hn
        have hok := hret s c hI hn
        cases he : step s c with
        | ok rs =>
          obtain ⟨r, s₁⟩ := rs
          have hq := h [c] (by simp) _ _ (run_cons he rfl)
          exact hn ((hQ s c r s₁ hc hI hs he).mp hq)
        | panic msg => rw [he] at hok; cases hok
        | fault => rw [he] at hok; cases hok
      refine ⟨hP, fun r s₁ he => ?_⟩
      refine (ih hK (hstep s c r s₁ hc hI he) ((hQ s c r s₁ hc hI hs he).mpr hP)).mp ?_
      intro pre hpre rs s' hrun
      exact h (c :: pre) (List.cons_prefix_cons.mpr ⟨rfl, hpre⟩) _ _ (run_cons he hrun)
    · rintro ⟨hP, hrest⟩ pre hpre rs s' hrun
      cases pre with
      | nil =>
        simp only [run, ok.injEq, Prod.mk.injEq] at hrun
        exact hrun.2 ▸ hs
      | cons d pre =>
        obtain ⟨rfl, hpre'⟩ := List.cons_prefix_cons.mp hpre
        obtain ⟨r, s₁, rs₁, h1, h2, -⟩ := run_cons_eq_ok hrun
        exact (ih hK (hstep s d r s₁ hc hI h1) ((hQ s d r s₁ hc hI hs h1).mpr hP)).mpr
          (hrest r s₁ h1) pre hpre' rs₁ s' h2

/-- A condition on calls that implies another wherever the invariant holds. -/
theorem allowed_mono {A B : σ → κ → Prop} {I : σ → Prop}
    (hstep : ∀ s c r s', I s → step s c = ok (r, s') → I s')
    (hAB : ∀ s c, I s → A s c → B s c) {s : σ} {cs : List κ} (hI : I s)
    (h : Allowed step A s cs) : Allowed step B s cs := by
  induction cs generalizing s with
  | nil => trivial
  | cons c cs ih =>
    exact ⟨hAB s c hI h.1, fun r s' hc => ih (hstep s c r s' hI hc) (h.2 r s' hc)⟩

/-- Two conditions on calls that agree wherever the invariant holds. -/
theorem allowed_iff {A B : σ → κ → Prop} {I : σ → Prop}
    (hstep : ∀ s c r s', I s → step s c = ok (r, s') → I s')
    (hAB : ∀ s c, I s → (A s c ↔ B s c)) {s : σ} {cs : List κ} (hI : I s) :
    Allowed step A s cs ↔ Allowed step B s cs :=
  ⟨allowed_mono hstep (fun s c hI => (hAB s c hI).mp) hI,
    allowed_mono hstep (fun s c hI => (hAB s c hI).mpr) hI⟩

end

/-! ## History variables -/

section
variable {σ κ ρ γ : Type} (step : σ → κ → Outcome (ρ × σ)) (upd : γ → κ → ρ → σ → σ → γ)

/-- The machine with a record that `upd` keeps of each call, its answer and the states
before and behind it. -/
def withHistory (s : σ × γ) (c : κ) : Outcome (ρ × (σ × γ)) := do
  let (r, s') ← step s.1 c
  return (r, (s', upd s.2 c r s.1 s'))

variable {step upd}

theorem withHistory_eq_ok {s s' : σ} {g g' : γ} {c : κ} {r : ρ} :
    withHistory step upd (s, g) c = ok (r, (s', g')) ↔
      step s c = ok (r, s') ∧ g' = upd g c r s s' := by
  simp only [withHistory, bind_eq_ok, pure_eq, ok.injEq, Prod.mk.injEq]
  constructor
  · rintro ⟨⟨r₁, s₁⟩, h, rfl, rfl, rfl⟩
    exact ⟨h, rfl⟩
  · rintro ⟨h, rfl⟩
    exact ⟨(r, s'), h, rfl, rfl, rfl⟩

theorem allowed_withHistory {P : σ → κ → Prop} {s : σ} (g : γ) {cs : List κ}
    (h : Allowed step P s cs) :
    Allowed (withHistory step upd) (fun sg c => P sg.1 c) (s, g) cs := by
  induction cs generalizing s g with
  | nil => trivial
  | cons c cs ih =>
    refine ⟨h.1, fun r sg hc => ?_⟩
    obtain ⟨s', g'⟩ := sg
    exact ih g' (h.2 r s' (withHistory_eq_ok.mp hc).1)

/-- The record does not change what the machine does. -/
theorem run_withHistory {s s' : σ} (g : γ) {cs : List κ} {rs : List ρ}
    (h : run step s cs = ok (rs, s')) :
    ∃ g', run (withHistory step upd) (s, g) cs = ok (rs, (s', g')) := by
  induction cs generalizing s g rs with
  | nil =>
    simp only [run, ok.injEq, Prod.mk.injEq] at h
    obtain ⟨rfl, rfl⟩ := h
    exact ⟨g, rfl⟩
  | cons c cs ih =>
    obtain ⟨r, s₁, rs₁, h1, h2, rfl⟩ := run_cons_eq_ok h
    obtain ⟨g', hg⟩ := ih (upd g c r s s₁) h2
    exact ⟨g', run_cons (withHistory_eq_ok.mpr ⟨h1, rfl⟩) hg⟩

end

/-! ## Refinement of a total machine -/

section
variable {σ κ ρ τ : Type} {step : σ → κ → Outcome (ρ × σ)} (astep : τ → κ → ρ × τ)

def arun : τ → List κ → List ρ × τ
  | a, [] => ([], a)
  | a, c :: cs =>
    let (r, a) := astep a c
    let (rs, a) := arun a cs
    (r :: rs, a)

variable {astep}

/-- A simulation by a total machine: allowed runs return, with the same answers. -/
theorem run_refine {P : σ → κ → Prop} {R : σ → τ → Prop}
    (hstep : ∀ s a c, R s a → P s c →
      ∃ s', step s c = ok ((astep a c).1, s') ∧ R s' (astep a c).2)
    {s : σ} {a : τ} {cs : List κ} (hR : R s a) (ha : Allowed step P s cs) :
    ∃ s', run step s cs = ok ((arun astep a cs).1, s') ∧ R s' (arun astep a cs).2 := by
  induction cs generalizing s a with
  | nil => exact ⟨s, rfl, hR⟩
  | cons c cs ih =>
    obtain ⟨s₁, h1, hR1⟩ := hstep s a c hR ha.1
    obtain ⟨s', h2, hR2⟩ := ih hR1 (ha.2 _ s₁ h1)
    exact ⟨s', run_cons h1 h2, hR2⟩

/-- Each call meets `P` in the state in which the total machine makes it. -/
def Permitted (astep : τ → κ → ρ × τ) (P : τ → κ → Prop) : τ → List κ → Prop
  | _, [] => True
  | a, c :: cs => P a c ∧ Permitted astep P (astep a c).2 cs

instance decidablePermitted (P : τ → κ → Prop) [∀ a c, Decidable (P a c)] :
    ∀ (a : τ) (cs : List κ), Decidable (Permitted astep P a cs)
  | _, [] => .isTrue trivial
  | a, c :: cs =>
    have := decidablePermitted P (astep a c).2 cs
    inferInstanceAs (Decidable (P a c ∧ Permitted astep P (astep a c).2 cs))

theorem permitted_of_forall {P : τ → κ → Prop} {a : τ} {cs : List κ}
    (h : ∀ c ∈ cs, ∀ a, P a c) : Permitted astep P a cs := by
  induction cs generalizing a with
  | nil => trivial
  | cons c cs ih =>
    rw [List.forall_mem_cons] at h
    exact ⟨h.1 a, ih h.2⟩

theorem permitted_prefix {P : τ → κ → Prop} {a : τ} {cs ds : List κ}
    (h : Permitted astep P a (cs ++ ds)) : Permitted astep P a cs := by
  induction cs generalizing a with
  | nil => trivial
  | cons c cs ih => exact ⟨h.1, ih h.2⟩

/-- As `run_refine`, with the condition on the calls read off the total machine. -/
theorem run_permitted {P : τ → κ → Prop} {R : σ → τ → Prop}
    (hstep : ∀ s a c, R s a → P a c →
      ∃ s', step s c = ok ((astep a c).1, s') ∧ R s' (astep a c).2)
    {s : σ} {a : τ} {cs : List κ} (hR : R s a) (hp : Permitted astep P a cs) :
    ∃ s', run step s cs = ok ((arun astep a cs).1, s') ∧ R s' (arun astep a cs).2 := by
  induction cs generalizing s a with
  | nil => exact ⟨s, rfl, hR⟩
  | cons c cs ih =>
    obtain ⟨s₁, h1, hR1⟩ := hstep s a c hR hp.1
    obtain ⟨s', h2, hR2⟩ := ih hR1 hp.2
    exact ⟨s', run_cons h1 h2, hR2⟩

end

/-! ## Abstract steps with a choice -/

section
variable {σ κ ρ τ : Type} {step : σ → κ → Outcome (ρ × σ)}

/-- Calls and their answers, each of which `R` allows in the abstract state it comes in. -/
inductive Trace (R : τ → κ → ρ → τ → Prop) : τ → List κ → List ρ → τ → Prop
  | nil (a : τ) : Trace R a [] [] a
  | cons {a a₁ a' : τ} {c : κ} {r : ρ} {cs : List κ} {rs : List ρ} (h : R a c r a₁)
      (hrest : Trace R a₁ cs rs a') : Trace R a (c :: cs) (r :: rs) a'

/-- When each returning call is an abstract step, a run is a trace. -/
theorem run_trace {R : τ → κ → ρ → τ → Prop} {I : σ → Prop} {abs : σ → τ}
    (hstep : ∀ s c r s', I s → step s c = ok (r, s') → I s' ∧ R (abs s) c r (abs s'))
    {s s' : σ} {cs : List κ} {rs : List ρ} (hI : I s) (h : run step s cs = ok (rs, s')) :
    Trace R (abs s) cs rs (abs s') := by
  induction cs generalizing s rs with
  | nil =>
    simp only [run, ok.injEq, Prod.mk.injEq] at h
    obtain ⟨rfl, rfl⟩ := h
    exact .nil _
  | cons c cs ih =>
    obtain ⟨r, s₁, rs₁, h1, h2, rfl⟩ := run_cons_eq_ok h
    obtain ⟨hI₁, hR⟩ := hstep s c r s₁ hI h1
    exact .cons hR (ih hI₁ h2)

/-- The second machine answers every step of the first one with one of its own. -/
def Simulates (step : σ → κ → ρ → σ → Prop) (astep : τ → κ → ρ → τ → Prop)
    (R : σ → τ → Prop) : Prop :=
  ∀ ⦃s a c r s'⦄, R s a → step s c r s' → ∃ a', astep a c r a' ∧ R s' a'

theorem trace_simulates {step : σ → κ → ρ → σ → Prop} {astep : τ → κ → ρ → τ → Prop}
    {R : σ → τ → Prop} (hstep : Simulates step astep R) {s s' : σ} {a : τ} {cs : List κ}
    {rs : List ρ} (hR : R s a) (h : Trace step s cs rs s') :
    ∃ a', Trace astep a cs rs a' ∧ R s' a' := by
  induction h generalizing a with
  | nil s => exact ⟨a, .nil a, hR⟩
  | cons h hrest ih =>
    obtain ⟨a₁, ha, hR₁⟩ := hstep hR h
    obtain ⟨a', ha', hR'⟩ := ih hR₁
    exact ⟨a', .cons ha ha', hR'⟩

end

end CLib
