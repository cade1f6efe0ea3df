import Mbroker.Lib.Outcome

/-!
# Programs under a mutex

A `Program σ α` is what one thread does up to its result: it takes and gives back a
mutex and accesses a shared state `σ`, one access a step.  `eval` is the program on
its own, without other threads.  `Guarded` programs lock the mutex, access the state,
unlock it once and return, on every path.

    (p >>= k).eval s = p.eval s >>= fun (a, s') => (k a).eval s'             (eval_bind)
    p.Guarded → p.Path es a → ∃ n, es = lock :: (replicate n access ++ [unlock])
-/

namespace CLib

open Outcome

inductive Program (σ α : Type) : Type 1 where
  | ret (a : α)
  | access {β : Type} (f : σ → Outcome (β × σ)) (k : β → Program σ α)
  | lock (k : Program σ α)
  | unlock (k : Program σ α)

namespace Program

variable {σ α β γ : Type}

protected def bind : Program σ α → (α → Program σ β) → Program σ β
  | ret a, g => g a
  | access f k, g => access f fun b => (k b).bind g
  | lock k, g => lock (k.bind g)
  | unlock k, g => unlock (k.bind g)

instance : Monad (Program σ) where
  pure := ret
  bind := Program.bind

@[simp] theorem ret_bind (a : α) (g : α → Program σ β) : ret a >>= g = g a := rfl

@[simp] theorem pure_bind' (a : α) (g : α → Program σ β) :
    (pure a : Program σ α) >>= g = g a := rfl

@[simp] theorem access_bind (f : σ → Outcome (γ × σ)) (k : γ → Program σ α)
    (g : α → Program σ β) : access f k >>= g = access f fun b => k b >>= g := rfl

@[simp] theorem lock_bind (k : Program σ α) (g : α → Program σ β) :
    lock k >>= g = lock (k >>= g) := rfl

@[simp] theorem unlock_bind (k : Program σ α) (g : α → Program σ β) :
    unlock k >>= g = unlock (k >>= g) := rfl

/-- The program without other threads. -/
def eval : Program σ α → σ → Outcome (α × σ)
  | ret a, s => ok (a, s)
  | access f k, s => do
    let (b, s) ← f s
    (k b).eval s
  | lock k, s => k.eval s
  | unlock k, s => k.eval s

@[simp] theorem eval_ret (a : α) (s : σ) : (ret a : Program σ α).eval s = ok (a, s) := rfl

@[simp] theorem eval_pure (a : α) (s : σ) : (pure a : Program σ α).eval s = ok (a, s) := rfl

@[simp] theorem eval_access (f : σ → Outcome (β × σ)) (k : β → Program σ α) (s : σ) :
    (access f k).eval s = f s >>= fun r => (k r.1).eval r.2 := rfl

@[simp] theorem eval_lock (k : Program σ α) (s : σ) : (lock k).eval s = k.eval s := rfl

@[simp] theorem eval_unlock (k : Program σ α) (s : σ) : (unlock k).eval s = k.eval s := rfl

@[simp] theorem eval_ite {c : Prop} [Decidable c] {p q : Program σ α} (s : σ) :
    (if c then p else q).eval s = if c then p.eval s else q.eval s := by
  split
  · rfl
  · rfl

theorem eval_bind (p : Program σ α) (g : α → Program σ β) (s : σ) :
    (p >>= g).eval s = p.eval s >>= fun r => (g r.1).eval r.2 := by
  induction p generalizing s with
  | ret a => simp
  | access f k ih =>
    rw [access_bind, eval_access, eval_access]
    cases hf : f s with
    | ok r => simp [ih]
    | panic msg => simp
    | fault => simp
  | lock k ih => exact ih s
  | unlock k ih => exact ih s

/-! ## Steps -/

def access1 (f : σ → Outcome (α × σ)) : Program σ α := access f ret

@[simp] theorem eval_access1 (f : σ → Outcome (α × σ)) (s : σ) : (access1 f).eval s = f s := by
  unfold access1
  rw [eval_access]
  cases f s <;> simp

/-- A step that only looks at the state. -/
def look (f : σ → Outcome α) : Program σ α :=
  access1 fun s => do
    let a ← f s
    return (a, s)

@[simp] theorem eval_look (f : σ → Outcome α) (s : σ) :
    (look f).eval s = f s >>= fun a => ok (a, s) := by
  simp [look]

/-- A step that changes the state. -/
def change (f : σ → Outcome σ) : Program σ Unit :=
  access1 fun s => do
    let s ← f s
    return ((), s)

@[simp] theorem eval_change (f : σ → Outcome σ) (s : σ) :
    (change f).eval s = f s >>= fun s' => ok ((), s') := by
  simp [change]

/-! ## Loops -/

def forFrom (body : Nat → Program σ (Option β)) : Nat → Nat → Program σ (Option β)
  | _, 0 => ret none
  | i, k + 1 => do
    match ← body i with
    | some b => return some b
    | none => forFrom body (i + 1) k

/-- `for (i = 0; i < n; i++) { … return … }`. -/
def forFirst (n : Nat) (body : Nat → Program σ (Option β)) : Program σ (Option β) :=
  forFrom body 0 n

/-- A loop whose body changes the state only where it returns. -/
theorem eval_forFirst {n : Nat} {body : Nat → Program σ (Option β)} {s : σ}
    {f : Nat → Outcome (Option (β × σ))}
    (h : ∀ i, (body i).eval s = f i >>= fun r => ok (r.map Prod.fst, (r.map Prod.snd).getD s)) :
    (forFirst n body).eval s =
      CLib.forFirst n f >>= fun r => ok (r.map Prod.fst, (r.map Prod.snd).getD s) := by
  have hfrom : ∀ k i, (forFrom body i k).eval s =
      CLib.forFrom f i k >>= fun r => ok (r.map Prod.fst, (r.map Prod.snd).getD s) := by
    intro k
    induction k with
    | zero =>
      intro i
      rfl
    | succ k ih =>
      intro i
      simp only [forFrom, CLib.forFrom, eval_bind, h, bind_assoc, ok_bind]
      refine bind_congr fun r _ => ?_
      cases r with
      | none => exact ih (i + 1)
      | some b => rfl
  exact hfrom n 0

/-- A loop that only looks at the state. -/
theorem eval_forFirst_look {n : Nat} {body : Nat → Program σ (Option β)} {s : σ}
    {f : Nat → Outcome (Option β)} (h : ∀ i, (body i).eval s = f i >>= fun r => ok (r, s)) :
    (forFirst n body).eval s = CLib.forFirst n f >>= fun r => ok (r, s) := by
  have hfrom : ∀ k i, (forFrom body i k).eval s = CLib.forFrom f i k >>= fun r => ok (r, s) := by
    intro k
    induction k with
    | zero =>
      intro i
      rfl
    | succ k ih =>
      intro i
      simp only [forFrom, CLib.forFrom, eval_bind, h, bind_assoc, ok_bind]
      refine bind_congr fun r _ => ?_
      cases r with
      | none => exact ih (i + 1)
      | some b => rfl
  exact hfrom n 0

/-! ## The mutex -/

/-- Accesses only. -/
def Plain : Program σ α → Prop
  | ret _ => True
  | access _ k => ∀ b, (k b).Plain
  | lock _ => False
  | unlock _ => False

/-- Behind the lock: accesses, one unlock, and the return. -/
def Inside : Program σ α → Prop
  | ret _ => False
  | access _ k => ∀ b, (k b).Inside
  | lock _ => False
  | unlock k => ∃ a, k = ret a

def Guarded : Program σ α → Prop
  | lock k => k.Inside
  | _ => False

@[simp] theorem plain_pure (a : α) : (pure a : Program σ α).Plain := trivial

@[simp] theorem plain_access1 (f : σ → Outcome (α × σ)) : (access1 f).Plain := fun _ => trivial

@[simp] theorem plain_look (f : σ → Outcome α) : (look f).Plain := fun _ => trivial

@[simp] theorem plain_change (f : σ → Outcome σ) : (change f).Plain := fun _ => trivial

@[simp] theorem plain_look_bind (f : σ → Outcome α) (g : α → Program σ β) :
    (look f >>= g).Plain ↔ ∀ a, (g a).Plain := Iff.rfl

@[simp] theorem plain_change_bind (f : σ → Outcome σ) (g : Unit → Program σ β) :
    (change f >>= g).Plain ↔ (g ()).Plain := ⟨fun h => h (), fun h _ => h⟩

@[simp] theorem plain_ite {c : Prop} [Decidable c] {p q : Program σ α} :
    (if c then p else q).Plain ↔ (c → p.Plain) ∧ (¬ c → q.Plain) := by
  by_cases h : c
  · simp [h]
  · simp [h]

@[simp] theorem inside_look_bind (f : σ → Outcome α) (g : α → Program σ β) :
    (look f >>= g).Inside ↔ ∀ a, (g a).Inside := Iff.rfl

@[simp] theorem inside_change_bind (f : σ → Outcome σ) (g : Unit → Program σ β) :
    (change f >>= g).Inside ↔ (g ()).Inside := ⟨fun h => h (), fun h _ => h⟩

@[simp] theorem inside_unlock (a : α) : (unlock (ret a) : Program σ α).Inside := ⟨a, rfl⟩

@[simp] theorem inside_ite {c : Prop} [Decidable c] {p q : Program σ α} :
    (if c then p else q).Inside ↔ (c → p.Inside) ∧ (¬ c → q.Inside) := by
  by_cases h : c
  · simp [h]
  · simp [h]

theorem plain_bind {p : Program σ α} {g : α → Program σ β} (hp : p.Plain) (hg : ∀ a, (g a).Plain) :
    (p >>= g).Plain := by
  induction p with
  | ret a => exact hg a
  | access f k ih => exact fun b => ih b (hp b)
  | lock k => exact hp.elim
  | unlock k => exact hp.elim

theorem inside_bind {p : Program σ α} {g : α → Program σ β} (hp : p.Plain)
    (hg : ∀ a, (g a).Inside) : (p >>= g).Inside := by
  induction p with
  | ret a => exact hg a
  | access f k ih => exact fun b => ih b (hp b)
  | lock k => exact hp.elim
  | unlock k => exact hp.elim

theorem plain_forFirst {n : Nat} {body : Nat → Program σ (Option β)} (h : ∀ i, (body i).Plain) :
    (forFirst n body).Plain := by
  have hfrom : ∀ k i, (forFrom body i k).Plain := by
    intro k
    induction k with
    | zero =>
      intro i
      trivial
    | succ k ih =>
      intro i
      refine plain_bind (h i) fun r => ?_
      cases r with
      | none => exact ih (i + 1)
      | some b => trivial
  exact hfrom n 0

inductive Event where
  | lock
  | access
  | unlock

/-- The events on a path to the result `a`. -/
inductive Path : Program σ α → List Event → α → Prop
  | ret (a : α) : Path (ret a) [] a
  | access {β : Type} {f : σ → Outcome (β × σ)} {k : β → Program σ α} {es : List Event} {a : α}
      (b : β) (h : Path (k b) es a) : Path (access f k) (.access :: es) a
  | lock {k : Program σ α} {es : List Event} {a : α} (h : Path k es a) :
      Path (lock k) (.lock :: es) a
  | unlock {k : Program σ α} {es : List Event} {a : α} (h : Path k es a) :
      Path (unlock k) (.unlock :: es) a

theorem Inside.path {p : Program σ α} (hp : p.Inside) {es : List Event} {a : α} (h : p.Path es a) :
    ∃ n, es = List.replicate n .access ++ [.unlock] := by
  induction h with
  | ret a => exact hp.elim
  | access b h ih =>
    obtain ⟨n, rfl⟩ := ih (hp b)
    exact ⟨n + 1, rfl⟩
  | lock h => exact hp.elim
  | unlock h =>
    obtain ⟨a, rfl⟩ := hp
    cases h
    exact ⟨0, rfl⟩

/-- Every path to a result locks once and, behind all accesses, unlocks once. -/
theorem Guarded.path {p : Program σ α} (hp : p.Guarded) {es : List Event} {a : α}
    (h : p.Path es a) : ∃ n, es = .lock :: (List.replicate n .access ++ [.unlock]) := by
  cases h with
  | ret a => exact hp.elim
  | access b h => exact hp.elim
  | unlock h => exact hp.elim
  | lock h =>
    obtain ⟨n, rfl⟩ := Inside.path hp h
    exact ⟨n, rfl⟩

end Program

end CLib
