import Mbroker.Lib.Progress
import Mbroker.Fs.Serial
import Mbroker.Fs.Truncate

/-!
# Threads over TécnicoFS

Threads call the operations of `operations.c` under `g_library_mutex`, with any
interleaving of their accesses.

    threads_stop         : no schedule is infinite, and none stops while a call can go on
    threads_linearizable : the answers are those of the abstract store, call by call in the order
      of the locks, which keeps the order of calls that do not overlap
    threads_complete     : calls that the store always permits all get their answer
-/

namespace Mbroker

open CLib CLib.Outcome Monitor

section
variable {ι : Type} [DecidableEq ι]

/-! ## Any calls -/

/-- Finitely many threads stop after finitely many steps, and where they stop all calls have
returned, with the answers that they give one at a time, or the owner of the mutex ends the process,
as the calls do one at a time. -/
theorem threads_stop [Finite ι] (s₀ : Tfs) (calls : ι → List Call) :
    (¬ ∃ f : Nat → Monitor Tfs Call Ret ι, f 0 = start s₀ calls ∧
      ∀ n, ∃ t, Step Locked.tfsCall (f n) t (f (n + 1))) ∧
    ∀ m, Reaches Locked.tfsCall (start s₀ calls) m →
      (∀ t m', ¬ Step Locked.tfsCall m t m') →
      (m.owner = none ∧ ∃ rs, run exec s₀ (m.released.map Prod.snd) = ok (rs, m.shared) ∧
        ∀ t, callsOf t m.released = calls t ∧ m.returned t = resultsOf t m.released rs) ∨
      ∃ t x, m.owner = some t ∧ m.Ends t x ∧
        run exec s₀ (m.acquired.map Prod.snd) = ended x := by
  constructor
  · rintro ⟨f, -, hsteps⟩
    exact no_endless_run Locked.tfsCall f hsteps
  · intro m h hstop
    obtain ⟨rs, s, hserial⟩ := reaches_serial Locked.tfsCall_guarded h
    rcases stuck Locked.tfsCall_guarded h hstop with hdone | ⟨t, x, hown, hx⟩
    · obtain ⟨hown, rfl, hall⟩ := hserial.done hdone
      have hrun := hserial.run
      rw [serial_eq_exec] at hrun
      exact Or.inl ⟨hown, rs, hrun, hall⟩
    · have hend := hserial.ends Locked.tfsCall_guarded hx
      rw [serial_eq_exec] at hend
      exact Or.inr ⟨t, x, hown, hx, hend⟩

/-! ## Calls that the store permits -/

/-- In state `m` the calls that have unlocked gave the answers of the store. -/
structure Linearized (p : TfsParams) (s₁ : Tfs) (calls : ι → List Call)
    (m : Monitor Tfs Call Ret ι) : Prop where
  lives : ∀ t x, ¬ m.Ends t x
  called : ∀ t, callsOf t m.acquired ++ pendingCall (m.current t) ++ m.calls t = calls t
  order : m.acquired = m.released ∨ ∃ e, m.acquired = m.released ++ [e]
  answers : ∀ t, m.returned t ++ pendingResult (m.current t) =
    resultsOf t m.released (arun (fileStep p) (.init p) (m.released.map Prod.snd)).1
  store : m.owner = none →
    Refines p m.shared (arun (fileStep p) (.init p) (m.released.map Prod.snd)).2
  realTime : ∀ m₁, Reaches Locked.tfsCall (start s₁ calls) m₁ → Reaches Locked.tfsCall m₁ m →
    ∃ later, m.acquired = m₁.acquired ++ later ∧ ∀ t,
      (m₁.returned t).length ≤ (callsOf t m₁.acquired).length ∧
      callsOf t later ++ pendingCall (m.current t) ++ m.calls t =
        pendingCall (m₁.current t) ++ m₁.calls t

section
variable {s₀ s₁ : Tfs} {mallocs : Mallocs} {params : Option TfsParams} {p : TfsParams}
  {calls : ι → List Call} {m : Monitor Tfs Call Ret ι}

theorem linearized_of_serial {rs : List Ret} {s : Tfs} (hR₁ : Refines p s₁ (.init p))
    (hb : p.blockSize < 2 ^ 63) (hserial : Serial Locked.tfsCall s₁ calls m rs s)
    (hu : Permitted (fileStep p) Store.Permits (.init p) (m.acquired.map Prod.snd)) :
    Linearized p s₁ calls m ∧
      rs = (arun (fileStep p) (.init p) (m.released.map Prod.snd)).1 := by
  have hone := oneAtATime_of_serial hserial
  have hu' : Permitted (fileStep p) Store.Permits (.init p) (m.released.map Prod.snd) := by
    rcases hone.order with hacq | ⟨e, hacq⟩
    · rw [← hacq]
      exact hu
    · rw [hacq, List.map_append] at hu
      exact permitted_prefix hu
  obtain ⟨t, hrun, hR⟩ := run_permits hR₁ hb hu'
  rw [hone.run, ok.injEq, Prod.mk.injEq] at hrun
  obtain ⟨hrs, rfl⟩ := hrun
  refine ⟨?_, hrs⟩
  refine
    { lives := fun t x hends => ?_
      called := hone.called
      order := hone.order
      answers := fun t => ?_
      store := fun hown => ?_
      realTime := fun m₁ h₁ h₂ => reaches_later Locked.tfsCall_guarded h₁ h₂ }
  · have hend := hserial.ends Locked.tfsCall_guarded hends
    obtain ⟨t', hrun', -⟩ := run_permits hR₁ hb hu
    rw [serial_eq_exec, hrun'] at hend
    cases x <;> cases hend
  · rw [← hrs]
    exact hone.returned t
  · rw [(hone.final hown).2]
    exact hR

/-- Linearizability: while the calls, in the order in which they lock, are calls that the store
permits, it is as if each were made on the store at the moment of its lock. -/
theorem threads_linearizable (hparams : p = params.getD tfsDefaultParams) (hp : GoodParams p)
    (hb : p.blockSize < 2 ^ 63) (hinit : tfsInit s₀ mallocs params = ok (0, s₁))
    (h : Reaches Locked.tfsCall (start s₁ calls) m)
    (hu : Permitted (fileStep p) Store.Permits (.init p) (m.acquired.map Prod.snd)) :
    Linearized p s₁ calls m := by
  obtain ⟨rs, s, hserial⟩ := reaches_serial Locked.tfsCall_guarded h
  exact (linearized_of_serial (refines_tfsInit hparams hp hinit) hb hserial hu).1

/-- Calls that the store permits in each of its states are permitted in every order of the locks. -/
theorem permitted_of_serial {rs : List Ret} {s : Tfs} (hserial : Serial Locked.tfsCall s₁ calls m rs s)
    (hcalls : ∀ t, ∀ c ∈ calls t, ∀ a : Store, a.Permits c) :
    Permitted (fileStep p) Store.Permits (.init p) (m.acquired.map Prod.snd) := by
  apply permitted_of_forall
  intro c hc a
  obtain ⟨⟨t, c'⟩, hmem, rfl⟩ := List.mem_map.mp hc
  exact hcalls t c' (hserial.acquired_mem hmem) a

/-- Calls that the store permits in each of its states all get their answer: no schedule is
infinite, and where one stops each thread has the answers of the store to all its calls. -/
theorem threads_complete [Finite ι] (hparams : p = params.getD tfsDefaultParams)
    (hp : GoodParams p) (hb : p.blockSize < 2 ^ 63)
    (hinit : tfsInit s₀ mallocs params = ok (0, s₁))
    (hcalls : ∀ t, ∀ c ∈ calls t, ∀ a : Store, a.Permits c) :
    (¬ ∃ f : Nat → Monitor Tfs Call Ret ι, f 0 = start s₁ calls ∧
      ∀ n, ∃ t, Step Locked.tfsCall (f n) t (f (n + 1))) ∧
    ∀ m, Reaches Locked.tfsCall (start s₁ calls) m → Linearized p s₁ calls m ∧
      ((∀ t m', ¬ Step Locked.tfsCall m t m') → m.owner = none ∧ ∀ t,
        callsOf t m.released = calls t ∧ m.returned t = resultsOf t m.released
          (arun (fileStep p) (.init p) (m.released.map Prod.snd)).1) := by
  constructor
  · rintro ⟨f, -, hsteps⟩
    exact no_endless_run Locked.tfsCall f hsteps
  intro m h
  obtain ⟨rs, s, hserial⟩ := reaches_serial Locked.tfsCall_guarded h
  obtain ⟨hlin, rfl⟩ := linearized_of_serial (refines_tfsInit hparams hp hinit) hb hserial
    (permitted_of_serial hserial hcalls)
  refine ⟨hlin, fun hno => ?_⟩
  rcases stuck Locked.tfsCall_guarded h hno with hdone | ⟨t, x, -, hends⟩
  · obtain ⟨hown, -, hall⟩ := hserial.done hdone
    exact ⟨hown, hall⟩
  · exact absurd hends (hlin.lives t x)

end

end

theorem threads_stop_share : (¬ ∃ f : Nat → Monitor Tfs Call Ret Bool,
      f 0 = start smallDisk shareThreads ∧ ∀ n, ∃ t, Step Locked.tfsCall (f n) t (f (n + 1))) ∧
    ∀ m, Reaches Locked.tfsCall (start smallDisk shareThreads) m →
      (∀ t m', ¬ Step Locked.tfsCall m t m') →
      (m.owner = none ∧ ∃ rs,
        run exec smallDisk (m.released.map Prod.snd) = ok (rs, m.shared) ∧
        ∀ t, callsOf t m.released = shareThreads t ∧ m.returned t = resultsOf t m.released rs) ∨
      ∃ t x, m.owner = some t ∧ m.Ends t x ∧
        run exec smallDisk (m.acquired.map Prod.snd) = ended x :=
  threads_stop smallDisk shareThreads

theorem shareThreads_permits : ∀ t, ∀ c ∈ shareThreads t, ∀ a : Store, a.Permits c := by
  intro t
  cases t with
  | true =>
    simp only [shareThreads, List.forall_mem_cons, Store.Permits]
    exact ⟨fun _ h => absurd h (by decide), fun _ => by decide, fun _ => trivial, nofun⟩
  | false =>
    simp only [shareThreads, List.forall_mem_cons, Store.Permits]
    exact ⟨fun _ h => absurd h (by decide), fun _ => by decide, nofun⟩

/-- The reader has what the writer has stored, and the close is under way. -/
theorem threads_linearizable_share : ∃ m, m.owner = some true ∧
    m.returned true = [⟨0, []⟩, ⟨5, []⟩] ∧ m.returned false = [⟨1, []⟩, ⟨5, [0, 1, 2, 3, 4]⟩] ∧
    Linearized smallParams smallDisk shareThreads m := by
  have hparams : smallParams = (some smallParams).getD tfsDefaultParams := rfl
  obtain ⟨m, h, howner, hwriter, hreader, -⟩ := shareThreads_reach
  obtain ⟨rs, s, hserial⟩ := reaches_serial Locked.tfsCall_guarded h
  refine ⟨m, howner, hwriter, hreader,
    threads_linearizable hparams smallParams_good (by decide) smallDisk_init h ?_⟩
  exact permitted_of_serial hserial shareThreads_permits

theorem threads_complete_share : (¬ ∃ f : Nat → Monitor Tfs Call Ret Bool,
      f 0 = start smallDisk shareThreads ∧ ∀ n, ∃ t, Step Locked.tfsCall (f n) t (f (n + 1))) ∧
    ∀ m, Reaches Locked.tfsCall (start smallDisk shareThreads) m →
      Linearized smallParams smallDisk shareThreads m ∧
      ((∀ t m', ¬ Step Locked.tfsCall m t m') → m.owner = none ∧ ∀ t,
        callsOf t m.released = shareThreads t ∧ m.returned t = resultsOf t m.released
          (arun (fileStep smallParams) (.init smallParams) (m.released.map Prod.snd)).1) := by
  have hparams : smallParams = (some smallParams).getD tfsDefaultParams := rfl
  exact threads_complete hparams smallParams_good (by decide) smallDisk_init shareThreads_permits

end Mbroker
