import Mbroker.Fs.FailedInit
import Mbroker.Fs.Truncate

/-!
# From `tfs_init` to `tfs_destroy`, and again

With its two administrative calls TécnicoFS is a store that is there or is not.  A
`tfs_init` makes an empty one, whatever was there before the last `tfs_destroy`.  One that
fails leaves the store as it is where it is permitted (`LifePermits`): where the first gets no
inode table, or another one has the same parameters.

    lifeCycle_run : the answers of permitted calls, from a process whose `inode_table` is NULL,
      are those of `lifeStep`
-/

namespace Mbroker

open CLib CLib.Outcome

/-- The store, with its parameters, while there is one. -/
abbrev Life := Option (TfsParams × Store)

def lifeStep : Life → TfsCall → Ret × Life
  | none, .tfsInit m paramsPtr =>
    if m.inodeTable.isSome then
      (⟨0, []⟩, some (paramsPtr.getD tfsDefaultParams, .init (paramsPtr.getD tfsDefaultParams)))
    else (⟨-1, []⟩, none)
  | some x, .tfsInit _ _ => (⟨-1, []⟩, some x)
  | _, .tfsDestroy => (⟨0, []⟩, none)
  | none, .call _ => (⟨-1, []⟩, none)
  | some (p, a), .call c => ((fileStep p a c).1, some (p, (fileStep p a c).2))

/-- Operations come between the two calls; the first `tfs_init` succeeds or gets no inode table, and
another one has the same parameters. -/
def LifePermits : Life → TfsCall → Prop
  | none, .tfsInit m paramsPtr => m.inodeTable = none ∨
      (CanInit m (paramsPtr.getD tfsDefaultParams) ∧
        (paramsPtr.getD tfsDefaultParams).blockSize < 2 ^ 63)
  | some (p, _), .tfsInit _ paramsPtr => paramsPtr.getD tfsDefaultParams = p
  | _, .tfsDestroy => True
  | none, .call _ => False
  | some (_, a), .call c => a.Permits c

def Lives (s : Tfs) : Life → Prop
  | none => s.inodeTable.isNull = true
  | some (p, a) => p.blockSize < 2 ^ 63 ∧ Refines p s a

theorem lives_notNull {s : Tfs} {p : TfsParams} {a : Store} (h : Refines p s a) :
    s.inodeTable.isNull = false := h.inv.sane.inodeTable.1

theorem init_lives {s : Tfs} {m : Mallocs} {paramsPtr : Option TfsParams} {life : Life}
    (h : Lives s life) (hp : LifePermits life (.tfsInit m paramsPtr)) :
    ∃ s', execTfs s (.tfsInit m paramsPtr) = ok ((lifeStep life (.tfsInit m paramsPtr)).1, s') ∧
      Lives s' (lifeStep life (.tfsInit m paramsPtr)).2 := by
  cases life with
  | none =>
    rcases hp with hm | ⟨hc, hb⟩
    · -- the allocation of the inode table fails
      have hs : s.inodeTable.isNull = true := h
      have hstate : ∃ s₁, stateInit s m (paramsPtr.getD tfsDefaultParams) = ok (-1, s₁) ∧
          s₁.inodeTable.isNull = true := by
        simp [stateInit, hs, hm, Region.malloc, Region.null]
      obtain ⟨s₁, hstate, hnull⟩ := hstate
      have hinit : tfsInit s m paramsPtr = ok (-1, s₁) := by simp [tfsInit, hstate]
      have hnone : lifeStep none (.tfsInit m paramsPtr) = (⟨-1, []⟩, none) := by
        simp [lifeStep, hm]
      rw [hnone]
      exact ⟨s₁, by simp only [execTfs, hinit, ok_bind, pure_eq], hnull⟩
    · obtain ⟨s', hinit⟩ := tfsInit_succeeds hc.good h hc.mallocs hc.inodes hc.blocks
      have hsome : m.inodeTable.isSome = true := hc.mallocs.1
      refine ⟨s', by simp only [execTfs, hinit, ok_bind, lifeStep, hsome, if_true, pure_eq], ?_⟩
      simp only [lifeStep, hsome, if_true]
      exact ⟨hb, refines_tfsInit rfl hc.good hinit⟩
  | some x =>
    obtain ⟨p, a⟩ := x
    obtain ⟨hb, hR⟩ := h
    have hinit := tfsInit_initialised (lives_notNull hR) m paramsPtr
    have hsame : { s with fsParams := paramsPtr.getD tfsDefaultParams } = s := by
      rw [show paramsPtr.getD tfsDefaultParams = s.fsParams from Eq.trans hp hR.params.symm]
    rw [hsame] at hinit
    refine ⟨s, by simp only [execTfs, hinit, ok_bind, lifeStep, pure_eq], hb, hR⟩

theorem execTfs_lives {s : Tfs} {life : Life} {c : TfsCall} (h : Lives s life)
    (hp : LifePermits life c) :
    ∃ s', execTfs s c = ok ((lifeStep life c).1, s') ∧ Lives s' (lifeStep life c).2 := by
  cases c with
  | tfsInit m paramsPtr => exact init_lives h hp
  | tfsDestroy =>
    refine ⟨stateDestroy s, ?_, ?_⟩
    · cases life <;> rfl
    · cases life <;> rfl
  | call c =>
    cases life with
    | none => exact hp.elim
    | some x =>
      obtain ⟨p, a⟩ := x
      obtain ⟨s', hexec, hR⟩ := permits_exec h.2 h.1 hp
      exact ⟨s', hexec, h.1, hR⟩

/-- Calls that `LifePermits` have the answers of a store that is there or not; behind a `tfs_destroy`
and the next `tfs_init` it is empty. -/
theorem lifeCycle_run {s : Tfs} (hs : s.inodeTable.isNull = true) {cs : List TfsCall}
    (hp : Permitted lifeStep LifePermits none cs) :
    ∃ s', run execTfs s cs = ok ((arun lifeStep none cs).1, s') ∧
      Lives s' (arun lifeStep none cs).2 := by
  have hstep : ∀ s life c, Lives s life → LifePermits life c →
      ∃ s', execTfs s c = ok ((lifeStep life c).1, s') ∧ Lives s' (lifeStep life c).2 :=
    fun _ _ _ h hp => execTfs_lives h hp
  have hnone : Lives s none := hs
  exact run_permitted hstep hnone hp

/-- `/a` is written, and is gone behind `tfs_destroy` and the next `tfs_init`. -/
def twoLives : List TfsCall :=
  [.tfsInit zeroMallocs (some smallParams), .call (.tfsOpen (some pathA) tfsOCreat),
    .call (.tfsWrite 0 (fun k => UInt8.ofNat k) 5), .tfsDestroy,
    .tfsInit zeroMallocs (some smallParams), .call (.tfsOpen (some pathA) 0)]

theorem lifeCycle_run_two : ∃ s', run execTfs .zero twoLives =
      ok ((arun lifeStep none twoLives).1, s') ∧ Lives s' (arun lifeStep none twoLives).2 := by
  have hinit : LifePermits none (.tfsInit zeroMallocs (some smallParams)) :=
    Or.inr ⟨smallParams_canInit, by decide⟩
  refine lifeCycle_run rfl ⟨hinit, ?_, ?_, trivial, hinit, ?_, trivial⟩
  · exact fun h => absurd h (by decide)
  · show 5 < 2 ^ 63
    decide
  · exact fun h => absurd h (by decide)

end Mbroker
