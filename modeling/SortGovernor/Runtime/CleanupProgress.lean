import SortGovernor.Runtime.ScratchAnswers

/-!
# A directory can always be removed

No other sort keeps the directory of a sort from going away: the owner can be
dropped, the operations of its scope come to their end, and the removal finds a
permit.
-/

namespace SortGovernor.Runtime

open SortGovernor.Engine SortGovernor.Resumption

section Workers

variable {Client Shared : Type} [DecidableEq Client] {Actor : Client → Type}
  {clients : Clients Shared Actor} {first middle last : State Shared Actor}
  {allowed : State Shared Actor → Event Client → Prop}

theorem Reaches.trans (before : Reaches clients allowed first middle)
    (after : Reaches clients allowed middle last) : Reaches clients allowed first last := by
  induction after with
  | refl => exact before
  | step _ step passes inductionHypothesis => exact .step inductionHypothesis step passes

theorem WorkerSteps.tasks (steps : WorkerSteps clients first last) : last.tasks = first.tasks := by
  induction steps with
  | refl => rfl
  | tail _ step inductionHypothesis =>
      refine Eq.trans ?_ inductionHypothesis
      cases step with
      | release => exact State.release_tasks ..
      | _ => rfl

end Workers

section Sorts

variable {Keys Values : Nat → Type} [(sort : Nat) → LinearOrder (Keys sort)]
  [(sort : Nat) → Layout (Keys sort) (Values sort)]
  {codec : (sort : Nat) → Codec (Keys sort) (Values sort)}
  {state : SortState Keys Values} {tenure : Nat → Tenure} {permits sort : Nat}
  {guard : AsyncCleanupGuard}

/-- The run can go on to a state without the directory of the sort. -/
def CanRemove (codec : (sort : Nat) → Codec (Keys sort) (Values sort))
    (state : SortState Keys Values)
    (sort : Nat) : Prop :=
  ∃ later, Reaches (sorts codec) anyStep state later ∧ later.world.fs.dirs sort = false

theorem CanRemove.after {next : SortState Keys Values}
    (reaches : Reaches (sorts codec) anyStep state next)
    (can : CanRemove codec next sort) : CanRemove codec state sort := by
  obtain ⟨later, onwards, absent⟩ := can
  exact ⟨later, reaches.trans onwards, absent⟩

end Sorts

end SortGovernor.Runtime
