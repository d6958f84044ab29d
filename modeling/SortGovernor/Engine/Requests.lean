import SortGovernor.Engine.RunFormat

/-!
# What the engine asks for

A session creates a file only under a name that is new since it started, opens
only finished runs that hold a row, and removes a file only where a rule says so.
-/

namespace SortGovernor.Engine

open SortGovernor.Resumption

/-- Nothing was created at this path since `initial`, and nothing is there. -/
structure World.Unused (initial world : World) (path : ScratchPath) : Prop where
  created : .create path ∈ world.log → .create path ∈ initial.log
  present : world.fs.files path ≠ none → initial.fs.files path ≠ none

/-- The requests that need no rule of their own; a removal always does. -/
def Request.Lawful {Key Value : Type} (codec : Codec Key Value) (initial : World) :
    Request Key Value → World → Prop
  | .perform _ _ (.create path), world => initial.Unused world path
  | .perform _ _ (.readCount path), world =>
      ∃ records, records ≠ [] ∧ RunFile codec world.fs.files path records
  | .direct (.removeIfExists _), _ => False
  | _, _ => True

/-- The future may make any lawful request and fail in this state. -/
structure Tolerates {Key Value State : Type} (codec : Codec Key Value) (initial : World)
    (issue : State → Request Key Value → World → Prop) (err : Abort → State → World → Prop)
    (state : State) : Prop where
  issue : ∀ op world, op.Lawful codec initial world → issue state op world
  err : ∀ error world, err (.error error) state world

theorem Tolerates.inner {Key Value State Inner : Type} {codec : Codec Key Value} {initial : World}
    {issue : State → Request Key Value → World → Prop} {err : Abort → State → World → Prop}
    {state : State} (tolerates : Tolerates codec initial issue err state) (inner : Inner) :
    Tolerates codec initial (fun _ op world => issue state op world)
      (fun abort _ world => err abort state world)
      inner :=
  ⟨tolerates.issue, tolerates.err⟩

section Rules

variable {Key Value State Result : Type} {codec : Codec Key Value} {initial : World}
  {issue : State → Request Key Value → World → Prop} {err : Abort → State → World → Prop}
  {state : State} {world : World}

@[simp]
theorem wp_propagate {result : Except SorterError Result} {ok : Result → State → World → Prop} :
    (propagate result : Async Key Value State Result).wp (sessionSemantics codec)
        issue ok err state world ↔
      match result with
      | .ok result => ok result state world
      | .error error => err (.error error) state world := by
  cases result <;> rfl

@[simp]
theorem wp_orError {value : Option Result} {error : SorterError}
    {ok : Result → State → World → Prop} :
    (orError value error : Async Key Value State Result).wp (sessionSemantics codec)
        issue ok err state world ↔
      match value with
      | some result => ok result state world
      | none => err (.error error) state world := by
  cases value <;> rfl

theorem wp_ask {op : Request Key Value} {ok : op.Reply → State → World → Prop} :
    (ask op : Async Key Value State op.Reply).wp (sessionSemantics codec)
        issue ok err state world ↔
      issue state op world ∧
        ∀ reply next, (sessionSemantics codec).reply op world reply next → ok reply state next :=
  Iff.rfl

theorem wp_orError_of {value : Option Result} {error : SorterError}
    {ok : Result → State → World → Prop} (failed : err (.error error) state world)
    (done : ∀ result, value = some result → ok result state world) :
    (orError value error : Async Key Value State Result).wp (sessionSemantics codec)
        issue ok err state world := by
  cases value with
  | none => exact failed
  | some result => exact done result rfl

theorem wp_budgetLimit {ok : Nat → State → World → Prop} (issued : issue state .limit world)
    (done : ∀ limit, ok limit state world) :
    (budgetLimit : Async Key Value State Nat).wp (sessionSemantics codec)
        issue ok err state world := by
  refine wp_ask.mpr ⟨issued, ?_⟩
  rintro limit _ rfl
  exact done limit

theorem wp_reserve {bytes : Nat} {ok : MemoryCharge → State → World → Prop}
    (issued : issue state (.reserve bytes) world)
    (failed : ∀ error, err (.error error) state world) (done : ok ⟨bytes⟩ state world) :
    (reserve bytes : Async Key Value State MemoryCharge).wp (sessionSemantics codec)
        issue ok err state world := by
  refine Method.wp_bind.mpr (wp_ask.mpr ⟨issued, ?_⟩)
  rintro reply next ⟨rfl, limit, used, rfl⟩
  refine wp_propagate.mpr ?_
  unfold MemoryBudget.reserve
  split <;> rename_i admitted
  · split at admitted
    · cases admitted
    · cases admitted
      exact done
  · exact failed _

theorem wp_performReserved_of {io : ScopeId} {held : List MemoryCharge} (job : FsJob)
    {ok : job.Value → State → World → Prop} (issued : issue state (.perform io held job) world)
    (failed : ∀ error world, err (.error error) state world)
    (done : ∀ value fs, job.Completes world.fs (.ok value) fs →
      ok value state { fs, log := world.log ++ [job] }) :
    (performReserved io held job : Async Key Value State job.Value).wp (sessionSemantics codec)
        issue ok err state world := by
  refine Method.wp_bind.mpr (wp_ask.mpr ⟨issued, ?_⟩)
  rintro reply next (⟨fs, completes, rfl⟩ | ⟨rfl, rfl⟩)
  · refine wp_propagate.mpr ?_
    cases reply with
    | error error => exact failed _ _
    | ok value => exact done value fs completes
  · exact failed _ _

theorem wp_performReserved {io : ScopeId} {held : List MemoryCharge} (job : FsJob)
    {ok : job.Value → State → World → Prop} (tolerates : Tolerates codec initial issue err state)
    (lawful : (Request.perform io held job : Request Key Value).Lawful codec initial world)
    (done : ∀ value fs, job.Completes world.fs (.ok value) fs →
      ok value state { fs, log := world.log ++ [job] }) :
    (performReserved io held job : Async Key Value State job.Value).wp (sessionSemantics codec)
        issue ok err state world :=
  wp_performReserved_of job (tolerates.issue _ _ lawful) tolerates.err done

theorem wp_perform_of [Layout Key Value] {io : ScopeId} {pathBytes : Nat}
    {held : List MemoryCharge} (job : FsJob) {ok : job.Value → State → World → Prop}
    (reserving : ∀ bytes, issue state (.reserve bytes) world)
    (issued : ∀ held, issue state (.perform io held job) world)
    (failed : ∀ error world, err (.error error) state world)
    (done : ∀ value fs, job.Completes world.fs (.ok value) fs →
      ok value state { fs, log := world.log ++ [job] }) :
    (perform io pathBytes held job : Async Key Value State job.Value).wp (sessionSemantics codec)
        issue ok err state world := by
  refine Method.wp_bind.mpr (wp_orError_of (failed _ _) ?_)
  intro bytes _
  refine Method.wp_bind.mpr (wp_reserve (reserving _) (fun _ => failed _ _) ?_)
  exact wp_performReserved_of job (issued _) failed done

theorem wp_perform [Layout Key Value] {io : ScopeId} {pathBytes : Nat}
    {held : List MemoryCharge} (job : FsJob) {ok : job.Value → State → World → Prop}
    (tolerates : Tolerates codec initial issue err state)
    (lawful : ∀ held, (Request.perform io held job : Request Key Value).Lawful codec initial world)
    (done : ∀ value fs, job.Completes world.fs (.ok value) fs →
      ok value state { fs, log := world.log ++ [job] }) :
    (perform io pathBytes held job : Async Key Value State job.Value).wp (sessionSemantics codec)
        issue ok err state world :=
  wp_perform_of job (fun _ => tolerates.issue _ _ trivial)
    (fun held => tolerates.issue _ _ (lawful held)) tolerates.err done

theorem wp_awaitDirect (job : FsJob) {ok : job.Value → State → World → Prop}
    (issued : issue state (.direct job) world)
    (failed : ∀ error world, err (.error error) state world)
    (done : ∀ value fs, job.Completes world.fs (.ok value) fs →
      ok value state { fs, log := world.log ++ [job] }) :
    (awaitDirect job : Async Key Value State job.Value).wp (sessionSemantics codec)
        issue ok err state world := by
  refine Method.wp_bind.mpr (wp_ask.mpr ⟨issued, ?_⟩)
  rintro reply next ⟨fs, completes, rfl⟩
  refine wp_propagate.mpr ?_
  cases reply with
  | error error => exact failed _ _
  | ok value => exact done value fs completes

theorem wp_scopeIdle {io : ScopeId} {ok : Unit → State → World → Prop}
    (issued : issue state (.idle io) world) (done : ok () state world) :
    (scopeIdle io : Async Key Value State Unit).wp (sessionSemantics codec)
        issue ok err state world := by
  refine wp_ask.mpr ⟨issued, ?_⟩
  rintro _ _ rfl
  exact done

end Rules

end SortGovernor.Engine
