import SortGovernor.Runtime.Machine

/-!
# Conservation of permits and scope counts

Every permit is free or owned by one worker, and a scope counts its callers in
the queue and the workers that still own its guard.  A worker that executes owns
everything it was given, and it never asks for a second permit.
-/

namespace SortGovernor.Runtime

open SortGovernor.Engine SortGovernor.Resumption

variable {Client Shared : Type} [DecidableEq Client] {Actor : Client → Type}
  {clients : Clients Shared Actor}

namespace Operation

def HoldsPermit (operation : Operation Client) : Prop := .permit ∈ operation.owned

def HoldsGuard (scope : ScopeId) (operation : Operation Client) : Prop :=
  operation.scope = some scope ∧ .guard ∈ operation.owned

instance : DecidablePred (HoldsPermit : Operation Client → Prop) :=
  fun operation => inferInstanceAs (Decidable (.permit ∈ operation.owned))

instance (scope : ScopeId) : DecidablePred (HoldsGuard scope : Operation Client → Prop) :=
  fun operation => inferInstanceAs
    (Decidable (operation.scope = some scope ∧ .guard ∈ operation.owned))

section Owned

omit [DecidableEq Client]

variable {operation operation' : Operation Client}

theorem holdsPermit_congr (owned : operation'.owned = operation.owned) :
    operation'.HoldsPermit ↔ operation.HoldsPermit := by
  rw [HoldsPermit, HoldsPermit, owned]

theorem holdsGuard_congr (sameScope : operation'.scope = operation.scope)
    (owned : operation'.owned = operation.owned) (scope : ScopeId) :
    operation'.HoldsGuard scope ↔ operation.HoldsGuard scope := by
  rw [HoldsGuard, HoldsGuard, sameScope, owned]

theorem not_holdsPermit (nothing : operation.owned = []) : ¬operation.HoldsPermit := by
  simp [HoldsPermit, nothing]

theorem not_holdsGuard (nothing : operation.owned = []) (scope : ScopeId) :
    ¬operation.HoldsGuard scope := by
  simp [HoldsGuard, nothing]

@[simp]
theorem holdsPermit_spawn (call : Call Client) : (spawn call).HoldsPermit := by
  simp [HoldsPermit, spawn]

@[simp]
theorem holdsGuard_spawn (call : Call Client) (scope : ScopeId) :
    (spawn call).HoldsGuard scope ↔ call.scope = scope := by
  simp [HoldsGuard, spawn]

end Owned

/-- What the worker of an operation owns at each moment. -/
structure Sound (operation : Operation Client) : Prop where
  executing : operation.Executing → operation.scope ≠ none →
    operation.owned = [.reservations, .permit, .guard]
  inPlace : operation.scope = none → operation.owned = []
  once : operation.owned.Nodup

omit [DecidableEq Client] in
theorem sound_spawn (call : Call Client) : (spawn call).Sound where
  executing _ _ := rfl
  inPlace := nofun
  once := by simp [spawn]

omit [DecidableEq Client] in
theorem sound_inPlace (caller : Client) (job : FsJob) : (inPlace caller job).Sound where
  executing _ performed := absurd rfl performed
  inPlace _ := rfl
  once := List.nodup_nil

end Operation

namespace State

variable (state : State Shared Actor)

def permitHolders : Nat :=
  state.operations.countP fun operation => operation.HoldsPermit

def waitingIn (scope : ScopeId) : Nat :=
  state.waiting.countP fun call => call.scope = scope

def guardsIn (scope : ScopeId) : Nat :=
  state.operations.countP fun operation => operation.HoldsGuard scope

/-- Nothing is lost between the counters and their owners. -/
structure Conserved (permits : Nat) : Prop where
  permits : state.permits + state.permitHolders = permits
  pending : ∀ scope, state.pending scope = state.waitingIn scope + state.guardsIn scope
  sound : ∀ operation ∈ state.operations, operation.Sound

end State

section Preservation

variable {state state' : State Shared Actor} {permits : Nat} {event : Event Client}

omit [DecidableEq Client] in
theorem State.conserved_initial (world : World Shared) :
    (State.initial permits world : State Shared Actor).Conserved permits where
  permits := rfl
  pending _ := rfl
  sound _ member := absurd member List.not_mem_nil

omit [DecidableEq Client] in
theorem State.Conserved.congr (conserved : state.Conserved permits)
    (sameWaiting : state'.waiting = state.waiting)
    (sameOperations : state'.operations = state.operations)
    (samePermits : state'.permits = state.permits) (samePending : state'.pending = state.pending) :
    state'.Conserved permits := by
  constructor
  · rw [State.permitHolders, sameOperations, samePermits]
    exact conserved.permits
  · intro scope
    rw [State.waitingIn, State.guardsIn, sameOperations, sameWaiting, samePending]
    exact conserved.pending scope
  · rw [sameOperations]
    exact conserved.sound

omit [DecidableEq Client] in
/-- An operation may change as long as it stays sound and owns the same. -/
theorem State.Conserved.edit (conserved : state.Conserved permits)
    {before after : List (Operation Client)} {operation operation' : Operation Client}
    (found : state.operations = before ++ operation :: after)
    (edited : state'.operations = before ++ operation' :: after)
    (scope : operation'.scope = operation.scope) (owned : operation'.owned = operation.owned)
    (sound : operation'.Sound)
    (sameWaiting : state'.waiting = state.waiting)
    (samePermits : state'.permits = state.permits) (samePending : state'.pending = state.pending) :
    state'.Conserved permits := by
  constructor
  · have counted := conserved.permits
    simp only [State.permitHolders, found, List.countP_append, List.countP_cons] at counted
    simp only [State.permitHolders, edited, samePermits, List.countP_append, List.countP_cons,
      Operation.holdsPermit_congr owned]
    exact counted
  · intro s
    have counted := conserved.pending s
    simp only [State.waitingIn, State.guardsIn, found, List.countP_append, List.countP_cons]
      at counted
    simp only [State.waitingIn, State.guardsIn, edited, sameWaiting, samePending,
      List.countP_append, List.countP_cons, Operation.holdsGuard_congr scope owned]
    exact counted
  · intro other member
    rw [edited] at member
    have known := conserved.sound other
    rw [found] at known
    simp only [List.mem_append, List.mem_cons] at member known
    rcases member with earlier | rfl | later
    · exact known (.inl earlier)
    · exact sound
    · exact known (.inr (.inr later))

omit [DecidableEq Client] in
theorem State.Conserved.forget (conserved : state.Conserved permits)
    {before after : List (Operation Client)} {operation : Operation Client}
    (found : state.operations = before ++ operation :: after)
    (edited : state'.operations = before ++ after) (nothing : operation.owned = [])
    (sameWaiting : state'.waiting = state.waiting)
    (samePermits : state'.permits = state.permits) (samePending : state'.pending = state.pending) :
    state'.Conserved permits := by
  constructor
  · have counted := conserved.permits
    simpa [State.permitHolders, found, edited, samePermits, List.countP_append,
      Operation.not_holdsPermit nothing] using counted
  · intro s
    have counted := conserved.pending s
    simpa [State.waitingIn, State.guardsIn, found, edited, sameWaiting, samePending,
      List.countP_append, Operation.not_holdsGuard nothing] using counted
  · intro other member
    apply conserved.sound
    rw [edited] at member
    rw [found]
    simp only [List.mem_append, List.mem_cons] at member ⊢
    exact member.imp_right .inr

omit [DecidableEq Client] in
/-- A worker that drops what it owns next gives it back to its counter. -/
theorem State.Conserved.released (conserved : state.Conserved permits)
    {before after : List (Operation Client)} {operation : Operation Client}
    (rest : Operation Client) {holding : Holding}
    (found : state.operations = before ++ operation :: after)
    (ended : ¬rest.Executing) (sameScope : rest.scope = operation.scope)
    (owns : operation.owned = holding :: rest.owned) :
    State.Conserved { state.release operation.scope holding with
      operations := before ++ rest :: after } permits := by
  have sound := conserved.sound operation (by simp [found])
  have once := sound.once
  rw [owns, List.nodup_cons] at once
  obtain ⟨scope, ofScope⟩ : ∃ scope, operation.scope = some scope := by
    cases inPlace : operation.scope with
    | none => simp [sound.inPlace inPlace] at owns
    | some scope => exact ⟨scope, rfl⟩
  have permit : operation.HoldsPermit ↔ holding = .permit ∨ rest.HoldsPermit := by
    simp [Operation.HoldsPermit, owns, eq_comm]
  have guard : ∀ s, operation.HoldsGuard s ↔ s = scope ∧ holding = .guard ∨ rest.HoldsGuard s := by
    intro s
    simp [Operation.HoldsGuard, owns, sameScope, ofScope, eq_comm, and_or_left]
  constructor
  · have counted := conserved.permits
    simp only [State.permitHolders, found, List.countP_append, List.countP_cons, permit] at counted
    cases holding with
    | permit =>
        have dropped : ¬rest.HoldsPermit := once.1
        simp [State.permitHolders, State.release, List.countP_append, dropped] at counted ⊢
        omega
    | reservations | guard =>
        simpa [State.permitHolders, State.release, State.releaseScope, ofScope,
          List.countP_append, List.countP_cons] using counted
  · intro s
    have counted := conserved.pending s
    simp only [State.waitingIn, State.guardsIn, found, List.countP_append, List.countP_cons, guard]
      at counted
    cases holding with
    | guard =>
        have dropped : ¬rest.HoldsGuard s := fun holds => once.1 holds.2
        by_cases same : s = scope
        · subst same
          simp [State.waitingIn, State.guardsIn, State.release, State.releaseScope, ofScope,
            List.countP_append, dropped] at counted ⊢
          omega
        · simpa [State.waitingIn, State.guardsIn, State.release, State.releaseScope, ofScope,
            List.countP_append, dropped, same] using counted
    | reservations | permit =>
        simpa [State.waitingIn, State.guardsIn, State.release, ofScope, List.countP_append,
          List.countP_cons] using counted
  · intro other member
    have known := conserved.sound other
    rw [found] at known
    simp only [List.mem_append, List.mem_cons] at member known
    rcases member with earlier | rfl | later
    · exact known (.inl earlier)
    · exact ⟨fun executing => absurd executing ended,
        fun inPlace => by simp [sameScope, ofScope] at inPlace, once.2⟩
    · exact known (.inr (.inr later))

/-- Every step conserves permits and counts. -/
theorem State.Conserved.step (conserved : state.Conserved permits)
    (step : Step clients state event state') : state'.Conserved permits := by
  cases step with
  | start | fork | move | suspend | idle | wake | cancelSuspended =>
      exact conserved.congr rfl rfl rfl rfl
  | @request client actor scope held job _ _ =>
      constructor
      · exact conserved.permits
      · intro s
        have counted := conserved.pending s
        by_cases same : s = scope
        · subst same
          simp only [State.waitingIn, State.guardsIn] at counted
          simp [State.retainScope, State.setTask, State.waitingIn, State.guardsIn,
            List.countP_append, counted]
          omega
        · simpa [State.retainScope, State.setTask, State.waitingIn, State.guardsIn,
            List.countP_append, same, Ne.symm same] using counted
      · exact conserved.sound
  | @inPlace client actor job _ _ =>
      have nothing : (Operation.inPlace client job).owned = [] := rfl
      constructor
      · simpa [State.setTask, State.permitHolders, List.countP_append,
          Operation.not_holdsPermit nothing] using conserved.permits
      · intro s
        simpa [State.setTask, State.waitingIn, State.guardsIn, List.countP_append,
          Operation.not_holdsGuard nothing] using conserved.pending s
      · intro operation member
        rcases List.mem_append.mp member with known | fresh
        · exact conserved.sound operation known
        · rw [List.mem_singleton.mp fresh]
          exact Operation.sound_inPlace client job
  | @acquire before call after found free =>
      constructor
      · have counted := conserved.permits
        simp only [State.permitHolders] at counted
        simp only [State.permitHolders, List.countP_append, List.countP_singleton,
          Operation.holdsPermit_spawn, decide_true, if_true]
        omega
      · intro s
        have counted := conserved.pending s
        simp only [State.waitingIn, State.guardsIn, found, List.countP_append, List.countP_cons]
          at counted
        simp only [State.waitingIn, State.guardsIn, List.countP_append, List.countP_singleton,
          Operation.holdsGuard_spawn, counted]
        omega
      · intro operation member
        rcases List.mem_append.mp member with known | fresh
        · exact conserved.sound operation known
        · rw [List.mem_singleton.mp fresh]
          exact Operation.sound_spawn call
  | @work before operation after left op resume reply fs found executing _ _ =>
      have sound := conserved.sound operation (by simp [found])
      exact conserved.edit found rfl rfl rfl
        ⟨sound.executing, sound.inPlace, sound.once⟩ rfl rfl rfl
  | @finish before operation after result found executing _ =>
      have sound := conserved.sound operation (by simp [found])
      exact conserved.edit found rfl rfl rfl ⟨nofun, sound.inPlace, sound.once⟩ rfl rfl rfl
  | @panic before operation after text found executing performed =>
      have sound := conserved.sound operation (by simp [found])
      exact conserved.edit found rfl rfl rfl ⟨nofun, sound.inPlace, sound.once⟩ rfl rfl rfl
  | @release before operation after holding owned found ended owns =>
      exact conserved.released { operation with owned } found ended rfl owns
  | @deliver before operation after _ _ _ found _ _ nothing _ _ =>
      exact conserved.forget found rfl nothing rfl rfl rfl
  | @dispose before operation after found _ _ nothing =>
      exact conserved.forget found rfl nothing rfl rfl rfl
  | @cancelWaiting client _ _ before call after _ _ found _ =>
      constructor
      · exact conserved.permits
      · intro s
        have counted := conserved.pending s
        simp only [State.waitingIn, State.guardsIn, found, List.countP_append, List.countP_cons]
          at counted
        by_cases same : call.scope = s
        · subst same
          simp [State.releaseScope, State.setTask, State.waitingIn, State.guardsIn] at counted ⊢
          omega
        · simpa [State.releaseScope, State.setTask, State.waitingIn, State.guardsIn, same,
            Ne.symm same] using counted
      · exact conserved.sound
  | @cancelRunning client _ _ before operation after _ _ found _ _ =>
      have sound := conserved.sound operation (by simp [found])
      exact conserved.edit found rfl rfl rfl
        ⟨sound.executing, sound.inPlace, sound.once⟩ rfl rfl rfl

theorem Reaches.conserved {allowed : State Shared Actor → Event Client → Prop}
    (reaches : Reaches clients allowed state state') (conserved : state.Conserved permits) :
    state'.Conserved permits := by
  induction reaches with
  | refl => exact conserved
  | step _ step _ inductionHypothesis => exact inductionHypothesis.step step

end Preservation

section Progress

variable {state : State Shared Actor}

/-- Steps that workers take without any client. -/
def WorkerSteps (clients : Clients Shared Actor) : State Shared Actor → State Shared Actor → Prop :=
  Relation.ReflTransGen fun state state' => Step clients state .worker state'

theorem exists_fileStep (op : FileOp) (fs : Fs) : ∃ reply fs', op.Step fs reply fs' := by
  cases op with
  | reserve bytes => exact ⟨_, fs, rfl, 0, 0, rfl⟩
  | removeDirAll dir => exact ⟨_, fs, .inr ⟨.notFound, rfl, rfl, fun _ => .inl rfl⟩⟩
  | ensureDir | removeIfExists | create | append | writeAt =>
      exact ⟨_, fs, .inr ⟨.notFound, rfl, .inl rfl⟩⟩
  | «open» | readExact | flush => exact ⟨_, fs, .inr ⟨.notFound, rfl, rfl⟩⟩

theorem exists_released {before after : List (Operation Client)} {operation : Operation Client}
    (found : state.operations = before ++ operation :: after) (ended : ¬operation.Executing) :
    ∃ operation' state', WorkerSteps clients state state' ∧ state'.waiting = state.waiting ∧
      state'.operations = before ++ operation' :: after ∧ operation'.owned = [] := by
  obtain ⟨caller, attached, scope, held, job, work, outcome, owned⟩ := operation
  induction owned generalizing state with
  | nil => exact ⟨_, state, .refl, rfl, found, rfl⟩
  | cons holding owned inductionHypothesis =>
      obtain ⟨next, step, found', waiting⟩ : ∃ next, Step clients state .worker next ∧
          next.operations = before ++
            ⟨caller, attached, scope, held, job, work, outcome, owned⟩ :: after ∧
          next.waiting = state.waiting := by
        refine ⟨_, .release found ended rfl, rfl, ?_⟩
        cases holding <;> cases scope <;> rfl
      obtain ⟨operation', state', steps, queue, reached⟩ := inductionHypothesis found' ended
      exact ⟨operation', state', .head step steps, queue.trans waiting, reached⟩

theorem exists_finished {before after : List (Operation Client)} {operation : Operation Client}
    (found : state.operations = before ++ operation :: after) :
    ∃ operation' state', WorkerSteps clients state state' ∧ state'.waiting = state.waiting ∧
      state'.operations = before ++ operation' :: after ∧ operation'.owned = [] := by
  obtain ⟨caller, attached, scope, held, job, work, outcome, owned⟩ := operation
  cases outcome with
  | some result => exact exists_released found (by simp [Operation.Executing])
  | none =>
      induction work generalizing state with
      | done result =>
          obtain ⟨next, step, found', waiting⟩ : ∃ next, Step clients state .worker next ∧
              next.operations = before ++ ⟨caller, attached, scope, held, job, .done result,
                some result.1, owned⟩ :: after ∧ next.waiting = state.waiting :=
            ⟨_, .finish found rfl rfl, rfl, rfl⟩
          obtain ⟨operation', state', steps, queue, reached⟩ :=
            exists_released found' (by simp [Operation.Executing])
          exact ⟨operation', state', .head step steps, queue.trans waiting, reached⟩
      | request left op resume inductionHypothesis =>
          obtain ⟨reply, fs, call⟩ := exists_fileStep op state.world.fs
          obtain ⟨next, step, found', waiting⟩ : ∃ next, Step clients state .worker next ∧
              next.operations = before ++ ⟨caller, attached, scope, held, job, resume reply,
                none, owned⟩ :: after ∧ next.waiting = state.waiting :=
            ⟨_, .work found rfl rfl call, rfl, rfl⟩
          obtain ⟨operation', state', steps, queue, reached⟩ := inductionHypothesis reply found'
          exact ⟨operation', state', .head step steps, queue.trans waiting, reached⟩

theorem exists_idle {before after : List (Operation Client)}
    (found : state.operations = before ++ after)
    (done : ∀ operation ∈ before, operation.owned = []) :
    ∃ state', WorkerSteps clients state state' ∧ state'.waiting = state.waiting ∧
      ∀ operation ∈ state'.operations, operation.owned = [] := by
  induction after generalizing state before with
  | nil =>
      refine ⟨state, .refl, rfl, ?_⟩
      rwa [found, List.append_nil]
  | cons operation after inductionHypothesis =>
      obtain ⟨operation', middle, steps, queue, reached, nothing⟩ := exists_finished found
      have found' : middle.operations = (before ++ [operation']) ++ after := by
        rw [reached, List.append_assoc]
        rfl
      have done' : ∀ other ∈ before ++ [operation'], other.owned = [] := by
        intro other member
        rcases List.mem_append.mp member with known | last
        · exact done other known
        · rw [List.mem_singleton.mp last]
          exact nothing
      obtain ⟨state', steps', queue', idle⟩ := inductionHypothesis found' done'
      exact ⟨state', steps.trans steps', queue'.trans queue, idle⟩

theorem WorkerSteps.reaches {state' : State Shared Actor}
    (steps : WorkerSteps clients state state') :
    Reaches clients anyStep state state' := by
  induction steps with
  | refl => exact .refl
  | tail _ step inductionHypothesis => exact .step inductionHypothesis step trivial

variable (clients) in
theorem State.Conserved.resting {permits : Nat} (conserved : state.Conserved permits) :
    ∃ state', WorkerSteps clients state state' ∧ state'.waiting = state.waiting ∧
      state'.permits = permits ∧ ∀ operation ∈ state'.operations, operation.owned = [] := by
  obtain ⟨state', steps, queue, idle⟩ : ∃ state', WorkerSteps clients state state' ∧
      state'.waiting = state.waiting ∧ ∀ operation ∈ state'.operations, operation.owned = [] :=
    exists_idle (List.nil_append state.operations).symm fun _ member =>
      absurd member List.not_mem_nil
  refine ⟨state', steps, queue, ?_, idle⟩
  have counted := (steps.reaches.conserved conserved).permits
  have none : state'.permitHolders = 0 := by
    apply List.countP_eq_zero.mpr
    intro operation member
    simpa using Operation.not_holdsPermit (idle operation member)
  rwa [none] at counted

end Progress

/-- Every executing operation owns a permit and there are at most `permits` of them. -/
def State.Capped (state : State Shared Actor) (permits : Nat) : Prop :=
  (∀ operation ∈ state.operations, operation.Executing → operation.HoldsPermit) ∧
    state.operations.countP (fun operation => operation.Executing) ≤ permits

/-- No future awaits a filesystem call in place. -/
def withoutInPlace (_ : State Shared Actor) (event : Event Client) : Prop :=
  ∀ client, event ≠ .inPlace client

section Cap

variable {state state' : State Shared Actor} {permits : Nat} {event : Event Client}

/-- Only an in-place call brings an operation without a scope. -/
theorem Step.scope_ne_none (step : Step clients state event state')
    (allowed : withoutInPlace state event)
    (performed : ∀ operation ∈ state.operations, operation.scope ≠ none) :
    ∀ operation ∈ state'.operations, operation.scope ≠ none := by
  have edit : ∀ {before after : List (Operation Client)} {operation operation'},
      state.operations = before ++ operation :: after → operation'.scope = operation.scope →
      ∀ other ∈ before ++ operation' :: after, other.scope ≠ none := by
    intro before after operation operation' found same other member
    have known := performed
    rw [found] at known
    simp only [List.mem_append, List.mem_cons] at member known
    rcases member with earlier | rfl | later
    · exact known other (.inl earlier)
    · rw [same]
      exact known operation (.inr (.inl rfl))
    · exact known other (.inr (.inr later))
  have forget : ∀ {before after : List (Operation Client)} {operation},
      state.operations = before ++ operation :: after →
      ∀ other ∈ before ++ after, other.scope ≠ none := by
    intro before after operation found other member
    apply performed
    rw [found]
    simp only [List.mem_append, List.mem_cons] at member ⊢
    exact member.imp_right .inr
  cases step with
  | inPlace => exact absurd rfl (allowed _)
  | start | fork | move | suspend | idle | wake | cancelSuspended | request | cancelWaiting =>
      exact performed
  | @acquire before call after =>
      intro operation member
      rcases List.mem_append.mp member with known | fresh
      · exact performed operation known
      · rw [List.mem_singleton.mp fresh]
        nofun
  | work found | finish found | panic _ found | release found => exact edit found rfl
  | cancelRunning _ _ found => exact edit found rfl
  | deliver found | dispose found => exact forget found

omit [DecidableEq Client] in
theorem State.Conserved.capped (conserved : state.Conserved permits)
    (performed : ∀ operation ∈ state.operations, operation.Executing → operation.scope ≠ none) :
    state.Capped permits := by
  have holds : ∀ operation ∈ state.operations, operation.Executing → operation.HoldsPermit := by
    intro operation member executing
    have owned := (conserved.sound operation member).executing executing
      (performed operation member executing)
    simp [Operation.HoldsPermit, owned]
  refine ⟨holds, ?_⟩
  calc state.operations.countP (fun operation => operation.Executing)
      ≤ state.permitHolders := by
        apply List.countP_mono_left
        intro operation member executing
        exact decide_eq_true (holds operation member (of_decide_eq_true executing))
    _ ≤ state.permits + state.permitHolders := Nat.le_add_left ..
    _ = permits := conserved.permits

end Cap

end SortGovernor.Runtime
