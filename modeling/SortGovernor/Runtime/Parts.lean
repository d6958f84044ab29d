import SortGovernor.Runtime.Machine

/-!
# The parts of a runtime

A condition that every operation has from its start, that every call has when it
queues, or that every client keeps by itself holds of all of them in every run.
-/

namespace SortGovernor.Runtime

open SortGovernor.Engine SortGovernor.Resumption

variable {Client Shared : Type} {Actor : Client → Type} {clients : Clients Shared Actor}

namespace Operation

/-- What one step of its worker or its caller does to an operation. -/
inductive Advances : Operation Client → Operation Client → Prop where
  | works {operation left op resume reply fs fs'} : operation.Executing →
      operation.work = .request left op resume → FileOp.Step op fs reply fs' →
      Advances operation { operation with work := resume reply }
  | finishes {operation result} : operation.Executing → operation.work = .done (result, ()) →
      Advances operation { operation with outcome := some result }
  | dies {operation} (text : String) : operation.Executing → operation.scope ≠ none →
      Advances operation { operation with outcome := some (.error (.worker text)) }
  | releases {operation holding owned} : ¬operation.Executing → operation.owned = holding :: owned →
      Advances operation { operation with owned }
  | detaches {operation} : Advances operation { operation with attached := false }

end Operation

section Steps

variable [DecidableEq Client] {state state' : State Shared Actor} {event : Event Client}
  {good : Operation Client → Prop}

/-- What every operation has from its start and no step takes from it, all have. -/
theorem Step.each_operation (step : Step clients state event state')
    (spawned : ∀ call ∈ state.waiting, good (.spawn call))
    (inPlace : ∀ client job, good (.inPlace client job))
    (advances : ∀ operation operation', operation.Advances operation' → good operation →
      good operation')
    (known : ∀ operation ∈ state.operations, good operation) :
    ∀ operation ∈ state'.operations, good operation := by
  have edit : ∀ {before after : List (Operation Client)} {operation operation'},
      state.operations = before ++ operation :: after → operation.Advances operation' →
      ∀ other ∈ before ++ operation' :: after, good other := by
    intro before after operation operation' found advanced other member
    have known := known
    rw [found] at known
    simp only [List.mem_append, List.mem_cons] at member known
    rcases member with earlier | same | later
    · exact known other (.inl earlier)
    · rw [same]
      exact advances operation operation' advanced (known operation (.inr (.inl rfl)))
    · exact known other (.inr (.inr later))
  have forget : ∀ {before after : List (Operation Client)} {operation},
      state.operations = before ++ operation :: after → ∀ other ∈ before ++ after, good other := by
    intro before after operation found other member
    apply known
    rw [found]
    simp only [List.mem_append, List.mem_cons] at member ⊢
    exact member.imp_right .inr
  have append : ∀ {fresh : Operation Client}, good fresh →
      ∀ other ∈ state.operations ++ [fresh], good other := by
    intro fresh starts other member
    rcases List.mem_append.mp member with earlier | last
    · exact known other earlier
    · rw [List.mem_singleton.mp last]
      exact starts
  cases step with
  | start | fork | move | suspend | idle | wake | cancelSuspended | request | cancelWaiting =>
      exact known
  | inPlace => exact append (inPlace _ _)
  | acquire found =>
      apply append
      apply spawned
      simp [found]
  | work found executing issued replied => exact edit found (.works executing issued replied)
  | finish found executing ended => exact edit found (.finishes executing ended)
  | panic text found executing performed => exact edit found (.dies text executing performed)
  | release found ended owns => exact edit found (.releases ended owns)
  | cancelRunning _ _ found => exact edit found .detaches
  | deliver found | dispose found => exact forget found

theorem Step.each_call (step : Step clients state event state') {good : Call Client → Prop}
    (asked : ∀ client actor scope held job, state.tasks client = some ⟨actor, false⟩ →
      clients.awaits client actor = some (.job (some scope) held job) →
      good ⟨client, scope, held, job⟩)
    (known : ∀ call ∈ state.waiting, good call) : ∀ call ∈ state'.waiting, good call := by
  have forget : ∀ {before after : List (Call Client)} {call}, state.waiting = before ++
    call :: after →
      ∀ other ∈ before ++ after, good other := by
    intro before after call found other member
    apply known
    rw [found]
    simp only [List.mem_append, List.mem_cons] at member ⊢
    exact member.imp_right .inr
  cases step with
  | request task awaits =>
      intro call member
      rcases List.mem_append.mp member with earlier | last
      · exact known call earlier
      · rw [List.mem_singleton.mp last]
        exact asked _ _ _ _ _ task awaits
  | acquire found | cancelWaiting _ _ found => exact forget found
  | release =>
      rw [State.release_waiting]
      exact known
  | _ => exact known

/-- A condition each client keeps in its own steps, whatever the others do. -/
theorem Step.each_task (step : Step clients state event state')
    (good : (client : Client) → Actor client → Prop)
    (starts : ∀ client actor, clients.starts client actor → good client actor)
    (forks : ∀ client child actor childActor world, good client actor →
      clients.forks client child actor state.world childActor world → good child childActor)
    (moves : ∀ client actor actor' world, good client actor →
      clients.moves client actor state.world actor' world → good client actor')
    (delivers : ∀ operation ∈ state.operations, ∀ result actor actor',
      operation.outcome = some result → good operation.caller actor →
      clients.resumes operation.caller actor
        (.job operation.scope operation.held operation.job) result actor' →
      good operation.caller actor')
    (resumes : ∀ client actor actor', good client actor →
      (∃ scope, clients.resumes client actor (.idle scope) () actor') ∨
        (∃ token, clients.resumes client actor (.changed token) () actor') → good client actor')
    (cancels : ∀ client actor actor', good client actor → clients.cancels client actor actor' →
      good client actor')
    (known : ∀ client task, state.tasks client = some task → good client task.actor) :
    ∀ client task, state'.tasks client = some task → good client task.actor := by
  have set : ∀ {client : Client} {actor : Actor client} {suspended : Bool}, good client actor →
      ∀ other task, (state.setTask client actor suspended).tasks other = some task →
        good other task.actor := by
    intro client actor suspended holds other task found
    by_cases same : other = client
    · subst same
      simp only [State.setTask, Function.update_self] at found
      cases found
      exact holds
    · simp only [State.setTask, Function.update_of_ne same] at found
      exact known other task found
  cases step with
  | start absent begins => exact set (starts _ _ begins)
  | fork task absent forked => exact set (forks _ _ _ _ _ (known _ _ task) forked)
  | move task moved => exact set (moves _ _ _ _ (known _ _ task) moved)
  | request task => exact set (known _ _ task)
  | inPlace task => exact set (known _ _ task)
  | suspend task => exact set (known _ _ task)
  | deliver found attached ended released task resumed =>
      exact set (delivers _ (by simp [found]) _ _ _ ended (known _ _ task) resumed)
  | idle task awaits settled resumed =>
      exact set (resumes _ _ _ (known _ _ task) (.inl ⟨_, resumed⟩))
  | wake task awaits woken resumed =>
      exact set (resumes _ _ _ (known _ _ task) (.inr ⟨_, resumed⟩))
  | cancelWaiting task cancelled => exact set (cancels _ _ _ (known _ _ task) cancelled)
  | cancelRunning task cancelled => exact set (cancels _ _ _ (known _ _ task) cancelled)
  | cancelSuspended task awaits other cancelled =>
      exact set (cancels _ _ _ (known _ _ task) cancelled)
  | release =>
      rw [State.release_tasks]
      exact known
  | _ => exact known

end Steps

end SortGovernor.Runtime
