import SortGovernor.Engine.Operation
import Mathlib.Logic.Relation

/-!
# The runtime around concurrent clients

Clients are callers of the engine: sessions, streams, replay handles and the
tasks that clean up after them.  They share one descriptor semaphore and a
filesystem.  A client that awaits an owned operation takes a count of its scope,
waits for a permit and hands permit, count and reservations to a worker.  The
worker makes one filesystem call a step and releases what it owns at its end,
whether or not its caller is still there.
-/

namespace SortGovernor.Runtime

open SortGovernor.Engine SortGovernor.Resumption

/-- What a suspended future waits for.  A job has a scope when it goes through
`perform_reserved`; without one the filesystem call is awaited in place. -/
inductive Await where
  | job (scope : Option ScopeId) (held : List MemoryCharge) (fsJob : FsJob)
  | idle (scope : ScopeId)
  | changed (token : Nat)
  deriving DecidableEq, Repr

@[reducible]
def Await.Reply : Await → Type
  | job _ _ fsJob => Except SorterError fsJob.Value
  | _ => Unit

/-- What a worker owns besides its job. -/
inductive Holding where
  | reservations
  | permit
  | guard
  deriving DecidableEq, Repr

structure World (Shared : Type) where
  fs : Fs
  shared : Shared

variable {Client Shared : Type}

/-- The clients of a runtime: how each one moves between its awaits. -/
structure Clients (Shared : Type) {Client : Type} (Actor : Client → Type) where
  starts : (client : Client) → Actor client → Prop
  forks : (client child : Client) → Actor client → World Shared → Actor child → World Shared → Prop
  moves : (client : Client) → Actor client → World Shared → Actor client → World Shared → Prop
  awaits : (client : Client) → Actor client → Option Await
  resumes : (client : Client) → Actor client → (await : Await) → await.Reply → Actor client → Prop
  woken : (client : Client) → Actor client → World Shared → Prop
  cancels : (client : Client) → Actor client → Actor client → Prop

/-- A caller of `perform_reserved` in the queue of the semaphore. -/
structure Call (Client : Type) where
  caller : Client
  scope : ScopeId
  held : List MemoryCharge
  job : FsJob

/-- A filesystem operation handed to a worker: what is left of its job, its
outcome once it ended, and what the worker still owns. -/
structure Operation (Client : Type) where
  caller : Client
  attached : Bool
  scope : Option ScopeId
  held : List MemoryCharge
  job : FsJob
  work : Program fileCalls Unit (Except SorterError job.Value × Unit)
  outcome : Option (Except SorterError job.Value)
  owned : List Holding

namespace Operation

/-- `tokio::spawn` of the job of a caller that got its permit.  The future of
the job drops its reservations, then the task its permit and its guard. -/
def spawn (call : Call Client) : Operation Client where
  caller := call.caller
  attached := true
  scope := some call.scope
  held := call.held
  job := call.job
  work := call.job.body ()
  outcome := none
  owned := [.reservations, .permit, .guard]

/-- A filesystem call a future awaits itself. -/
def inPlace (caller : Client) (job : FsJob) : Operation Client where
  caller
  attached := true
  scope := none
  held := []
  job
  work := job.body ()
  outcome := none
  owned := []

def Executing (operation : Operation Client) : Prop := operation.outcome = none

instance (operation : Operation Client) : Decidable operation.Executing :=
  decidable_of_iff (operation.outcome.isNone) (by simp [Executing])

end Operation

variable {Actor : Client → Type} [DecidableEq Client]

/-- A client and whether it is suspended at what it awaits. -/
structure Task (Actor : Type) where
  actor : Actor
  suspended : Bool

structure State (Shared : Type) {Client : Type} (Actor : Client → Type) where
  tasks : (client : Client) → Option (Task (Actor client))
  waiting : List (Call Client)
  operations : List (Operation Client)
  permits : Nat
  pending : ScopeId → Int
  world : World Shared

namespace State

variable (state : State Shared Actor)

/-- A runtime without clients and `permits` free permits. -/
def initial (permits : Nat) (world : World Shared) : State Shared Actor where
  tasks := fun _ => none
  waiting := []
  operations := []
  permits
  pending := fun _ => 0
  world

def setTask (client : Client) (actor : Actor client) (suspended : Bool) : State Shared Actor :=
  { state with tasks := Function.update state.tasks client (some { actor, suspended }) }

/-- `pending.fetch_add(1)` -/
def retainScope (scope : ScopeId) : State Shared Actor :=
  { state with pending := Function.update state.pending scope (state.pending scope + 1) }

/-- `pending.fetch_sub(1)` -/
def releaseScope (scope : ScopeId) : State Shared Actor :=
  { state with pending := Function.update state.pending scope (state.pending scope - 1) }

def release (scope : Option ScopeId) : Holding → State Shared Actor
  | .reservations => state
  | .permit => { state with permits := state.permits + 1 }
  | .guard =>
      match scope with
      | some scope => state.releaseScope scope
      | none => state

omit [DecidableEq Client] in
theorem release_tasks (scope : Option ScopeId) (holding : Holding) :
    (state.release scope holding).tasks = state.tasks := by
  cases holding with
  | reservations | permit => rfl
  | guard => cases scope <;> rfl

omit [DecidableEq Client] in
theorem release_waiting (scope : Option ScopeId) (holding : Holding) :
    (state.release scope holding).waiting = state.waiting := by
  cases holding with
  | reservations | permit => rfl
  | guard => cases scope <;> rfl

omit [DecidableEq Client] in
theorem release_world (scope : Option ScopeId) (holding : Holding) :
    (state.release scope holding).world = state.world := by
  cases holding with
  | reservations | permit => rfl
  | guard => cases scope <;> rfl

end State

/-- The step a run takes.  A worker steps to make a call, to end or to let go of
what it owns; that it dies, or is forgotten, is an event of its own. -/
inductive Event (Client : Type) where
  | client (client : Client)
  | request (client : Client)
  | inPlace (client : Client)
  | acquire (client : Client)
  | worker
  | panic
  | dispose
  | cancel (client : Client) (operation : Option (Operation Client))

variable (clients : Clients Shared Actor)

/-- One step of the runtime. -/
inductive Step : State Shared Actor → Event Client → State Shared Actor → Prop where
  | start {state client actor} :
      state.tasks client = none → clients.starts client actor →
      Step state (.client client) (state.setTask client actor false)
  | fork {state client child actor childActor world} :
      state.tasks client = some ⟨actor, false⟩ → state.tasks child = none →
      clients.forks client child actor state.world childActor world →
      Step state (.client client) { state.setTask child childActor false with world }
  | move {state client actor actor' world} :
      state.tasks client = some ⟨actor, false⟩ →
      clients.moves client actor state.world actor' world →
      Step state (.client client) { state.setTask client actor' false with world }
  | request {state client actor scope held job} :
      state.tasks client = some ⟨actor, false⟩ →
      clients.awaits client actor = some (.job (some scope) held job) →
      Step state (.request client)
        { (state.setTask client actor true).retainScope scope with
          waiting := state.waiting ++ [⟨client, scope, held, job⟩] }
  | inPlace {state client actor job} :
      state.tasks client = some ⟨actor, false⟩ →
      clients.awaits client actor = some (.job none [] job) →
      Step state (.inPlace client)
        { state.setTask client actor true with
          operations := state.operations ++ [.inPlace client job] }
  | suspend {state client actor await} :
      state.tasks client = some ⟨actor, false⟩ → clients.awaits client actor = some await →
      (∀ scope held job, await ≠ .job scope held job) →
      Step state (.client client) (state.setTask client actor true)
  | acquire {state before call after} :
      state.waiting = before ++ call :: after → 0 < state.permits →
      Step state (.acquire call.caller)
        { state with
          waiting := before ++ after
          operations := state.operations ++ [.spawn call]
          permits := state.permits - 1 }
  | work {state before operation after left op resume reply fs} :
      state.operations = before ++ operation :: after → operation.Executing →
      operation.work = .request left op resume → op.Step state.world.fs reply fs →
      Step state .worker
        { state with
          operations := before ++ { operation with work := resume reply } :: after
          world := { state.world with fs } }
  | finish {state before operation after result} :
      state.operations = before ++ operation :: after → operation.Executing →
      operation.work = .done (result, ()) →
      Step state .worker
        { state with
          operations := before ++ { operation with outcome := some result } :: after }
  | panic {state before operation after} (text : String) :
      state.operations = before ++ operation :: after → operation.Executing →
      operation.scope ≠ none →
      Step state .panic
        { state with
          operations := before ++ { operation with
            outcome := some (.error (.worker text)) } :: after }
  | release {state before operation after holding owned} :
      state.operations = before ++ operation :: after → ¬operation.Executing →
      operation.owned = holding :: owned →
      Step state .worker
        { state.release operation.scope holding with
          operations := before ++ { operation with owned } :: after }
  | deliver {state before operation after actor result actor'} :
      state.operations = before ++ operation :: after → operation.attached = true →
      operation.outcome = some result → operation.owned = [] →
      state.tasks operation.caller = some ⟨actor, true⟩ →
      clients.resumes operation.caller actor
        (.job operation.scope operation.held operation.job) result actor' →
      Step state (.client operation.caller)
        { state.setTask operation.caller actor' false with operations := before ++ after }
  | dispose {state before operation after} :
      state.operations = before ++ operation :: after → operation.attached = false →
      ¬operation.Executing → operation.owned = [] →
      Step state .dispose { state with operations := before ++ after }
  | idle {state client actor scope actor'} :
      state.tasks client = some ⟨actor, true⟩ → clients.awaits client actor = some (.idle scope) →
      state.pending scope = 0 → clients.resumes client actor (.idle scope) () actor' →
      Step state (.client client) (state.setTask client actor' false)
  | wake {state client actor token actor'} :
      state.tasks client = some ⟨actor, true⟩ → clients.awaits client actor =
        some (.changed token) →
      clients.woken client actor state.world →
      clients.resumes client actor (.changed token) () actor' →
      Step state (.client client) (state.setTask client actor' false)
  | cancelWaiting {state client actor actor' before call after} :
      state.tasks client = some ⟨actor, true⟩ → clients.cancels client actor actor' →
      state.waiting = before ++ call :: after → call.caller = client →
      Step state (.cancel client none)
        { (state.setTask client actor' false).releaseScope call.scope with
          waiting := before ++ after }
  | cancelRunning {state client actor actor' before operation after} :
      state.tasks client = some ⟨actor, true⟩ → clients.cancels client actor actor' →
      state.operations = before ++ operation :: after → operation.caller = client →
      operation.attached = true →
      Step state (.cancel client (some operation))
        { state.setTask client actor' false with
          operations := before ++ { operation with attached := false } :: after }
  | cancelSuspended {state client actor actor' await} :
      state.tasks client = some ⟨actor, true⟩ → clients.awaits client actor = some await →
      (∀ scope held job, await ≠ .job scope held job) → clients.cancels client actor actor' →
      Step state (.cancel client none) (state.setTask client actor' false)

/-- The states reachable from `first` by steps that meet a condition. -/
inductive Reaches (allowed : State Shared Actor → Event Client → Prop)
    (first : State Shared Actor) : State Shared Actor → Prop where
  | refl : Reaches allowed first first
  | step {state event state'} :
      Reaches allowed first state → Step clients state event state' → allowed state event →
      Reaches allowed first state'

theorem Reaches.mono {clients : Clients Shared Actor} {first state : State Shared Actor}
    {allowed wider : State Shared Actor → Event Client → Prop}
    (reaches : Reaches clients allowed first state)
    (weaken : ∀ state event, allowed state event → wider state event) :
    Reaches clients wider first state := by
  induction reaches with
  | refl => exact .refl
  | step _ step permitted inductionHypothesis =>
      exact .step inductionHypothesis step (weaken _ _ permitted)

def anyStep (_ : State Shared Actor) (_ : Event Client) : Prop := True

end SortGovernor.Runtime
