import SortGovernor.Runtime.Actor
import SortGovernor.Engine.Execute

/-!
# Executing the runtime

With clients whose choices are commands, an ample budget and files that never
fail, the machine is executable: a script names the client or the worker that
moves next.  A script that runs to its end is one of the runs of the machine.
-/

namespace SortGovernor.Runtime

open SortGovernor.Engine SortGovernor.Resumption

def pick {Item : Type} : Nat → List Item → Option (List Item × Item × List Item)
  | _, [] => none
  | 0, item :: items => some ([], item, items)
  | index + 1, item :: items =>
      (pick index items).map fun (before, found, after) => (item :: before, found, after)

theorem pick_sound {Item : Type} {index : Nat} {items before after : List Item} {item : Item}
    (picked : pick index items = some (before, item, after)) : items = before ++ item :: after := by
  induction items generalizing index before with
  | nil => simp [pick] at picked
  | cons head items inductionHypothesis =>
      cases index with
      | zero =>
          cases picked
          rfl
      | succ index =>
          simp only [pick, Option.map_eq_some_iff] at picked
          obtain ⟨⟨earlier, found, later⟩, picked, ⟨⟩⟩ := picked
          rw [inductionHypothesis picked]
          rfl

section Machine

variable {Client Shared Command : Type} [DecidableEq Client] {Actor : Client → Type}

/-- Clients that can be executed: each relation as a function. -/
structure Executable (clients : Clients Shared Actor) (Command : Type) where
  start : (client : Client) → Command → Option (Actor client)
  fork : (client child : Client) → Actor client → World Shared →
    Option (Actor child × World Shared)
  move : (client : Client) → Command → Actor client → World Shared →
    Option (Actor client × World Shared)
  resume : (client : Client) → Actor client → (await : Await) → await.Reply →
    Option (Actor client)
  woken : (client : Client) → Actor client → World Shared → Bool
  cancel : (client : Client) → Actor client → Option (Actor client)
  start_sound : ∀ client command actor, start client command = some actor →
    clients.starts client actor
  fork_sound : ∀ client child actor world childActor world',
    fork client child actor world = some (childActor, world') →
    clients.forks client child actor world childActor world'
  move_sound : ∀ client command actor world actor' world',
    move client command actor world = some (actor', world') →
    clients.moves client actor world actor' world'
  resume_sound : ∀ client actor await reply actor',
    resume client actor await reply = some actor' → clients.resumes client actor await reply actor'
  woken_sound : ∀ client actor world, woken client actor world = true →
    clients.woken client actor world
  cancel_sound : ∀ client actor actor', cancel client actor = some actor' →
    clients.cancels client actor actor'

/-- The next move of a script.  Workers and callers in the queue are named by
their place. -/
inductive Choice (Client Command : Type) where
  | start (client : Client) (command : Command)
  | fork (client child : Client)
  | move (client : Client) (command : Command)
  | await (client : Client)
  | acquire (index : Nat)
  | work (index : Nat)
  | release (index : Nat)
  | deliver (index : Nat)
  | dispose (index : Nat)
  | resume (client : Client)
  | cancel (client : Client)

namespace Executable

section Steps

variable {clients : Clients Shared Actor} (executable : Executable clients Command)
  (state : State Shared Actor)

/-- The client goes to sleep at what it awaits. -/
def await (clients : Clients Shared Actor) (state : State Shared Actor) (client : Client) : Option
    (Event Client × State Shared Actor) :=
  match state.tasks client with
  | some ⟨actor, false⟩ =>
      match clients.awaits client actor with
      | some (.job (some scope) held job) =>
          some (.request client, { (state.setTask client actor true).retainScope scope with
            waiting := state.waiting ++ [⟨client, scope, held, job⟩] })
      | some (.job none [] job) =>
          some (.inPlace client, { state.setTask client actor true with
            operations := state.operations ++ [.inPlace client job] })
      | some (.idle _) | some (.changed _) => some (.client client, state.setTask client actor true)
      | _ => none
  | _ => none

/-- A sleeping client that waits for no job goes on. -/
def resumeAt (client : Client) : Option (Event Client × State Shared Actor) :=
  match state.tasks client with
  | some ⟨actor, true⟩ =>
      match clients.awaits client actor with
      | some (.idle scope) =>
          if state.pending scope = 0 then
            (executable.resume client actor (.idle scope) ()).map fun actor =>
              (.client client, state.setTask client actor false)
          else none
      | some (.changed token) =>
          if executable.woken client actor state.world then
            (executable.resume client actor (.changed token) ()).map fun actor =>
              (.client client, state.setTask client actor false)
          else none
      | _ => none
  | _ => none

/-- A worker makes its next filesystem call, or ends. -/
def work (index : Nat) : Option (Event Client × State Shared Actor) :=
  match pick index state.operations with
  | some (before, operation, after) =>
      if operation.Executing then
        match operation.work with
        | .done (result, ()) =>
            some (.worker, { state with
              operations := before ++ { operation with outcome := some result } :: after })
        | .request _ op resume =>
            match filePolicy op state.world.fs with
            | some (reply, fs) =>
                some (.worker, { state with
                  operations := before ++ { operation with work := resume reply } :: after
                  world := { state.world with fs } })
            | none => none
      else none
  | none => none

def deliver (index : Nat) : Option (Event Client × State Shared Actor) :=
  match pick index state.operations with
  | some (before, operation, after) =>
      match operation.outcome, state.tasks operation.caller with
      | some result, some ⟨actor, true⟩ =>
          if operation.attached = true ∧ operation.owned = [] then
            (executable.resume operation.caller actor
                (.job operation.scope operation.held operation.job) result).map fun actor =>
              (.client operation.caller,
                { state.setTask operation.caller actor false with operations := before ++ after })
          else none
      | _, _ => none
  | none => none

def place {Item : Type} (test : Item → Bool) : List Item → Option Nat
  | [] => none
  | item :: items => if test item then some 0 else (place test items).map (· + 1)

/-- A caller drops the future of a client, wherever its operation is. -/
def cancelAt (client : Client) : Option (Event Client × State Shared Actor) :=
  match state.tasks client with
  | some ⟨actor, true⟩ =>
      match executable.cancel client actor with
      | some left =>
          match clients.awaits client actor with
          | some (.job ..) =>
              match (place (fun call => call.caller = client) state.waiting).bind
                  fun index => pick index state.waiting with
              | some (before, call, after) =>
                  if call.caller = client then
                    some (.cancel client none,
                      { (state.setTask client left false).releaseScope call.scope with
                        waiting := before ++ after })
                  else none
              | none =>
                  match (place (fun operation =>
                      operation.attached = true ∧ operation.caller = client) state.operations).bind
                      fun index => pick index state.operations with
                  | some (before, operation, after) =>
                      if operation.caller = client ∧ operation.attached = true then
                        some (.cancel client (some operation),
                          { state.setTask client left false with
                          operations := before ++ { operation with attached := false } :: after })
                      else none
                  | none => none
          | some _ => some (.cancel client none, state.setTask client left false)
          | none => none
      | none => none
  | _ => none

/-- The step a choice names, if the machine can take it. -/
def take : Choice Client Command → Option (Event Client × State Shared Actor)
  | .start client command =>
      match state.tasks client with
      | none => (executable.start client command).map fun actor =>
          (.client client, state.setTask client actor false)
      | some _ => none
  | .fork client child =>
      match state.tasks client, state.tasks child with
      | some ⟨actor, false⟩, none =>
          (executable.fork client child actor state.world).map fun (childActor, world) =>
            (.client client, { state.setTask child childActor false with world })
      | _, _ => none
  | .move client command =>
      match state.tasks client with
      | some ⟨actor, false⟩ =>
          (executable.move client command actor state.world).map fun (actor, world) =>
            (.client client, { state.setTask client actor false with world })
      | _ => none
  | .await client => await clients state client
  | .acquire index =>
      match pick index state.waiting with
      | some (before, call, after) =>
          if 0 < state.permits then
            some (.acquire call.caller, { state with
              waiting := before ++ after
              operations := state.operations ++ [.spawn call]
              permits := state.permits - 1 })
          else none
      | none => none
  | .work index => work state index
  | .release index =>
      match pick index state.operations with
      | some (before, operation, after) =>
          if operation.Executing then none
          else
            match operation.owned with
            | holding :: owned =>
                some (.worker, { state.release operation.scope holding with
                  operations := before ++ { operation with owned } :: after })
            | [] => none
      | none => none
  | .deliver index => executable.deliver state index
  | .dispose index =>
      match pick index state.operations with
      | some (before, operation, after) =>
          if operation.attached = false ∧ ¬operation.Executing ∧ operation.owned = [] then
            some (.dispose, { state with operations := before ++ after })
          else none
      | none => none
  | .resume client => executable.resumeAt state client
  | .cancel client => executable.cancelAt state client

end Steps

section Soundness

variable {clients : Clients Shared Actor} {executable : Executable clients Command}
  {state state' : State Shared Actor} {event : Event Client}

theorem await_sound {client : Client} (taken : await clients state client = some (event, state')) :
    Step clients state event state' := by
  unfold await at taken
  split at taken
  · rename_i actor task
    split at taken
    · rename_i scope held job awaits
      cases taken
      exact .request task awaits
    · rename_i job awaits
      cases taken
      exact .inPlace task awaits
    · rename_i scope awaits
      cases taken
      exact .suspend task awaits nofun
    · rename_i token awaits
      cases taken
      exact .suspend task awaits nofun
    · cases taken
  · cases taken

theorem resumeAt_sound {client : Client}
    (taken : executable.resumeAt state client = some (event, state')) :
    Step clients state event state' := by
  unfold resumeAt at taken
  split at taken
  · rename_i actor task
    split at taken
    · rename_i scope awaits
      simp only [Option.ite_none_right_eq_some, Option.map_eq_some_iff, Prod.mk.injEq] at taken
      obtain ⟨settled, actor', resumed, rfl, rfl⟩ := taken
      exact .idle task awaits settled (executable.resume_sound _ _ _ _ _ resumed)
    · rename_i token awaits
      simp only [Option.ite_none_right_eq_some, Option.map_eq_some_iff, Prod.mk.injEq] at taken
      obtain ⟨woken, actor', resumed, rfl, rfl⟩ := taken
      exact .wake task awaits (executable.woken_sound _ _ _ woken)
        (executable.resume_sound _ _ _ _ _ resumed)
    · cases taken
  · cases taken

theorem work_sound {index : Nat} (taken : work state index = some (event, state')) :
    Step clients state event state' := by
  unfold work at taken
  split at taken
  · rename_i before operation after picked
    have split := pick_sound picked
    rw [Option.ite_none_right_eq_some] at taken
    obtain ⟨executing, taken⟩ := taken
    split at taken
    · rename_i result ended
      cases taken
      exact .finish split executing ended
    · rename_i left op resume issued
      split at taken
      · rename_i reply fs answered
        cases taken
        exact .work split executing issued (filePolicy_allowed op _ _ _ answered)
      · cases taken
  · cases taken

theorem deliver_sound {index : Nat}
    (taken : executable.deliver state index = some (event, state')) :
    Step clients state event state' := by
  unfold deliver at taken
  split at taken
  · rename_i before operation after picked
    have split := pick_sound picked
    split at taken
    · rename_i result actor ended task
      simp only [Option.ite_none_right_eq_some, Option.map_eq_some_iff, Prod.mk.injEq] at taken
      obtain ⟨⟨attached, owned⟩, actor', resumed, rfl, rfl⟩ := taken
      exact .deliver split attached ended owned task (executable.resume_sound _ _ _ _ _ resumed)
    · cases taken
  · cases taken

theorem cancelAt_sound {client : Client}
    (taken : executable.cancelAt state client = some (event, state')) :
    Step clients state event state' := by
  unfold cancelAt at taken
  split at taken
  · rename_i actor task
    split at taken
    · rename_i left cancelled
      have cancels := executable.cancel_sound _ _ _ cancelled
      split at taken
      · split at taken
        · rename_i before call after picked
          obtain ⟨index, -, picked⟩ := Option.bind_eq_some_iff.mp picked
          rw [Option.ite_none_right_eq_some] at taken
          obtain ⟨caller, taken⟩ := taken
          cases taken
          exact .cancelWaiting task cancels (pick_sound picked) caller
        · split at taken
          · rename_i before operation after picked
            obtain ⟨index, -, picked⟩ := Option.bind_eq_some_iff.mp picked
            rw [Option.ite_none_right_eq_some] at taken
            obtain ⟨⟨caller, attached⟩, taken⟩ := taken
            cases taken
            exact .cancelRunning task cancels (pick_sound picked) caller attached
          · cases taken
      · rename_i awaited other awaits
        cases taken
        exact .cancelSuspended task awaits (fun _ _ _ job => other _ _ _ job) cancels
      · cases taken
    · cases taken
  · cases taken

theorem take_sound {choice : Choice Client Command}
    (taken : executable.take state choice = some (event, state')) :
    Step clients state event state' := by
  cases choice with
  | start client command =>
      simp only [take] at taken
      split at taken
      · rename_i absent
        obtain ⟨actor, started, ⟨⟩⟩ := Option.map_eq_some_iff.mp taken
        exact .start absent (executable.start_sound _ _ _ started)
      · cases taken
  | fork client child =>
      simp only [take] at taken
      split at taken
      · rename_i actor task absent
        obtain ⟨⟨childActor, world⟩, forked, ⟨⟩⟩ := Option.map_eq_some_iff.mp taken
        exact .fork task absent (executable.fork_sound _ _ _ _ _ _ forked)
      · cases taken
  | move client command =>
      simp only [take] at taken
      split at taken
      · rename_i actor task
        obtain ⟨⟨actor', world⟩, moved, ⟨⟩⟩ := Option.map_eq_some_iff.mp taken
        exact .move task (executable.move_sound _ _ _ _ _ _ moved)
      · cases taken
  | await client => exact await_sound taken
  | acquire index =>
      simp only [take] at taken
      split at taken
      · rename_i before call after picked
        rw [Option.ite_none_right_eq_some] at taken
        obtain ⟨free, ⟨⟩⟩ := taken
        exact .acquire (pick_sound picked) free
      · cases taken
  | work index => exact work_sound taken
  | release index =>
      simp only [take] at taken
      split at taken
      · rename_i before operation after picked
        rw [Option.ite_none_left_eq_some] at taken
        obtain ⟨ended, taken⟩ := taken
        split at taken
        · rename_i holding owned owns
          cases taken
          exact .release (pick_sound picked) ended owns
        · cases taken
      · cases taken
  | deliver index => exact deliver_sound taken
  | dispose index =>
      simp only [take] at taken
      split at taken
      · rename_i before operation after picked
        rw [Option.ite_none_right_eq_some] at taken
        obtain ⟨⟨attached, ended, owned⟩, ⟨⟩⟩ := taken
        exact .dispose (pick_sound picked) attached ended owned
      · cases taken
  | resume client => exact resumeAt_sound taken
  | cancel client => exact cancelAt_sound taken

end Soundness

section Scripts

variable {clients : Clients Shared Actor} (executable : Executable clients Command)
  (check : Event Client → Bool)

/-- What moves next when only one client and its worker do. -/
def next (clients : Clients Shared Actor) (client : Client) (command : Command)
    (state : State Shared Actor) : Option (Choice Client Command) :=
  match state.tasks client with
  | none => none
  | some ⟨actor, false⟩ =>
      if (clients.awaits client actor).isSome then some (.await client)
      else some (.move client command)
  | some ⟨actor, true⟩ =>
      match clients.awaits client actor with
      | some (.job ..) =>
          match place (fun call => call.caller = client) state.waiting with
          | some index => some (.acquire index)
          | none =>
              (place (fun operation => operation.attached = true ∧ operation.caller = client)
                state.operations).bind fun index =>
                  (pick index state.operations).map fun (_, operation, _) =>
                    if operation.Executing then .work index
                    else if operation.owned = [] then .deliver index
                    else .release index
      | _ => some (.resume client)

/-- A line of a script: one choice, or one client that moves until it stops. -/
inductive Line (Command : Type) (Actor : Client → Type) where
  | choose (choice : Choice Client Command)
  | drive (client : Client) (command : Command) (stop : Task (Actor client) → Bool) (fuel : Nat)

def choose (choice : Choice Client Command) (state : State Shared Actor) :
    Option (State Shared Actor) :=
  match executable.take state choice with
  | some (event, state') => if check event then some state' else none
  | none => none

def drive (client : Client) (command : Command) (stop : Task (Actor client) → Bool) :
    Nat → State Shared Actor → Option (State Shared Actor)
  | 0, _ => none
  | fuel + 1, state =>
      if (state.tasks client).any stop then some state
      else
        match next clients client command state with
        | none => none
        | some choice =>
            match executable.choose check choice state with
            | some state' => drive client command stop fuel state'
            | none => none

def perform : List (Line Command Actor) → State Shared Actor → Option (State Shared Actor)
  | [], state => some state
  | .choose choice :: lines, state =>
      match executable.choose check choice state with
      | some state' => perform lines state'
      | none => none
  | .drive client command stop fuel :: lines, state =>
      match executable.drive check client command stop fuel state with
      | some state' => perform lines state'
      | none => none

variable {executable check} {allowed : State Shared Actor → Event Client → Prop}
  {first state state' : State Shared Actor}

theorem choose_sound {choice : Choice Client Command}
    (passes : ∀ state event, check event = true → allowed state event)
    (reached : Reaches clients allowed first state)
    (chosen : executable.choose check choice state = some state') :
    Reaches clients allowed first state' := by
  unfold choose at chosen
  split at chosen
  · rename_i event next taken
    rw [Option.ite_none_right_eq_some] at chosen
    obtain ⟨passed, ⟨⟩⟩ := chosen
    exact .step reached (take_sound taken) (passes _ _ passed)
  · cases chosen

theorem drive_sound {client : Client} {command : Command} {stop : Task (Actor client) → Bool}
    {fuel : Nat} (passes : ∀ state event, check event = true → allowed state event)
    (reached : Reaches clients allowed first state)
    (driven : executable.drive check client command stop fuel state = some state') :
    Reaches clients allowed first state' := by
  induction fuel generalizing state with
  | zero => cases driven
  | succ fuel inductionHypothesis =>
      unfold drive at driven
      split at driven
      · cases driven
        exact reached
      · split at driven
        · cases driven
        · split at driven
          · rename_i chosen
            exact inductionHypothesis (choose_sound passes reached chosen) driven
          · cases driven

theorem perform_sound {lines : List (Line Command Actor)}
    (passes : ∀ state event, check event = true → allowed state event)
    (reached : Reaches clients allowed first state)
    (performed : executable.perform check lines state = some state') :
    Reaches clients allowed first state' := by
  induction lines generalizing state with
  | nil =>
      cases performed
      exact reached
  | cons line lines inductionHypothesis =>
      cases line with
      | choose choice =>
          simp only [perform] at performed
          split at performed
          · rename_i chosen
            exact inductionHypothesis (choose_sound passes reached chosen) performed
          · cases performed
      | drive client command stop fuel =>
          simp only [perform] at performed
          split at performed
          · rename_i driven
            exact inductionHypothesis (drive_sound passes reached driven) performed
          · cases performed

end Scripts

end Executable

end Machine

namespace Actor

variable {Key Value Owner Shared Command : Type}

/-- A serializer and a budget that answer at once. -/
def answer (pure : PureCodec Key Value)
    (replay : (request : ReplayRequest) → Shared → Option (request.Reply × Shared)) :
    (op : Request Key Value) → World Shared → Option (op.Reply × World Shared)
  | .limit, world => some (u64Max, world)
  | .reserve bytes, world => some (grant bytes, world)
  | .serialize row, world => some (pure.encode row, world)
  | .deserialize bytes, world => some (pure.decode bytes, world)
  | .replay request, world =>
      (replay request world.shared).map fun (reply, shared) => (reply, { world with shared })
  | .perform .., _ | .direct _, _ | .idle _, _ => none

theorem answer_sound {pure : PureCodec Key Value}
    {replay : (request : ReplayRequest) → Shared → Option (request.Reply × Shared)}
    {replays : (request : ReplayRequest) → Shared → request.Reply → Shared → Prop}
    (allowed : ∀ request shared reply shared', replay request shared = some (reply, shared') →
      replays request shared reply shared')
    {op : Request Key Value} {world world' : World Shared} {reply : op.Reply}
    (answered : answer pure replay op world = some (reply, world')) :
    Answers pure.codec replays op world reply world' := by
  cases op with
  | limit =>
      cases answered
      rfl
  | reserve bytes =>
      cases answered
      exact ⟨rfl, u64Max, 0, rfl⟩
  | serialize row | deserialize bytes =>
      cases answered
      exact ⟨rfl, rfl⟩
  | perform | direct | idle => cases answered
  | replay request =>
      simp only [answer, Option.map_eq_some_iff] at answered
      obtain ⟨⟨reply, shared⟩, replied, ⟨⟩⟩ := answered
      exact ⟨rfl, allowed _ _ _ _ replied⟩

def advance (calls : Owner → Command → Option (Bool × Turn Key Value Owner))
    (answers : (op : Request Key Value) → World Shared → Option (op.Reply × World Shared))
    (command : Command) :
    Actor Key Value Owner → World Shared → Option (Actor Key Value Owner × World Shared)
  | .owner left, world => (calls left command).map fun (cancellable, turn) =>
      (.running cancellable turn, world)
  | .running _ (.done left), world => some (.owner left, world)
  | .running cancellable (.request _ op resume), world =>
      if op.awaits = false then
        (answers op world).map fun (reply, world) => (.running cancellable (resume reply), world)
      else none

theorem advance_sound {calls : Owner → Command → Option (Bool × Turn Key Value Owner)}
    {answers : (op : Request Key Value) → World Shared → Option (op.Reply × World Shared)}
    {called : Owner → Bool → Turn Key Value Owner → Prop}
    {answered : (op : Request Key Value) → World Shared → op.Reply → World Shared → Prop}
    (callsSound : ∀ owner command cancellable turn, calls owner command = some (cancellable, turn) →
      called owner cancellable turn)
    (answersSound : ∀ op world reply world', answers op world = some (reply, world') →
      answered op world reply world')
    {command : Command} {actor actor' : Actor Key Value Owner} {world world' : World Shared}
    (advanced : advance calls answers command actor world = some (actor', world')) :
    Moves called answered actor world actor' world' := by
  cases actor with
  | owner left =>
      simp only [advance, Option.map_eq_some_iff] at advanced
      obtain ⟨⟨cancellable, turn⟩, found, ⟨⟩⟩ := advanced
      exact .call (callsSound _ _ _ _ found)
  | running cancellable turn =>
      cases turn with
      | done left =>
          cases advanced
          exact .return
      | request left op resume =>
          simp only [advance, Option.ite_none_right_eq_some, Option.map_eq_some_iff] at advanced
          obtain ⟨immediate, ⟨reply, world⟩, found, ⟨⟩⟩ := advanced
          exact .answer immediate (answersSound _ _ _ _ found)

def resume (awaited : Await) (reply : awaited.Reply) :
    Actor Key Value Owner → Option (Actor Key Value Owner)
  | .running cancellable (.request _ (.perform io held job) resume) =>
      if same : awaited = .job (some io) held job then
        some (.running cancellable (resume (cast (congrArg Await.Reply same) reply)))
      else none
  | .running cancellable (.request _ (.direct job) resume) =>
      if same : awaited = .job none [] job then
        some (.running cancellable (resume (cast (congrArg Await.Reply same) reply)))
      else none
  | .running cancellable (.request _ (.idle io) resume) =>
      if awaited = .idle io then some (.running cancellable (resume ())) else none
  | .running cancellable (.request _ (.replay (.changed token)) resume) =>
      if awaited = .changed token then some (.running cancellable (resume ())) else none
  | _ => none

theorem resume_sound {awaited : Await} {reply : awaited.Reply}
    {actor actor' : Actor Key Value Owner} (resumed : actor.resume awaited reply = some actor') :
    actor.Resumes awaited reply actor' := by
  unfold resume at resumed
  split at resumed
  · split at resumed
    · rename_i same
      subst same
      cases resumed
      exact .perform reply
    · cases resumed
  · split at resumed
    · rename_i same
      subst same
      cases resumed
      exact .direct reply
    · cases resumed
  · obtain ⟨rfl, ⟨⟩⟩ := Option.ite_none_right_eq_some.mp resumed
    exact .idle
  · obtain ⟨rfl, ⟨⟩⟩ := Option.ite_none_right_eq_some.mp resumed
    exact .changed
  · cases resumed

def cancel : Actor Key Value Owner → Option (Actor Key Value Owner)
  | .running true (.request left op _) => if op.awaits = true then some (.owner left) else none
  | _ => none

theorem cancel_sound {actor actor' : Actor Key Value Owner}
    (cancelled : actor.cancel = some actor') :
    actor.Cancels actor' := by
  unfold cancel at cancelled
  split at cancelled
  · obtain ⟨awaits, ⟨⟩⟩ := Option.ite_none_right_eq_some.mp cancelled
    exact .drop awaits
  · cases cancelled

end Actor

end SortGovernor.Runtime
