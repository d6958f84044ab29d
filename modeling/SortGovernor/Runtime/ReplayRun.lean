import SortGovernor.Runtime.Parties

/-!
# Every run of a replay keeps its books

The runtime and the books agree in the first state, and every step of a party or
a worker turns at most one page.  What has once been published, removed or given
up stays so.
-/

namespace SortGovernor.Runtime

open SortGovernor.Engine SortGovernor.Resumption

variable {Value : Type}

section Runs

variable [Layout Unit Value] {codec : Codec Unit Value} {inner : ReplayInner} {first : Fs}
  {books : Books Value} {state state' : ReplayState Value} {party : Party} {permits : Nat}
  {event : Event Party} {actor actor' : ReplayActor Value}

omit [Layout Unit Value] in
theorem Attended.flight {Client Shared : Type} {Actor : Client → Type}
    {clients : Clients Shared Actor} {state : State Shared Actor}
    (attended : Attended clients state) {operation : Operation Client}
    (member : operation ∈ state.flights) (attached : operation.attached = true) :
    SuspendedAt clients state operation.caller
      (.job operation.scope operation.held operation.job) := by
  obtain waiting | operating := List.mem_append.mp member
  · obtain ⟨call, queued, rfl⟩ := List.mem_map.mp waiting
    exact attended.suspended call.entry
      (List.mem_append_left _ (List.mem_map_of_mem queued))
  · apply attended.suspended operation.entry
    apply List.mem_append_right
    exact List.mem_map_of_mem (List.mem_filter.mpr ⟨operating, attached⟩)

/-- With an idle scope nothing is left of the operations that the party with the
directory could still wait for. -/
theorem Coupled.spent (coupled : Coupled codec inner first books state)
    (attended : Attended (replays codec inner) state) (conserved : state.Conserved permits)
    (idle : state.pending inner.scope = 0)
    (alone : books.custody party = .sole ∨ books.custody party = .taken)
    (waits : SuspendedAt (replays codec inner) state party (.idle inner.scope)) :
    ∀ flight ∈ state.flights, flight.Spent := by
  have counted := conserved.pending inner.scope
  rw [idle] at counted
  have noneWaits : state.waitingIn inner.scope = 0 := by omega
  have noGuards : state.guardsIn inner.scope = 0 := by omega
  intro flight member
  have flies := coupled.agree.flights.each flight member
  obtain waiting | operating := List.mem_append.mp member
  · obtain ⟨call, queued, rfl⟩ := List.mem_map.mp waiting
    have scope : call.scope = inner.scope := Option.some.inj flies.scope
    exact absurd (decide_eq_true scope) (List.countP_eq_zero.mp noneWaits call queued)
  · have owned : flight.owned = [] := by
      apply nil_of_suffix flies.owned
      intro guards
      exact List.countP_eq_zero.mp noGuards flight operating (decide_eq_true ⟨flies.scope, guards⟩)
    have ended : ¬flight.Executing := by
      intro executing
      have owns := (conserved.sound flight operating).executing executing (by simp [flies.scope])
      rw [owned] at owns
      cases owns
    refine ⟨?_, ended, owned⟩
    by_contra detached
    have attached : flight.attached = true := by simpa using detached
    have suspended := attended.flight member attached
    rw [flies.scope] at suspended
    by_cases same : flight.caller = party
    · rw [same] at suspended
      cases suspended.unique waits
    · obtain ⟨actor, task, awaits⟩ := suspended
      have meets := coupled.meets flight.caller
      rw [task] at meets
      obtain ⟨_, _, op, _, -, issued, waiting⟩ := meets.asks awaits
      obtain rfl := await_eq_perform issued
      exact waiting.2.held (coupled.agree.balanced.alone party alone _ same)

omit [Layout Unit Value] in
theorem Coupled.worker (coupled : Coupled codec inner first books state)
    {before after : List (Operation Party)} {operation changed : Operation Party}
    (split : state.operations = before ++ operation :: after)
    (tasks : state'.tasks = state.tasks) (shared : state'.world.shared = state.world.shared)
    (waiting : state'.waiting = state.waiting)
    (changes : state'.operations = before ++ changed :: after)
    (goes : Flights codec inner first books.scratch books.published.rows state.world.fs
        ((state.waiting.map Operation.spawn ++ before) ++ operation :: after) →
      Flights codec inner first books.scratch books.published.rows state'.world.fs
        ((state.waiting.map Operation.spawn ++ before) ++ changed :: after)) :
    Proceeds codec inner first books state' := by
  apply coupled.workers tasks shared
  have flights := coupled.agree.flights
  rw [State.flights, split, ← List.append_assoc] at flights
  rw [State.flights, waiting, changes, ← List.append_assoc]
  exact goes flights

omit [Layout Unit Value] in
theorem Actor.Resumes.job {now next : Actor Unit Value (ReplayOwner Value)}
    {scope : Option ScopeId} {held : List MemoryCharge} {fsJob : FsJob}
    {reply : Except SorterError fsJob.Value}
    (resumes : Actor.Resumes now (.job scope held fsJob) reply next) (inScope : scope ≠ none) :
    ∃ cancellable left io resume,
      now = .running cancellable
        (.request left (.perform io held fsJob : Request Unit Value) resume) ∧
        next = .running cancellable (resume reply) := by
  cases resumes with
  | perform reply => exact ⟨_, _, _, _, rfl, rfl⟩
  | direct reply => exact absurd rfl inScope

theorem Coupled.deliver (coupled : Coupled codec inner first books state)
    {before after : List (Operation Party)} {operation : Operation Party}
    {result : Except SorterError operation.job.Value}
    (split : state.operations = before ++ operation :: after)
    (attached : operation.attached = true) (outcome : operation.outcome = some result)
    (task : state.tasks operation.caller = some ⟨actor, true⟩)
    (resumes : (replays codec inner).resumes operation.caller actor
      (.job operation.scope operation.held operation.job) result actor') :
    Proceeds codec inner first books
      { state.setTask operation.caller actor' false with operations := before ++ after } := by
  obtain ⟨resumes, begunSame, seenSame⟩ := resumes
  have agree := coupled.agree
  rw [State.flights, split, ← List.append_assoc] at agree
  have meets := coupled.meets operation.caller
  rw [task] at meets
  obtain ⟨cancellable, left, io, resume, now, next⟩ :=
    resumes.job (by simp [agree.flights.self.scope])
  obtain ⟨_, begun, seen⟩ := actor
  obtain ⟨_, begun', seen'⟩ := actor'
  cases now
  cases next
  cases begunSame
  cases seenSame
  refine (meets.delivers agree attached outcome).proceeds coupled rfl ?_
    (State.setTask_same ..) fun _ => State.setTask_ne _ _
  rw [List.append_assoc]
  exact .refl _

theorem Coupled.step (coupled : Coupled codec inner first books state)
    (attended : Attended (replays codec inner) state) (conserved : state.Conserved permits)
    (step : Step (replays codec inner) state event state') :
    Proceeds codec inner first books state' := by
  cases step with
  | @start client actor absent starts =>
      obtain ⟨rfl, rfl⟩ := starts
      have meets := coupled.meets .keeper
      rw [absent] at meets
      exact (meets.starts coupled.agree).proceeds coupled rfl (.refl _) (State.setTask_same ..)
        fun _ => State.setTask_ne _ _
  | @fork client child actor childActor world task absent forks =>
      obtain ⟨⟨number, rfl⟩, forks⟩ := forks
      have meets := coupled.meets client
      rw [task] at meets
      obtain ⟨cursor, lends, rfl, rfl⟩ := meets.lends coupled.agree forks
      exact coupled.fork lends absent rfl rfl (State.setTask_same ..) fun _ => State.setTask_ne _ _
  | @move client actor actor' world task moves =>
      have meets := coupled.meets client
      rw [task] at meets
      have leads : Leads codec inner first books client ⟨actor', false⟩ world state.flights := by
        cases (show ReplayActor.Moves codec actor state.world actor' world from moves) with
        | call called => exact meets.calls coupled.agree called
        | answer atOnce answers => exact meets.answers coupled.agree atOnce answers
        | «return» => exact meets.returns coupled.agree
      exact leads.proceeds coupled rfl (.refl _) (State.setTask_same ..)
        fun _ => State.setTask_ne _ _
  | @request client actor scope held job task awaits =>
      have meets := coupled.meets client
      rw [task] at meets
      obtain ⟨_ | ⟨cancellable, _ | ⟨left, op, resume⟩⟩, begun, seen⟩ := actor
      · cases awaits
      · cases awaits
      · obtain rfl := await_eq_perform awaits
        refine (meets.performs coupled.agree).proceeds coupled rfl ?_ (State.setTask_same ..)
          fun _ => State.setTask_ne _ _
        simp only [State.flights, State.retainScope, State.setTask, List.map_append,
          List.append_assoc]
        exact List.perm_middle
  | @inPlace client actor job task awaits =>
      have meets := coupled.meets client
      rw [task] at meets
      obtain ⟨_ | ⟨cancellable, _ | ⟨left, op, resume⟩⟩, begun, seen⟩ := actor
      · cases awaits
      · cases awaits
      · obtain rfl := await_eq_direct awaits
        cases meets with
        | running ok => exact ok.1.1.elim
  | @suspend client actor await task awaits other =>
      have meets := coupled.meets client
      rw [task] at meets
      obtain ⟨_ | ⟨cancellable, _ | ⟨left, op, resume⟩⟩, begun, seen⟩ := actor
      · cases awaits
      · cases awaits
      · exact (meets.suspends coupled.agree awaits other).proceeds coupled rfl (.refl _)
          (State.setTask_same ..) fun _ => State.setTask_ne _ _
  | @acquire before call after split free =>
      apply coupled.workers
      · rfl
      · rfl
      apply coupled.agree.flights.perm
      simp only [State.flights, split, List.map_append, List.map_cons, List.append_assoc]
      apply List.Perm.append_left
      simp only [List.cons_append, ← List.append_assoc]
      exact List.perm_append_singleton _ _
  | work split executing issued replies =>
      exact coupled.worker split rfl rfl rfl rfl fun flights =>
        flights.work executing issued replies
  | finish split executing ended =>
      exact coupled.worker split rfl rfl rfl rfl fun flights =>
        flights.finish executing (.inr ended)
  | panic text split executing bounded =>
      exact coupled.worker split rfl rfl rfl rfl
        fun flights => flights.finish executing (.inl ⟨_, rfl⟩)
  | @release before operation after holding owned split ended owns =>
      have world := State.release_world state operation.scope holding
      refine coupled.worker split (State.release_tasks ..) (congrArg World.shared world)
        (State.release_waiting ..) rfl fun flights => ?_
      rw [show (state.release operation.scope holding).world = state.world from world]
      exact flights.release owns
  | @deliver before operation after actor result actor' split attached ended owned task resumes =>
      exact coupled.deliver split attached ended task resumes
  | @dispose before operation after split attached ended owned =>
      apply coupled.workers
      · rfl
      · rfl
      apply coupled.agree.flights.sublist
      rw [State.flights, State.flights, split]
      exact ((List.sublist_cons_self _ _).append_left _).append_left _
  | @idle client actor scope actor' task awaits settled resumes =>
      obtain ⟨resumes, begunSame, seenSame⟩ := resumes
      have meets := coupled.meets client
      rw [task] at meets
      obtain ⟨_, _, op, _, -, issued, waits⟩ := meets.asks awaits
      obtain rfl := await_eq_idle issued
      obtain ⟨rfl, alone, -⟩ := waits
      have spent := coupled.spent attended conserved settled alone ⟨actor, task, awaits⟩
      obtain ⟨_, begun, seen⟩ := actor
      obtain ⟨_, begun', seen'⟩ := actor'
      cases begunSame
      cases seenSame
      cases resumes with
      | idle =>
          exact (meets.idles coupled.agree spent).proceeds coupled rfl (.refl _)
            (State.setTask_same ..) fun _ => State.setTask_ne _ _
  | @wake client actor token actor' task awaits woken resumes =>
      obtain ⟨resumes, begunSame, seenSame⟩ := resumes
      have meets := coupled.meets client
      rw [task] at meets
      obtain ⟨token', awaits', woken⟩ := woken
      cases Option.some.inj (awaits.symm.trans awaits')
      obtain ⟨_, begun, seen⟩ := actor
      obtain ⟨_, begun', seen'⟩ := actor'
      cases begunSame
      cases seenSame
      cases resumes with
      | changed =>
          exact (meets.wakes coupled.agree woken).proceeds coupled rfl (.refl _)
            (State.setTask_same ..) fun _ => State.setTask_ne _ _
  | @cancelWaiting client actor actor' before call after task cancels split caller =>
      obtain ⟨cancels, begun, seen⟩ := cancels
      have meets := coupled.meets client
      rw [task] at meets
      have agree := coupled.agree
      have fewer : ((before ++ after).map Operation.spawn ++ state.operations).Sublist
          state.flights := by
        rw [State.flights, split]
        exact (((List.sublist_cons_self _ _).append_left _).map _).append_right _
      have kept : Agree codec inner first books state.world
          ((before ++ after).map Operation.spawn ++ state.operations) :=
        ⟨agree.shares, agree.balanced, agree.flights.sublist fewer⟩
      exact (meets.cancels kept cancels begun seen).proceeds coupled rfl (.refl _)
        (State.setTask_same ..) fun _ => State.setTask_ne _ _
  | @cancelRunning client actor actor' before operation after task cancels split caller attached =>
      obtain ⟨cancels, begun, seen⟩ := cancels
      have meets := coupled.meets client
      rw [task] at meets
      have agree := coupled.agree
      rw [State.flights, split, ← List.append_assoc] at agree
      have kept : Agree codec inner first books state.world (state.waiting.map Operation.spawn ++
          before ++ { operation with attached := false } :: after) :=
        ⟨agree.shares, agree.balanced, agree.flights.detach attached⟩
      refine (meets.cancels kept cancels begun seen).proceeds coupled rfl ?_ (State.setTask_same ..)
        fun _ => State.setTask_ne _ _
      rw [List.append_assoc]
      exact .refl _
  | @cancelSuspended client actor actor' await task awaits other cancels =>
      obtain ⟨cancels, begun, seen⟩ := cancels
      have meets := coupled.meets client
      rw [task] at meets
      exact (meets.cancels coupled.agree cancels begun seen).proceeds coupled rfl (.refl _)
        (State.setTask_same ..) fun _ => State.setTask_ne _ _

theorem Coupled.reaches (coupled : Coupled codec inner first books state)
    (attended : Attended (replays codec inner) state) (conserved : state.Conserved permits)
    {allowed : ReplayState Value → Event Party → Prop}
    (reaches : Reaches (replays codec inner) allowed state state') :
    Proceeds codec inner first books state' := by
  induction reaches with
  | refl => exact ⟨books, coupled, .refl books⟩
  | step reaches step allowed inductionHypothesis =>
      obtain ⟨books', coupled', later⟩ := inductionHypothesis
      obtain ⟨books'', coupled'', later'⟩ :=
        coupled'.step (reaches.attended attended) (reaches.conserved conserved) step
      exact ⟨books'', coupled'', later.trans later'⟩

end Runs

section Calls

variable [Layout Unit Value] {codec : Codec Unit Value} {inner : ReplayInner}
  {state state' : ReplayState Value} {party : Party} {event : Event Party}

def State.begun (state : ReplayState Value) (party : Party) : Option (Begun Value) :=
  (state.tasks party).bind fun task => task.actor.begun

/-- What a step does to the calls of a party: nothing, or its first one is still to
come, or the call goes on, or the next one begins. -/
inductive State.Follows (state state' : ReplayState Value) (party : Party) : Prop where
  | rests : state'.tasks party = state.tasks party → Follows state state' party
  | born : state'.begun party = none → Follows state state' party
  | goesOn {cancellable turn begun seen suspended} :
      state.tasks party = some ⟨⟨.running cancellable turn, begun, seen⟩, suspended⟩ →
      state'.begun party = begun → Follows state state' party
  | calls {owner begun seen label} :
      state.tasks party = some ⟨⟨.owner owner, begun, seen⟩, false⟩ →
      state'.begun party = some ⟨owner, label, state.world.shared⟩ → Follows state state' party

omit [Layout Unit Value] in
theorem State.begun_same {actor : ReplayActor Value} {suspended : Bool}
    (found : state'.tasks party = some ⟨actor, suspended⟩) : state'.begun party = actor.begun := by
  rw [State.begun, found]
  rfl

omit [Layout Unit Value] in
/-- A call that goes on; the other parties rest. -/
theorem State.Follows.within {client : Party} {actor actor' : ReplayActor Value}
    {suspended suspended' : Bool} (task : state.tasks client = some ⟨actor, suspended⟩)
    (runs : ∀ owner, actor.actor ≠ .owner owner)
    (found : state'.tasks client = some ⟨actor', suspended'⟩) (same : actor'.begun = actor.begun)
    (others : ∀ other, other ≠ client → state'.tasks other = state.tasks other) :
    state.Follows state' party := by
  by_cases different : party = client
  · subst different
    obtain ⟨owner | ⟨cancellable, turn⟩, begun, seen⟩ := actor
    · exact absurd rfl (runs owner)
    · exact .goesOn task ((State.begun_same found).trans same)
  · exact .rests (others party different)

omit [Layout Unit Value] in
theorem Actor.runs_of_awaits {actor : Actor Unit Value (ReplayOwner Value)} {await : Await}
    (awaits : actor.awaits = some await) : ∀ owner, actor ≠ .owner owner := by
  rintro owner rfl
  cases awaits

theorem Step.follows (step : Step (replays codec inner) state event state') (party : Party) :
    state.Follows state' party := by
  cases step with
  | @start client actor absent starts =>
      by_cases different : party = client
      · obtain ⟨rfl, rfl⟩ := starts
        subst different
        exact .born (State.begun_same (State.setTask_same ..))
      · exact .rests (State.setTask_ne _ _ different)
  | @fork client child actor childActor world task absent forks =>
      by_cases different : party = child
      · subst different
        refine .born ((State.begun_same (State.setTask_same ..)).trans ?_)
        cases forks.2 <;> rfl
      · exact .rests (State.setTask_ne _ _ different)
  | @move client actor actor' world task moves =>
      cases (show ReplayActor.Moves codec actor state.world actor' world from moves) with
      | call called =>
          by_cases different : party = client
          · subst different
            exact .calls task (State.begun_same (State.setTask_same ..))
          · exact .rests (State.setTask_ne _ _ different)
      | answer atOnce answers =>
          exact .within task (by simp) (State.setTask_same ..) rfl fun _ => State.setTask_ne _ _
      | «return» =>
          exact .within task (by simp) (State.setTask_same ..) rfl fun _ => State.setTask_ne _ _
  | request task awaits | inPlace task awaits | suspend task awaits other =>
      exact .within task (Actor.runs_of_awaits awaits) (State.setTask_same ..) rfl
        fun _ => State.setTask_ne _ _
  | acquire | work | finish | panic | dispose => exact .rests rfl
  | @release before operation after holding owned split ended owns =>
      apply State.Follows.rests
      exact congrFun (State.release_tasks state operation.scope holding) party
  | deliver split attached ended owned task resumes =>
      obtain ⟨resumes, begun, -⟩ := resumes
      refine .within task ?_ (State.setTask_same ..) begun fun _ => State.setTask_ne _ _
      intro owner same
      rw [same] at resumes
      cases resumes
  | idle task awaits settled resumes | wake task awaits woken resumes =>
      obtain ⟨-, begun, -⟩ := resumes
      exact .within task (Actor.runs_of_awaits awaits) (State.setTask_same ..) begun
        fun _ => State.setTask_ne _ _
  | cancelWaiting task cancels | cancelRunning task cancels | cancelSuspended task _ _ cancels =>
      obtain ⟨cancels, begun, -⟩ := cancels
      refine .within task ?_ (State.setTask_same ..) begun fun _ => State.setTask_ne _ _
      intro owner same
      rw [same] at cancels
      cases cancels

end Calls

section Initial

variable (codec : Codec Unit Value) (inner : ReplayInner)

/-- A replay before its writer has done anything. -/
def Books.initial (inner : ReplayInner) : Books Value where
  published := { state := .writing, notices := 0, owed := false, rows := [] }
  scratch := { progress := .unarmed, busy := false, cleanup := some inner.cleanup }
  custody
    | .keeper => .shared
    | .reader _ => .away
  encoded _ := none

def newReplay (inner : ReplayInner) (permits : Nat) (fs : Fs) : ReplayState Value :=
  .initial permits { fs, shared := .initial inner }

theorem fits_cleanup : Fits inner (.unarmed : Progress Value) inner.cleanup where
  scope := rfl
  fds := rfl
  dir := rfl
  reservation := rfl

theorem coupled_initial (permits : Nat) (fs : Fs) :
    Coupled codec inner fs (.initial inner) (newReplay inner permits fs) := by
  have holder : ∀ party, ((Books.initial inner : Books Value).custody party).Holds ↔
      party = .keeper := by
    intro party
    cases party with
    | keeper => simp [Books.initial, Custody.Holds]
    | reader number => simp [Books.initial, Custody.Holds]
  have notAlone : ∀ party, (Books.initial inner : Books Value).custody party ≠ .sole ∧
      (Books.initial inner : Books Value).custody party ≠ .taken := by
    intro party
    cases party <;> simp [Books.initial]
  refine ⟨⟨⟨rfl, rfl, rfl, rfl, {.keeper}, ?_, rfl⟩, ?_, ?_⟩, ?_⟩
  · intro party
    rw [holder, Finset.mem_singleton]
  · constructor
    · rintro party (sole | taken)
      · exact absurd sole (notAlone party).1
      · exact absurd taken (notAlone party).2
    · exact fun number => (notAlone _).1
    · exact fun _ _ => ⟨inner.cleanup, rfl, fits_cleanup inner⟩
    · exact fun party sole => absurd sole (notAlone party).1
    · exact fun spent => Bool.noConfusion spent
    · exact fun none => absurd ((holder .keeper).mpr rfl) (none .keeper)
    · exact fun some => absurd rfl some
    · exact fun row member => absurd member List.not_mem_nil
    · rintro row (⟨⟨⟩⟩ | ⟨⟨⟩⟩)
  · constructor
    · exact fun operation member => absurd member List.not_mem_nil
    · exact Nat.zero_le _
    · exact fun spent => Bool.noConfusion spent
    · exact fun _ => rfl
    · exact fun _ => rfl
    · rfl
  · intro party
    cases party with
    | reader number => exact .absent rfl
    | keeper =>
        apply Meets.unborn
        constructor
        · constructor
          · rfl
          · rfl
          · simp [Books.initial, Books.page]
          · rfl
          · rfl
          · rfl
          · exact ⟨inner.cleanup, rfl, fits_cleanup inner⟩
        · refine ⟨fun abort last => (by cases last), fun _ => ⟨rfl, ?_⟩,
            fun call member => (by cases member)⟩
          exact ⟨rfl, rfl, .inl ⟨rfl, rfl, rfl⟩⟩

variable [Layout Unit Value]

theorem Reaches.coupled {codec : Codec Unit Value} {inner : ReplayInner} {permits : Nat} {fs : Fs}
    {state : ReplayState Value} {allowed : ReplayState Value → Event Party → Prop}
    (reaches : Reaches (replays codec inner) allowed (newReplay inner permits fs) state) :
    ∃ books, Coupled codec inner fs books state ∧ Attended (replays codec inner) state ∧
      state.Conserved permits := by
  have attended : Attended (replays codec inner) (newReplay inner permits fs) :=
    attended_initial permits _
  have conserved : (newReplay inner permits fs : ReplayState Value).Conserved permits :=
    State.conserved_initial _
  obtain ⟨books, coupled, -⟩ :=
    (coupled_initial codec inner permits fs).reaches attended conserved reaches
  exact ⟨books, coupled, reaches.attended attended, reaches.conserved conserved⟩

end Initial

end SortGovernor.Runtime
