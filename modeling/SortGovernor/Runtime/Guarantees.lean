import SortGovernor.Runtime.Exclusion
import SortGovernor.Runtime.Execute

/-!
# What the runtime guarantees

Permits and scope counts are conserved whatever its clients do, permits cap the
operations performed by workers, and the removal of a scratch directory runs
alone.  The last two fail once a sort awaits a removal of one of its files in
place; the scripts of this module show how.
-/

namespace SortGovernor.Runtime

open SortGovernor.Engine SortGovernor.Resumption

section Scripts

variable {Key Value : Type} [LinearOrder Key] [Layout Key Value]

inductive SortCommand (Key Value : Type) where
  | new (plan : SortPlan) (dedup : Bool)
  | push (key : Key) (value : Value) (bytes : UInt64)
  | finish
  | dropSession
  | next
  | dropStream
  | cleanup

def SortOwner.call :
    SortOwner Key Value → SortCommand Key Value →
      Option (Bool × Turn Key Value (SortOwner Key Value))
  | .session left, .push key value bytes =>
      some (true, turn (SortSession.pushWithSize key value bytes) left .session fun _ => .session)
  | .session left, .finish =>
      some (true, turn SortSession.finish left (fun session => .dropped session.cleanup) finished)
  | .session left, .dropSession => some (true, .done (.dropped left.cleanup))
  | .stream left, .next => some (true, turn ValueStream.next left ofStream fun _ => polled)
  | .stream left, .dropStream => some (true, .done (ofStream left))
  | .dropped guard, .cleanup =>
      some (false, turn (AsyncCleanupGuard.dropTask guard) () (fun _ => .gone) fun _ _ => .gone)
  | _, _ => none

theorem SortOwner.call_sound {owner : SortOwner Key Value} {command : SortCommand Key Value}
    {cancellable : Bool} {turn : Turn Key Value (SortOwner Key Value)}
    (called : owner.call command = some (cancellable, turn)) :
    SortOwner.Calls owner cancellable turn := by
  unfold SortOwner.call at called
  split at called <;> cases called <;> constructor

def noReplay (request : ReplayRequest) (_ : Unit) : Option (request.Reply × Unit) := none

def sortScripts (pure : PureCodec Key Value) :
    Executable (@sorts (fun _ => Key) (fun _ => Value) _ _ fun _ => pure.codec)
      (SortCommand Key Value) where
  start sort
    | .new plan dedup => some (.owner (.session (.new plan sort dedup sort none)))
    | _ => none
  fork _ _ _ _ := none
  move _ := Actor.advance SortOwner.call (Actor.answer pure noReplay)
  resume _ actor awaited reply := actor.resume awaited reply
  woken _ _ _ := false
  cancel _ := Actor.cancel
  start_sound := by
    intro sort command actor started
    split at started
    · cases started
      exact ⟨_, _, _, rfl⟩
    · cases started
  fork_sound := by
    intro sort child actor world childActor world' forked
    cases forked
  move_sound := by
    intro sort command actor world actor' world' moved
    refine Actor.advance_sound (fun _ _ _ _ => SortOwner.call_sound) ?_ moved
    intro op world reply world' answered
    refine Actor.answer_sound ?_ answered
    intro request shared reply shared' replied
    cases replied
  resume_sound _ _ _ _ _ := Actor.resume_sound
  woken_sound _ _ _ woken := Bool.noConfusion woken
  cancel_sound _ _ _ := Actor.cancel_sound

end Scripts

/-- A script of sorts of byte rows. -/
abbrev SortScript :=
  List (Executable.Line (SortCommand Nat Nat) fun _ : Nat => SortActor Nat Nat)

abbrev byteSorts : Clients Unit fun _ : Nat => SortActor Nat Nat :=
  @sorts (fun _ => Nat) (fun _ => Nat) _ _ fun _ => byteRows.codec

/-- No sort has started, and one permit is free. -/
def onePermit : State Unit fun _ : Nat => SortActor Nat Nat :=
  .initial 1 ⟨World.empty.fs, ()⟩

def runScript (check : Event Nat → Bool) (script : SortScript) :
    Option (State Unit fun _ : Nat => SortActor Nat Nat) :=
  (sortScripts byteRows).perform check script onePermit

theorem reaches_of_runScript (check : Event Nat → Bool) (script : SortScript)
    (test : (State Unit fun _ : Nat => SortActor Nat Nat) → Bool)
    {allowed : (State Unit fun _ : Nat => SortActor Nat Nat) → Event Nat → Prop}
    (passes : ∀ state event, check event = true → allowed state event)
    (tested : (runScript check script).any test = true) :
    ∃ state, Reaches byteSorts allowed onePermit state ∧ test state = true := by
  obtain ⟨state, performed, holds⟩ := (Option.any_eq_true _ _).mp tested
  exact ⟨state, Executable.perform_sound passes .refl performed, holds⟩

def atOwner : Task (SortActor Nat Nat) → Bool
  | ⟨.owner _, _⟩ => true
  | _ => false

def atDirect : Task (SortActor Nat Nat) → Bool
  | ⟨.running _ (.request _ (.direct _) _), false⟩ => true
  | _ => false

/-- Two pushes of a sort with room for one row each: the second spill merges two
runs and comes to the removal of the first. -/
def toRemoval : SortScript :=
  [.choose (.start 0 (.new (.external 1 2) false)), .choose (.move 0 (.push 1 1 1)),
    .drive 0 .finish atOwner 100, .choose (.move 0 (.push 1 1 1)),
    .drive 0 .finish atDirect 1000, .choose (.await 0)]

/-- The caller drops the push there, and then the session. -/
def thenDropped : SortScript :=
  [.choose (.cancel 0), .choose (.move 0 .dropSession), .choose (.move 0 .finish),
    .choose (.move 0 .cleanup), .choose (.await 0), .choose (.resume 0), .choose (.await 0),
    .choose (.acquire 0)]

theorem executing_after_drop :
    ∃ state, Reaches byteSorts anyStep onePermit state ∧
      state.operations.map (fun operation => (operation.job, operation.outcome.isNone)) =
        [(.removeIfExists ⟨0, .run 0⟩, true), (.removeDirAll 0, true)] := by
  obtain ⟨state, reached, operations⟩ :=
    reaches_of_runScript (fun _ => true) (toRemoval ++ thenDropped) (fun state =>
      state.operations.map (fun operation => (operation.job, operation.outcome.isNone)) =
        [(.removeIfExists ⟨0, .run 0⟩, true), (.removeDirAll 0, true)])
      (fun _ _ _ => trivial) (by decide +kernel)
  exact ⟨state, reached, of_decide_eq_true operations⟩

def sessionAt (sort : Nat) (state : State Unit fun _ : Nat => SortActor Nat Nat) :
    Option (SortSession Nat Nat) :=
  match state.tasks sort with
  | some ⟨.owner (.session current), _⟩ => some current
  | _ => none

theorem tasks_of_sessionAt {sort : Nat} {state : State Unit fun _ : Nat => SortActor Nat Nat}
    {session : SortSession Nat Nat} (found : sessionAt sort state = some session) :
    ∃ suspended, state.tasks sort = some ⟨.owner (.session session), suspended⟩ := by
  unfold sessionAt at found
  split at found
  · rename_i suspended task
    cases found
    exact ⟨suspended, task⟩
  · cases found

def awaitsFrame : Task (SortActor Nat Nat) → Bool
  | ⟨.running _ (.request _ (.perform _ _ (.append ..)) _), true⟩ => true
  | _ => false

def writesFrame (operation : Operation Nat) : Bool :=
  match operation.job with
  | .append .. => operation.caller = 0 && operation.scope = some 0 && operation.outcome.isNone
  | _ => false

/-- Two rows of the second sort stay in memory, then the first sort spills two of its
own and writes the first of them. -/
def toFrame : SortScript :=
  [.choose (.start 1 (.new .inMemory false)), .choose (.move 1 (.push 1 1 1)),
    .drive 1 .finish atOwner 100, .choose (.move 1 (.push 2 2 1)), .drive 1 .finish atOwner 100,
    .choose (.start 0 (.new (.external 2 2) false)), .choose (.move 0 (.push 3 1 1)),
    .drive 0 .finish atOwner 100, .choose (.move 0 (.push 1 2 1)),
    .drive 0 .finish awaitsFrame 1000, .choose (.acquire 0)]

def asksWorkers : Event Nat → Bool
  | .inPlace _ => false
  | _ => true

theorem exists_frameInFlight :
    ∃ state, ∃ session : SortSession Nat Nat, ∃ operation,
      Reaches byteSorts withoutInPlace onePermit state ∧
      sessionAt 1 state = some session ∧ session.buffer.length = 2 ∧ session.nextRun = 0 ∧
      state.operations = [operation] ∧ operation.caller = 0 ∧ operation.scope = some 0 ∧
      operation.Executing ∧
      ∃ path len weight bytes, operation.job = .append path len weight bytes := by
  have passes : ∀ (state : State Unit fun _ : Nat => SortActor Nat Nat) (event : Event Nat),
      asksWorkers event = true → withoutInPlace state event := by
    rintro state event asks client rfl
    cases asks
  obtain ⟨state, reached, tested⟩ := reaches_of_runScript asksWorkers toFrame (fun state =>
    ((sessionAt 1 state).any fun session => session.buffer.length = 2 && session.nextRun = 0) &&
      state.operations.map writesFrame = [true]) passes (by decide +kernel)
  obtain ⟨held, operations⟩ := (Bool.and_eq_true _ _).mp tested
  obtain ⟨session, found, rows⟩ := (Option.any_eq_true _ _).mp held
  simp only [Bool.and_eq_true, decide_eq_true_eq] at rows
  obtain ⟨operation, rest, split, writes, none⟩ :=
    List.map_eq_cons_iff.mp (of_decide_eq_true operations)
  obtain rfl := List.map_eq_nil_iff.mp none
  refine ⟨state, session, operation, reached, found, rows.1, rows.2, split, ?_⟩
  unfold writesFrame at writes
  split at writes
  · rename_i path len weight bytes job
    simp only [Bool.and_eq_true, decide_eq_true_eq] at writes
    exact ⟨writes.1.1, writes.1.2, Option.isNone_iff_eq_none.mp writes.2, path, len,
      weight, bytes, job⟩
  · cases writes

section Conservation

variable {Client Shared : Type} [DecidableEq Client] {Actor : Client → Type}
  {clients : Clients Shared Actor} {state : State Shared Actor} {permits : Nat}
  {world : World Shared}

/-- Permits cap the executing operations in every run without an in-place call,
and no longer once a future makes one. -/
theorem descriptor_cap (permits : Nat) (world : World Shared) :
    (∀ state, Reaches clients withoutInPlace (.initial permits world) state →
        state.Capped permits) ∧
      ∀ state client state', Reaches clients anyStep (.initial permits world) state →
        Step clients state (.inPlace client) state' → ¬state'.Capped permits := by
  constructor
  · intro state reaches
    have performed : ∀ operation ∈ state.operations, operation.scope ≠ none := by
      induction reaches with
      | refl => exact fun _ member => absurd member List.not_mem_nil
      | step _ step allowed inductionHypothesis =>
          exact step.scope_ne_none allowed inductionHypothesis
    have conserved := reaches.conserved (State.conserved_initial world)
    exact conserved.capped fun operation member _ => performed operation member
  · intro state client state' _ step capped
    cases step with
    | @inPlace _ actor job =>
        have holds := capped.1 (.inPlace client job) (by simp) rfl
        exact Operation.not_holdsPermit rfl holds

/-- Without an in-place call the only permit is that of the frame in flight; once a
removal is made in place the cap is gone. -/
theorem descriptor_cap_inFlight :
    (∃ state operation, Reaches byteSorts withoutInPlace onePermit state ∧
      state.operations = [operation] ∧ operation.Executing ∧ state.Capped 1) ∧
    ∃ state client state', Reaches byteSorts anyStep onePermit state ∧
      Step byteSorts state (.inPlace client) state' ∧ ¬state'.Capped 1 := by
  constructor
  · obtain ⟨state, -, operation, reached, -, -, -, split, -, -, executing, -⟩ :=
      exists_frameInFlight
    exact ⟨state, operation, reached, split, executing, (descriptor_cap 1 _).1 state reached⟩
  · obtain ⟨state, reached, tested⟩ := reaches_of_runScript (fun _ => true) toRemoval.dropLast
      (fun state => ((sortScripts byteRows).take state (.await 0)).any fun taken =>
        !asksWorkers taken.1) (fun _ _ _ => trivial) (by decide +kernel)
    obtain ⟨⟨event, state'⟩, taken, inPlace⟩ := (Option.any_eq_true _ _).mp tested
    have step := Executable.take_sound taken
    cases event with
    | inPlace client =>
        exact ⟨state, client, state', reached, step,
          (descriptor_cap 1 _).2 state client state' reached step⟩
    | _ => cases inPlace

/-- One permit, two filesystem operations. -/
theorem descriptor_cap_exceeded :
    ∃ state, Reaches byteSorts anyStep onePermit state ∧
      1 < state.operations.countP fun operation => operation.Executing := by
  obtain ⟨state, reached, operations⟩ := executing_after_drop
  refine ⟨state, reached, ?_⟩
  obtain ⟨first, rest, split, firstRuns, operations⟩ := List.map_eq_cons_iff.mp operations
  obtain ⟨second, rest, rfl, secondRuns, operations⟩ := List.map_eq_cons_iff.mp operations
  obtain rfl := List.map_eq_nil_iff.mp operations
  have runs : first.Executing ∧ second.Executing :=
    ⟨Option.isNone_iff_eq_none.mp (congrArg Prod.snd firstRuns),
      Option.isNone_iff_eq_none.mp (congrArg Prod.snd secondRuns)⟩
  simp [split, runs]

end Conservation

section Exclusion

/-- While a directory is removed, nothing else executes on it. -/
def State.Excludes {Client Shared : Type} {Actor : Client → Type} (state : State Shared Actor) :
    Prop :=
  ∀ before operation after dir, state.operations = before ++ operation :: after →
    operation.Executing → operation.job = .removeDirAll dir →
    ∀ other ∈ before ++ after, other.Executing → other.job.dir ≠ dir

/-- Every live operation on a directory removes it. -/
def State.Removing {Client Shared : Type} {Actor : Client → Type} (state : State Shared Actor)
    (dir : ScratchDir) : Prop :=
  (∀ operation ∈ state.operations, operation.Executing → operation.job.dir = dir →
      operation.job = .removeDirAll dir) ∧
    ∀ call ∈ state.waiting, call.job.dir = dir → call.job = .removeDirAll dir

variable {Keys Values : Nat → Type} [(sort : Nat) → LinearOrder (Keys sort)]
  [(sort : Nat) → Layout (Keys sort) (Values sort)]
  {codec : (sort : Nat) → Codec (Keys sort) (Values sort)}
  {first state : SortState Keys Values} {stage : Nat → Stage} {permits : Nat}

theorem Reaches.follows (reaches : Reaches (sorts codec) keepsRemovals first state)
    (staged : Staged stage first) (attended : Attended (sorts codec) first)
    (conserved : first.Conserved permits) : Follows stage state := by
  induction reaches with
  | refl => exact ⟨stage, staged, fun _ => id⟩
  | step reaches step kept inductionHypothesis =>
      obtain ⟨stage', staged', stays⟩ := inductionHypothesis
      obtain ⟨stage'', staged'', stays'⟩ :=
        staged'.step (reaches.attended attended) (reaches.conserved conserved) step kept
      exact ⟨stage'', staged'', fun sort quiet => stays' sort (stays sort quiet)⟩

omit [(sort : Nat) → LinearOrder (Keys sort)] [(sort : Nat) → Layout (Keys sort) (Values sort)] in
theorem Staged.removing (staged : Staged stage state) {sort : Nat}
    (quiet : stage sort ≠ .working) : state.Removing sort := by
  have removal : ∀ job ∈ state.live sort, IsRemoval job := by
    have live := staged.live sort
    cases found : stage sort with
    | working => exact absurd found quiet
    | quiet =>
        rw [found] at live
        obtain live : state.live sort = [] := live
        simp [live]
    | removing =>
        rw [found] at live
        exact live.2
  constructor
  · intro operation member executing dir
    have caller := (staged.ofSort.operations operation member).1
    have live := State.mem_live_of_executing member executing
    rw [← caller, dir] at live
    rw [← dir]
    exact (removal _ live).eq
  · intro call member dir
    have caller := (staged.ofSort.calls call member).2
    have live := State.mem_live_of_waiting member
    rw [← caller, dir] at live
    rw [← dir]
    exact (removal _ live).eq

omit [(sort : Nat) → LinearOrder (Keys sort)] [(sort : Nat) → Layout (Keys sort) (Values sort)] in
theorem State.alone {sort : Nat} {before after : List (Operation Nat)} {operation : Operation Nat}
    (split : state.operations = before ++ operation :: after) (executing : operation.Executing)
    (caller : operation.caller = sort) (only : (state.live sort).length ≤ 1) :
    ∀ other ∈ before ++ after, other.caller = sort → ¬other.Executing := by
  have runs : operation.caller = sort ∧ operation.Executing := ⟨caller, executing⟩
  simp only [State.live, split, List.length_append, List.length_map, List.filter_append,
    List.filter_cons, runs, and_self, decide_true, if_true, List.length_cons] at only
  have earlier : (before.filter fun other => other.caller = sort ∧ other.Executing) = [] :=
    List.eq_nil_of_length_eq_zero (by omega)
  have later : (after.filter fun other => other.caller = sort ∧ other.Executing) = [] :=
    List.eq_nil_of_length_eq_zero (by omega)
  intro other member same runs
  rw [List.filter_eq_nil_iff] at earlier later
  obtain member | member := List.mem_append.mp member
  · exact earlier other member (decide_eq_true ⟨same, runs⟩)
  · exact later other member (decide_eq_true ⟨same, runs⟩)

/-- The removal of a sort's directory runs alone, and whatever is issued for that
directory afterwards removes it again, in every run that drops no sort while a
removal it awaits in place executes. -/
theorem removal_excludes {fs : Fs}
    (reaches : Reaches (sorts codec) keepsRemovals (.initial permits ⟨fs, ()⟩) state) :
    state.Excludes ∧
      ∀ operation ∈ state.operations, ∀ dir, operation.Executing →
        operation.job = .removeDirAll dir →
        ∀ later, Reaches (sorts codec) keepsRemovals state later → later.Removing dir := by
  have attended := reaches.attended (attended_initial permits ⟨fs, ()⟩)
  have conserved := reaches.conserved (State.conserved_initial ⟨fs, ()⟩)
  obtain ⟨stage, staged, -⟩ := reaches.follows (staged_initial permits fs)
    (attended_initial permits ⟨fs, ()⟩) (State.conserved_initial ⟨fs, ()⟩)
  have quiet : ∀ operation ∈ state.operations, operation.Executing →
      ∀ dir, operation.job = .removeDirAll dir →
      operation.caller = dir ∧ stage dir = .removing := by
    intro operation member executing dir removal
    have caller := (staged.ofSort.operations operation member).1
    rw [removal] at caller
    obtain rfl : dir = operation.caller := caller
    have live := staged.live operation.caller
    have issued := State.mem_live_of_executing member executing
    rw [removal] at issued
    refine ⟨rfl, ?_⟩
    cases found : stage operation.caller with
    | working =>
        rw [found] at live
        exact absurd trivial (live _ issued)
    | quiet =>
        rw [found] at live
        obtain live : state.live operation.caller = [] := live
        rw [live] at issued
        cases issued
    | removing => rfl
  constructor
  · intro before operation after dir split executing removal other member runs same
    obtain ⟨caller, removing⟩ := quiet operation (by simp [split]) executing dir removal
    have live := staged.live dir
    rw [removing] at live
    have known : other ∈ state.operations := by
      rw [split, List.mem_append, List.mem_cons]
      rw [List.mem_append] at member
      tauto
    refine State.alone split executing caller live.1 other member ?_ runs
    exact (staged.ofSort.operations other known).1.symm.trans same
  · intro operation member dir executing removal later onward
    obtain ⟨-, removing⟩ := quiet operation member executing dir removal
    obtain ⟨stage', staged', stays⟩ := onward.follows staged attended conserved
    exact staged'.removing (stays dir (by simp [removing]))

def keepsCallers : Event Nat → Bool
  | .cancel _ (some operation) => operation.scope.isSome || operation.outcome.isSome
  | _ => true

theorem keepsRemovals_of_check (state : State Unit fun _ : Nat => SortActor Nat Nat)
    (event : Event Nat) (passes : keepsCallers event = true) : keepsRemovals state event := by
  unfold keepsRemovals
  split
  · rename_i client operation
    intro inPlace executing
    have running : operation.outcome = none := executing
    simp [keepsCallers, inPlace, running] at passes
  · trivial

/-- The caller drops a push that creates the directory, and then the session. -/
def droppedAtFirst : SortScript :=
  [.choose (.start 0 (.new (.external 1 2) false)), .choose (.move 0 (.push 1 1 1)),
    .drive 0 .finish (fun task => task.suspended) 100, .choose (.cancel 0),
    .choose (.move 0 .dropSession), .choose (.move 0 .finish), .choose (.move 0 .cleanup),
    .choose (.await 0), .choose (.resume 0), .choose (.await 0), .choose (.acquire 0)]

theorem removal_excludes_dropped :
    ∃ state, Reaches byteSorts keepsRemovals onePermit state ∧
      state.operations.map (fun operation => (operation.job, operation.outcome.isNone)) =
        [(.removeDirAll 0, true)] ∧ state.Excludes := by
  obtain ⟨state, reached, operations⟩ :=
    reaches_of_runScript keepsCallers droppedAtFirst (fun state =>
      state.operations.map (fun operation => (operation.job, operation.outcome.isNone)) =
        [(.removeDirAll 0, true)])
      keepsRemovals_of_check (by decide +kernel)
  exact ⟨state, reached, of_decide_eq_true operations, (removal_excludes reached).1⟩

/-- A removal of a directory and a removal of a file in it execute together. -/
theorem removal_not_alone :
    ∃ state, Reaches byteSorts anyStep onePermit state ∧ ¬state.Excludes := by
  obtain ⟨state, reached, operations⟩ := executing_after_drop
  refine ⟨state, reached, fun excludes => ?_⟩
  obtain ⟨first, rest, split, firstRuns, operations⟩ := List.map_eq_cons_iff.mp operations
  obtain ⟨second, rest, rfl, secondRuns, operations⟩ := List.map_eq_cons_iff.mp operations
  obtain rfl := List.map_eq_nil_iff.mp operations
  obtain ⟨firstJob, firstRuns⟩ := Prod.mk.inj firstRuns
  obtain ⟨secondJob, secondRuns⟩ := Prod.mk.inj secondRuns
  apply excludes [first] second [] 0 split (Option.isNone_iff_eq_none.mp secondRuns) secondJob
    first (by simp) (Option.isNone_iff_eq_none.mp firstRuns)
  rw [firstJob]
  rfl

end Exclusion

end SortGovernor.Runtime
