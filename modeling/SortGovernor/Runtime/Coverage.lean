import SortGovernor.Engine.CoveredSort
import SortGovernor.Runtime.Charges
import SortGovernor.Runtime.Guarantees

/-!
# Charges of sorts in any interleaving

Whatever other sorts, workers and callers do, a sort keeps its rows, its vectors
and its keys covered at every point where it can be left.
-/

namespace SortGovernor.Runtime

open SortGovernor.Engine SortGovernor.Resumption

section Actors

variable {Key Value Owner State Result : Type} {good : Owner → Prop}

/-- The owner a client has, or would be left with. -/
def Actor.remains : Actor Key Value Owner → Owner
  | .owner rest => rest
  | .running _ (.done rest) => rest
  | .running _ (.request left _ _) => left

/-- The rest of a call that keeps its owner good, however it ends. -/
def Turn.Keeps (good : Owner → Prop) (turn : Turn Key Value Owner) : Prop :=
  turn.wp (charging Key Value) (fun left op _ => op.Backed ∧ good left)
    (fun owner _ => good owner) ()

def Actor.Keeps (good : Owner → Prop) : Actor Key Value Owner → Prop
  | .owner rest => good rest
  | .running _ turn => turn.Keeps good

theorem Actor.Keeps.remains {actor : Actor Key Value Owner} (keeps : actor.Keeps good) :
    good actor.remains := by
  cases actor with
  | owner owner => exact keeps
  | running cancellable turn =>
      cases turn with
      | done owner => exact keeps
      | request left op resume => exact keeps.1.2

theorem keeps_turn {method : Async Key Value State Result} {state : State} {dropped : State → Owner}
    {returned : Except Abort Result → State → Owner}
    (holds : method.wp (charging Key Value) (fun state op _ => op.Backed ∧ good (dropped state))
      (fun value state _ => good (returned (.ok value) state))
      (fun abort state _ => good (returned (.error abort) state)) state ()) :
    (turn method state dropped returned).Keeps good := by
  unfold Turn.Keeps turn
  rw [Program.wp_map, Program.wp_rebase]
  apply Program.wp_mono holds
  · exact fun _ _ _ issued => issued
  · rintro ⟨_ | _, state⟩ _ reached <;> exact reached

theorem Answers.charged {Shared : Type} {codec : Codec Key Value}
    {replay : (request : ReplayRequest) → Shared → request.Reply → Shared → Prop}
    {op : Request Key Value} {world next : World Shared} {reply : op.Reply}
    (answers : Answers codec replay op world reply next) : op.Charged reply := by
  cases op with
  | reserve bytes =>
      obtain ⟨-, limit, used, rfl⟩ := answers
      cases admitted : MemoryBudget.reserve limit used bytes with
      | error error => trivial
      | ok charge => exact MemoryBudget.bytes_of_reserve admitted
  | perform | direct => exact answers.elim
  | _ => trivial

theorem Actor.Keeps.moves {Shared : Type} {codec : Codec Key Value}
    {calls : Owner → Bool → Turn Key Value Owner → Prop}
    {replay : (request : ReplayRequest) → Shared → request.Reply → Shared → Prop}
    {actor actor' : Actor Key Value Owner} {world next : World Shared} (keeps : actor.Keeps good)
    (called : ∀ owner cancellable turn, good owner → calls owner cancellable turn → turn.Keeps good)
    (moves : Actor.Moves calls (Answers codec replay) actor world actor' next) :
    actor'.Keeps good := by
  cases moves with
  | call calls => exact called _ _ _ keeps calls
  | answer immediate answers => exact keeps.2 _ () answers.charged
  | «return» => exact keeps

theorem Actor.Keeps.delivered {actor actor' : Actor Key Value Owner} {scope : Option ScopeId}
    {held : List MemoryCharge} {job : FsJob} {reply : Except SorterError job.Value}
    (keeps : actor.Keeps good) (charged : job.Charged reply)
    (resumes : Actor.Resumes actor (.job scope held job) reply actor') : actor'.Keeps good := by
  cases resumes with
  | perform => exact keeps.2 reply () charged
  | direct => exact keeps.2 reply () charged

theorem Actor.Keeps.woken {actor actor' : Actor Key Value Owner} (keeps : actor.Keeps good)
    (resumes : (∃ scope, Actor.Resumes actor (.idle scope) () actor') ∨
      ∃ token, Actor.Resumes actor (.changed token) () actor') : actor'.Keeps good := by
  rcases resumes with ⟨scope, resumes⟩ | ⟨token, resumes⟩
  · cases resumes with
    | idle => exact keeps.2 () () trivial
  · cases resumes with
    | changed => exact keeps.2 () () trivial

theorem Actor.Keeps.cancels {actor actor' : Actor Key Value Owner} (keeps : actor.Keeps good)
    (cancels : Actor.Cancels actor actor') : actor'.Keeps good := by
  cases cancels with
  | drop awaits => exact keeps.1.2

end Actors

section Calls

variable {Key Value : Type} [LinearOrder Key] [Layout Key Value]

def SortOwner.Covered : SortOwner Key Value → Prop
  | .session current => current.Covered
  | .stream current => current.Covered
  | _ => True

omit [LinearOrder Key] in
theorem SortOwner.covered_ofStream (stream : ValueStream Key Value) :
    (SortOwner.ofStream stream).Covered := by
  unfold SortOwner.ofStream
  split <;> trivial

/-- Every call of a sort keeps its owner covered. -/
theorem SortOwner.Calls.keeps {owner : SortOwner Key Value} {cancellable : Bool}
    {turn : Turn Key Value (SortOwner Key Value)} (calls : SortOwner.Calls owner cancellable turn)
    (covered : owner.Covered) : turn.Keeps SortOwner.Covered := by
  cases calls with
  | push key value bytes =>
      apply keeps_turn
      apply Method.wp_post (SortSession.covers_pushWithSize key value bytes _ () covered)
      · exact fun _ _ _ given => given.1
      · exact fun _ _ _ stayed => stayed
  | finish =>
      apply keeps_turn
      apply Method.wp_mono (SortSession.wp_finish_covered covered)
      · exact fun _ _ _ backed => ⟨backed, trivial⟩
      · exact fun _ _ _ given => given
      · exact fun _ _ _ _ => trivial
  | dropSession => trivial
  | next =>
      apply keeps_turn
      apply Method.wp_mono (ValueStream.covers_next _ () covered)
      · exact fun stream _ _ issued => ⟨issued.1, SortOwner.covered_ofStream stream⟩
      · rintro _ (_ | _ | _) _ ⟨kept, -⟩
        · exact kept
        · exact kept
        · exact SortOwner.covered_ofStream _
      · rintro _ (_ | _ | _) _ kept
        · exact kept
        · exact kept
        · exact SortOwner.covered_ofStream _
  | dropStream => exact SortOwner.covered_ofStream _
  | cleanup =>
      apply keeps_turn
      apply Method.wp_mono (covers_dropTask _ () () trivial)
      · exact fun _ _ _ issued => ⟨issued.1, trivial⟩
      · exact fun _ _ _ _ => trivial
      · exact fun _ _ _ _ => trivial

end Calls

section Runs

variable {Keys Values : Nat → Type} [(sort : Nat) → LinearOrder (Keys sort)]
  [(sort : Nat) → Layout (Keys sort) (Values sort)]
  {codec : (sort : Nat) → Codec (Keys sort) (Values sort)}
  {state state' : SortState Keys Values} {event : Event Nat} {permits : Nat} {fs : Fs}

/-- All sorts are covered, and so is every frame on its way to a file. -/
structure Covering (state : SortState Keys Values) : Prop where
  tasks : ∀ sort task, state.tasks sort = some task → task.actor.Keeps SortOwner.Covered
  calls : ∀ call ∈ state.waiting, call.job.Backed call.held
  operations : ∀ operation ∈ state.operations, operation.scope ≠ none →
    operation.job.Backed operation.held

theorem Covering.step (covering : Covering state) (step : Step (sorts codec) state event state')
    (charged : ∀ operation ∈ state.operations, operation.Charged) : Covering state' where
  tasks := by
    refine step.each_task (fun _ actor => actor.Keeps SortOwner.Covered) ?_ ?_ ?_ ?_ ?_ ?_
      covering.tasks
    · rintro sort actor ⟨plan, dedup, hold, rfl⟩
      exact ⟨by simp [SortSession.new], Nat.le_refl _, .inl rfl⟩
    · exact fun _ _ _ _ _ _ forks => forks.elim
    · exact fun sort actor actor' world keeps moves =>
        keeps.moves (fun _ _ _ covered calls => calls.keeps covered) moves
    · intro operation member result actor actor' ended keeps resumes
      exact keeps.delivered ((charged operation member).ended result ended) resumes
    · exact fun _ _ _ keeps resumes => keeps.woken resumes
    · exact fun _ _ _ keeps cancels => keeps.cancels cancels
  calls := by
    refine step.each_call ?_ covering.calls
    intro sort actor scope held job task awaits
    obtain ⟨cancellable, left, op, resume, rfl, issued⟩ := exists_request_of_awaits awaits
    obtain rfl := await_eq_perform issued
    exact (covering.tasks sort _ task).1.1
  operations := by
    refine step.each_operation ?_ ?_ ?_ covering.operations
    · exact fun call member _ => covering.calls call member
    · exact fun sort job performed => absurd rfl performed
    · intro operation operation' advanced backed
      cases advanced <;> exact backed

/-- In every interleaving, and wherever a sort is left or waits, what it retains is
covered: each row by its own charge, the row vector and the vectors of a merge by
their capacity, each key of a heap by the size of its row.  An encoded frame is
charged until its worker is done with it. -/
theorem retained_covered (reaches : Reaches (sorts codec) anyStep
    (.initial permits ⟨fs, ()⟩) state) :
    (∀ sort task, state.tasks sort = some task → task.actor.remains.Covered) ∧
      (∀ call ∈ state.waiting, call.job.Backed call.held) ∧
      ∀ operation ∈ state.operations, operation.scope ≠ none → operation.Executing →
        operation.job.Backed operation.charges := by
  have covering : Covering state := by
    induction reaches with
    | refl =>
        constructor
        · simp [State.initial]
        · simp [State.initial]
        · simp [State.initial]
    | step reaches step _ inductionHypothesis =>
        exact inductionHypothesis.step step (reaches.charged (by simp [State.initial]))
  refine ⟨fun sort task found => (covering.tasks sort task found).remains, covering.calls, ?_⟩
  intro operation member performed executing
  have owned := ((reaches.conserved (State.conserved_initial _)).sound operation member).executing
    executing performed
  have unended : operation.outcome = none := executing
  have charges : operation.charges = operation.held := by
    simp [Operation.charges, owned, unended]
  rw [charges]
  exact covering.operations operation member performed

/-- What the rows of one sort retain is covered while a frame of another is in flight. -/
theorem retained_covered_inFlight :
    ∃ state, ∃ session : SortSession Nat Nat, ∃ operation,
      Reaches byteSorts anyStep onePermit state ∧
      sessionAt 1 state = some session ∧ session.buffer.length = 2 ∧ session.Covered ∧
      state.operations = [operation] ∧ operation.caller = 0 ∧
      ∃ path len weight bytes, operation.job = .append path len weight bytes ∧
        ∃ charge ∈ operation.charges,
          MemoryBudget.frameBytes bytes.length = some charge.bytes := by
  obtain ⟨state, session, operation, reached, found, rows, -, split, flight⟩ := exists_frameInFlight
  obtain ⟨caller, performed, executing, path, len, weight, bytes, job⟩ := flight
  have anywhere := reached.mono fun _ _ _ => trivial
  obtain ⟨suspended, task⟩ := tasks_of_sessionAt found
  obtain ⟨covered, -, backed⟩ := retained_covered anywhere
  have frame := backed operation (by simp [split]) (by simp [performed]) executing
  rw [job] at frame
  exact ⟨state, session, operation, anywhere, found, rows, covered 1 _ task, split,
    caller, path, len,
    weight, bytes, job, frame⟩

end Runs

end SortGovernor.Runtime
