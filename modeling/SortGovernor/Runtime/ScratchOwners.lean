import SortGovernor.Engine.Directories
import SortGovernor.Runtime.Coverage
import SortGovernor.Runtime.Tenure

/-!
# Who answers for the scratch of a sort

As long as something of a sort may be on disk, one guard with its reservation
answers for it: that of the session, of the stream, or of the task that a dropped
guard has spawned.
-/

namespace SortGovernor.Runtime

open SortGovernor.Engine SortGovernor.Resumption

/-- The jobs of a sort that may still run. -/
def Tenure.Runs : Tenure → FsJob → Prop
  | .held, job => ¬IsRemoval job
  | .removing, job | .removed, job | .reported, job => IsRemoval job
  | _, _ => False

theorem Tenure.runs_during {Key Value : Type} (op : Request Key Value)
    {tenure : Tenure} {job : FsJob}
    (runs : tenure.Runs job) : (tenure.during op).Runs job := by
  cases tenure with
  | fresh | quiet => exact runs.elim
  | _ => cases op <;> exact runs

theorem Tenure.clear_of_during {Key Value : Type} {op : Request Key Value} {tenure : Tenure}
    (clear : (tenure.during op).Clear) : tenure.Clear := by
  unfold Clear at clear ⊢
  cases op <;> cases tenure <;> simp_all [during]

theorem Tenure.during_ne_fresh {Key Value : Type} (op : Request Key Value) {tenure : Tenure}
    (begun : tenure ≠ .fresh) : tenure.during op ≠ .fresh := by
  cases op <;> cases tenure <;> simp_all [during]

theorem Tenure.reported_of_during {Key Value : Type} {op : Request Key Value} {tenure : Tenure}
    (reported : tenure.during op = .reported) : tenure = .reported := by
  cases op <;> cases tenure <;> simp_all [during]

theorem Tenure.runs_of_allowed {Key Value : Type} {sort : Nat} {tenure : Tenure} {io : ScopeId}
    {held : List MemoryCharge} {job : FsJob}
    (allowed : Allowed sort tenure.stage (.perform io held job : Request Key Value)) :
    (tenure.during (.perform io held job : Request Key Value)).Runs job := by
  obtain ⟨-, -, ⟨working, ordinary⟩ | ⟨quiet, removal⟩⟩ := allowed
  · cases tenure with
    | fresh | held => exact ordinary
    | _ => cases working
  · cases tenure with
    | quiet => exact removal
    | _ => cases quiet

theorem Tenure.begun_of_direct {Key Value : Type} {tenure : Tenure} {job : FsJob} :
    tenure.during (.direct job : Request Key Value) ≠ .fresh := by
  cases tenure <;> exact Tenure.noConfusion

/-- The task that a dropped guard has spawned. -/
def SpawnedAt {Key Value : Type} (sort : Nat) (tenure : Tenure)
    (turn : Turn Key Value (SortOwner Key Value)) (suspended : Bool) : Prop :=
  (∃ guard, ArmedFor sort guard ∧ (turn = cleanupTurn guard ∨
    turn = removalTurn sort guard ∧ tenure = if suspended then .removing else .quiet)) ∨
  turn = .done .gone ∧ (tenure.Clear ∨ tenure = .reported)

def TaskAt {Key Value : Type} (sort : Nat) (tenure : Tenure) :
    Option (Task (SortActor Key Value)) → Prop
  | none => tenure = .fresh
  | some ⟨.owner owner, _⟩ => OwnerAt sort tenure owner
  | some ⟨.running true turn, false⟩ => TurnAt sort tenure turn
  | some ⟨.running true turn, true⟩ => ∃ left op resume before,
      turn = .request left op resume ∧ TurnAt sort before turn ∧ tenure = before.during op
  | some ⟨.running false turn, suspended⟩ => SpawnedAt sort tenure turn suspended

/-- A call in the queue is one its sort may run. -/
structure CallAt (tenure : Tenure) (call : Call Nat) : Prop where
  scope : call.scope = call.caller
  dir : call.job.dir = call.caller
  runs : tenure.Runs call.job

/-- An operation of a sort.  A removal that has succeeded has removed the directory
for good. -/
structure OperationAt (tenure : Tenure) (fs : Fs) (operation : Operation Nat) : Prop where
  dir : operation.job.dir = operation.caller
  scope : operation.scope = some operation.caller ∨
    operation.scope = none ∧ ∃ path, operation.job = .removeIfExists path
  begun : tenure ≠ .fresh
  runs : operation.scope ≠ none → operation.Executing → tenure.Runs operation.job
  makes : operation.work.wp anyFile (fun _ op _ => operation.job.Makes op) (fun _ _ => True) ()
  closing : IsRemoval operation.job → tenure.stage ≠ .working
  removes : IsRemoval operation.job → operation.Executing → operation.work = operation.job.body () ∨
    ∃ result, operation.work = .done (result, ()) ∧
      ∀ value, result = .ok value → fs.dirs operation.caller = false
  removed : IsRemoval operation.job → ∀ value, operation.outcome = some (.ok value) →
    fs.dirs operation.caller = false

section Operations

variable {tenure next : Tenure} {fs fs' : Fs} {operation : Operation Nat}

theorem Tenure.Runs.closing {job : FsJob} (runs : tenure.Runs job) (removal : IsRemoval job) :
    tenure.stage ≠ .working := by
  cases tenure with
  | fresh | quiet => exact runs.elim
  | held => exact absurd removal runs
  | _ => exact Stage.noConfusion

theorem OperationAt.not_ensures (known : OperationAt tenure fs operation)
    (executing : operation.Executing) (closing : tenure.stage ≠ .working) (dir : ScratchDir) :
    operation.job ≠ .ensureDir dir := by
  intro ensures
  obtain scope | ⟨-, path, same⟩ := known.scope
  · have runs := known.runs (by simp [scope]) executing
    rw [ensures] at runs
    cases tenure with
    | fresh | held => exact closing rfl
    | _ => exact runs
  · rw [ensures] at same
    cases same

theorem OperationAt.onward (known : OperationAt tenure fs operation) (begun : next ≠ .fresh)
    (runs : operation.scope ≠ none → operation.Executing → next.Runs operation.job)
    (closing : tenure.stage ≠ .working → next.stage ≠ .working) : OperationAt next fs operation :=
  { known with begun, runs, closing := fun removal => closing (known.closing removal) }

theorem OperationAt.congr_fs (known : OperationAt tenure fs operation)
    (kept : tenure.stage ≠ .working → fs.dirs operation.caller = false →
      fs'.dirs operation.caller = false) : OperationAt tenure fs' operation := by
  refine { known with removes := fun removal executing => ?_, removed :=
    fun removal value ended => ?_ }
  · obtain unstarted | ⟨result, done, absent⟩ := known.removes removal executing
    · exact .inl unstarted
    · refine .inr ⟨result, done, fun value succeeded => ?_⟩
      exact kept (known.closing removal) (absent value succeeded)
  · exact kept (known.closing removal) (known.removed removal value ended)

/-- A step of a worker creates no directory of a sort that has nothing on disk or has
begun to remove it. -/
theorem OperationAt.step_absent (known : OperationAt tenure fs operation) {left op resume}
    {reply : Except SorterError op.Value} (executing : operation.Executing)
    (issued : operation.work = .request left op resume) (step : op.Step fs reply fs') {sort : Nat}
    (idle : sort = operation.caller → tenure.stage ≠ .working) (absent : fs.dirs sort = false) :
    fs'.dirs sort = false := by
  have makes := known.makes
  rw [issued] at makes
  by_cases changes : op.Changes sort
  · have own : sort = operation.caller := (makes.1.own changes).trans known.dir
    refine step.dirs_absent ?_ absent
    rintro rfl
    exact known.not_ensures executing (idle own) sort makes.1
  · exact (step.dirs_eq changes).trans absent

theorem CallAt.spawn {call : Call Nat} (known : CallAt tenure call) (fs : Fs) :
    OperationAt tenure fs (.spawn call) where
  dir := known.dir
  scope := .inl (congrArg some known.scope)
  begun := by
    rintro rfl
    exact known.runs
  runs _ _ := known.runs
  makes := Program.wp_mono (call.job.body_makes () () trivial) (fun _ _ _ issued => issued.1)
    fun _ _ _ => trivial
  closing := known.runs.closing
  removes _ _ := .inl rfl
  removed _ _ ended := nomatch ended

theorem operationAt_inPlace (sort : Nat) (file : ScratchFile) (fs : Fs) (begun : tenure ≠ .fresh) :
    OperationAt tenure fs (.inPlace sort (.removeIfExists ⟨sort, file⟩)) where
  dir := rfl
  scope := .inr ⟨rfl, _, rfl⟩
  begun := begun
  runs performed := absurd rfl performed
  makes := Program.wp_mono (FsJob.body_makes _ () () trivial) (fun _ _ _ issued => issued.1)
    fun _ _ _ => trivial
  closing removal := removal.elim
  removes removal := removal.elim
  removed removal := removal.elim

theorem OperationAt.finishes (known : OperationAt tenure fs operation) {result}
    (executing : operation.Executing) (ended : operation.work = .done (result, ())) :
    OperationAt tenure fs { operation with outcome := some result } := by
  refine { known with runs := ?_, removes := ?_, removed := ?_ }
  · exact fun _ executing => nomatch executing
  · exact fun _ executing => nomatch executing
  · intro removal value succeeded
    obtain unstarted | ⟨result', done, absent⟩ := known.removes removal executing
    · obtain ⟨caller, attached, scope, held, job, work, outcome, owned⟩ := operation
      cases job with
      | removeDirAll dir =>
          have one := ended.symm.trans (unstarted.trans (FsJob.body_removeDirAll dir))
          cases one
      | _ => exact removal.elim
    · rw [ended] at done
      cases done
      exact absent value (Option.some.inj succeeded)

theorem OperationAt.works (known : OperationAt tenure fs operation) {left op resume}
    {reply : Except SorterError op.Value} (executing : operation.Executing)
    (issued : operation.work = .request left op resume) (step : op.Step fs reply fs') :
    OperationAt tenure fs' { operation with work := resume reply } := by
  have kept : tenure.stage ≠ .working → fs.dirs operation.caller = false →
      fs'.dirs operation.caller = false :=
    fun closing => known.step_absent executing issued step fun _ => closing
  have makes := known.makes
  rw [issued] at makes
  refine { known.congr_fs kept with
    runs := known.runs
    makes := makes.2 reply () ⟨fs, fs', step⟩
    removes := fun removal _ => .inr ?_ }
  obtain unstarted | ⟨result, done, -⟩ := known.removes removal executing
  · obtain ⟨caller, attached, scope, held, job, work, outcome, owned⟩ := operation
    cases job with
    | removeDirAll dir =>
        obtain rfl : dir = caller := known.dir
        have one := issued.symm.trans (unstarted.trans (FsJob.body_removeDirAll dir))
        cases one
        refine ⟨reply, rfl, fun value succeeded => ?_⟩
        cases reply with
        | error error => cases succeeded
        | ok value => exact step.dirs_removed
    | _ => exact removal.elim
  · rw [issued] at done
    cases done

end Operations

section Tasks

variable {Key Value : Type} {sort : Nat} {tenure : Tenure} {actor actor' : SortActor Key Value}

theorem taskAt_asks {cancellable : Bool} {left : SortOwner Key Value}
    {op : Request Key Value} {resume}
    (task : TaskAt sort tenure (some ⟨.running cancellable (.request left op resume), false⟩)) :
    Allowed sort tenure.stage op ∧ TaskAt sort (tenure.during op)
      (some ⟨.running cancellable (.request left op resume), true⟩) := by
  cases cancellable with
  | true => exact ⟨task.1.1, left, op, resume, tenure, rfl, task, rfl⟩
  | false =>
      obtain ⟨guard, armed, same | ⟨same, rfl⟩⟩ | ⟨same, -⟩ := task
      · have idles := same.trans (cleanupTurn_armed armed)
        cases idles
        exact ⟨rfl, .inl ⟨guard, armed, .inl same⟩⟩
      · cases same
        exact ⟨⟨rfl, rfl, .inr ⟨rfl, trivial⟩⟩, .inl ⟨guard, armed, .inr ⟨rfl, rfl⟩⟩⟩
      · cases same

/-- Between its awaits a sort keeps its tenure. -/
theorem taskAt_moves [LinearOrder Key] [Layout Key Value] {codec : Codec Key Value}
    {world world' : World Unit}
    (task : TaskAt sort tenure (some ⟨actor, false⟩))
    (moves : Actor.Moves SortOwner.Calls (Answers codec fun _ _ _ _ => False) actor world actor'
      world') : TaskAt sort tenure (some ⟨actor', false⟩) := by
  cases moves with
  | @call owner cancellable turn _ calls =>
      cases cancellable with
      | true => exact turnAt_calls task calls
      | false =>
          cases calls with
          | @cleanup guard =>
              obtain armed | ⟨-, none, clear⟩ := task
              · exact .inl ⟨guard, armed, .inl rfl⟩
              · exact .inr ⟨cleanupTurn_unarmed none, .inl clear⟩
  | @answer cancellable left op resume _ reply _ immediate answers =>
      cases cancellable with
      | true =>
          apply task.2 reply
          cases op with
          | perform | direct | idle => cases immediate
          | _ => rfl
      | false =>
          obtain ⟨guard, armed, same | ⟨same, -⟩⟩ | ⟨same, -⟩ := task
          · cases same.trans (cleanupTurn_armed armed)
            cases immediate
          · cases same
            cases immediate
          · cases same
  | @«return» cancellable owner _ =>
      cases cancellable with
      | true => exact task
      | false =>
          obtain ⟨guard, armed, same | ⟨same, -⟩⟩ | ⟨same, ended⟩ := task
          · cases same.trans (cleanupTurn_armed armed)
          · cases same
          · cases same
            exact ended

theorem taskAt_cancels (task : TaskAt sort tenure (some ⟨actor, true⟩))
    (cancels : actor.Cancels actor') : TaskAt sort tenure (some ⟨actor', false⟩) := by
  cases cancels with
  | drop awaits =>
      obtain ⟨left, op, resume, before, ⟨⟩, turn, rfl⟩ := task
      exact turn.1.2

theorem taskAt_idles {scope : ScopeId} (task : TaskAt sort tenure (some ⟨actor, true⟩))
    (resumes : actor.Resumes (.idle scope) () actor') :
    TaskAt sort .quiet (some ⟨actor', false⟩) := by
  cases resumes with
  | @idle cancellable left io resume =>
      cases cancellable with
      | true =>
          obtain ⟨left, op, resume, before, ⟨⟩, turn, rfl⟩ := task
          exact turn.2 _ _ rfl
      | false =>
          obtain ⟨guard, armed, same | ⟨same, -⟩⟩ | ⟨same, -⟩ := task
          · cases same.trans (cleanupTurn_armed armed)
            exact .inl ⟨guard, armed, .inr ⟨rfl, rfl⟩⟩
          · cases same
          · cases same

theorem taskAt_idle_scope {cancellable : Bool} {left : SortOwner Key Value}
    {scope : ScopeId} {resume}
    (task : TaskAt sort tenure
      (some ⟨.running cancellable (.request left (.idle scope) resume), true⟩)) :
    scope = sort := by
  cases cancellable with
  | true =>
      obtain ⟨left, op, resume, before, ⟨⟩, turn, rfl⟩ := task
      exact turn.1.1
  | false =>
      obtain ⟨guard, armed, same | ⟨same, -⟩⟩ | ⟨same, -⟩ := task
      · cases same.trans (cleanupTurn_armed armed)
        rfl
      · cases same
      · cases same

def IsTold (sort : Nat) (job : FsJob) (actor actor' : SortActor Key Value) : Prop :=
  job = .removeDirAll sort ∧ (∃ guard, actor = .running false (removalTurn sort guard)) ∧
    actor' = .running false (.done .gone)

theorem Answers.fs_eq {Shared : Type} {codec : Codec Key Value}
    {replay : (request : ReplayRequest) → Shared → request.Reply → Shared → Prop}
    {op : Request Key Value} {world next : World Shared} {reply : op.Reply}
    (answers : Answers codec replay op world reply next) : next.fs = world.fs := by
  cases op with
  | limit => exact congrArg World.fs answers
  | reserve | serialize | deserialize => exact congrArg World.fs answers.1
  | replay => exact answers.1
  | _ => exact answers.elim

/-- Only the outcome of a removal changes the tenure. -/
theorem taskAt_delivered {scope : Option ScopeId} {held : List MemoryCharge} {job : FsJob}
    {reply : Except SorterError job.Value} (task : TaskAt sort tenure (some ⟨actor, true⟩))
    (resumes : actor.Resumes (.job scope held job) reply actor') :
    ∃ next, TaskAt sort next (some ⟨actor', false⟩) ∧ (next = tenure ∨
      IsRemoval job ∧ tenure = .removing ∧ ((∃ value, reply = .ok value) ∧ next = .removed ∨
        (∃ error, reply = .error error) ∧ next = .reported ∧ IsTold sort job actor actor')) := by
  cases resumes with
  | @perform cancellable left io held job resume =>
      cases cancellable with
      | true =>
          obtain ⟨left, op, resume, before, ⟨⟩, turn, rfl⟩ := task
          refine ⟨_, turn.2 reply _ rfl, ?_⟩
          by_cases ends : IsRemoval job ∧ before = .quiet ∧ ∃ value, reply = .ok value
          · obtain ⟨removal, rfl, value, rfl⟩ := ends
            cases job with
            | removeDirAll dir => exact .inr ⟨trivial, rfl, .inl ⟨⟨value, rfl⟩, rfl⟩⟩
            | _ => exact removal.elim
          · left
            cases job with
            | removeDirAll dir =>
                cases reply with
                | error error => rfl
                | ok value =>
                    cases before with
                    | quiet => exact absurd ⟨trivial, rfl, value, rfl⟩ ends
                    | _ => rfl
            | _ => rfl
      | false =>
          obtain ⟨guard, armed, same | ⟨same, rfl⟩⟩ | ⟨same, -⟩ := task
          · cases same.trans (cleanupTurn_armed armed)
          · cases same
            cases reply with
            | ok value =>
                exact ⟨.removed, .inr ⟨rfl, .inl (.inr rfl)⟩,
                  .inr ⟨trivial, rfl, .inl ⟨⟨value, rfl⟩, rfl⟩⟩⟩
            | error error =>
                exact ⟨.reported, .inr ⟨rfl, .inr rfl⟩,
                  .inr ⟨trivial, rfl, .inr ⟨⟨error, rfl⟩, rfl, rfl, ⟨guard, rfl⟩, rfl⟩⟩⟩
          · cases same
  | @direct cancellable left job resume =>
      cases cancellable with
      | true =>
          obtain ⟨left, op, resume, before, ⟨⟩, turn, rfl⟩ := task
          exact ⟨_, turn.2 reply _ rfl, .inl rfl⟩
      | false =>
          obtain ⟨guard, armed, same | ⟨same, rfl⟩⟩ | ⟨same, -⟩ := task
          · cases same.trans (cleanupTurn_armed armed)
          · cases same
          · cases same

end Tasks

section States

variable {Keys Values : Nat → Type} {state state' : SortState Keys Values} {tenure : Nat → Tenure}

structure Tenured (tenure : Nat → Tenure) (state : SortState Keys Values) : Prop where
  tasks : ∀ sort, TaskAt sort (tenure sort) (state.tasks sort)
  calls : ∀ call ∈ state.waiting, CallAt (tenure call.caller) call
  operations : ∀ operation ∈ state.operations,
    OperationAt (tenure operation.caller) state.world.fs operation
  absent : ∀ sort, (tenure sort).Clear → state.world.fs.dirs sort = false

/-- What a sort may turn to with what it still has under way. -/
structure Forward (state : SortState Keys Values) (sort : Nat) (tenure next : Tenure) : Prop where
  calls : ∀ call ∈ state.waiting, call.caller = sort → next.Runs call.job
  operations : ∀ operation ∈ state.operations, operation.caller = sort → operation.scope ≠ none →
    operation.Executing → next.Runs operation.job
  begun : tenure ≠ .fresh → next ≠ .fresh
  closing : tenure.stage ≠ .working → next.stage ≠ .working
  absent : next.Clear → state.world.fs.dirs sort = false

theorem Tenured.forward (tenured : Tenured tenure state) {sort : Nat} {next : Tenure}
    (runs : ∀ job, (tenure sort).Runs job → next.Runs job)
    (begun : tenure sort ≠ .fresh → next ≠ .fresh)
    (closing : (tenure sort).stage ≠ .working → next.stage ≠ .working)
    (absent : next.Clear → state.world.fs.dirs sort = false) :
    Forward state sort (tenure sort) next := by
  refine ⟨?_, ?_, begun, closing, absent⟩
  · rintro call member rfl
    exact runs _ (tenured.calls call member).runs
  · rintro operation member rfl performed executing
    exact runs _ ((tenured.operations operation member).runs performed executing)

theorem Tenured.forward_during (tenured : Tenured tenure state) (sort : Nat) {Key Value : Type}
    (op : Request Key Value) : Forward state sort (tenure sort) ((tenure sort).during op) := by
  apply tenured.forward
  · exact fun job => Tenure.runs_during op
  · exact Tenure.during_ne_fresh op
  · rw [Tenure.stage_during]
    exact during_ne_working op
  · exact fun clear => tenured.absent sort (Tenure.clear_of_during clear)

/-- The outcome of a removal, whatever it is, lets further removals run. -/
theorem Tenured.forward_removing (tenured : Tenured tenure state) {sort : Nat} {next : Tenure}
    (removing : tenure sort = .removing) (closing : next.stage = .removing)
    (runs : ∀ job, IsRemoval job → next.Runs job)
    (absent : next.Clear → state.world.fs.dirs sort = false) :
    Forward state sort (tenure sort) next := by
  apply tenured.forward
  · rw [removing]
    exact runs
  · rintro - rfl
    cases closing
  · rw [closing]
    exact fun _ => Stage.noConfusion
  · exact absent

theorem Tenured.forward_quiet (tenured : Tenured tenure state) {permits : Nat}
    (conserved : state.Conserved permits) {sort : Nat} (settled : state.pending sort = 0) :
    Forward state sort (tenure sort) .quiet := by
  obtain ⟨nobody, ended⟩ := conserved.idle settled
  refine ⟨?_, ?_, fun _ => Tenure.noConfusion, fun _ => Stage.noConfusion, ?_⟩
  · intro call member own
    exact absurd ((tenured.calls call member).scope.trans own) (nobody call member)
  · intro operation member own performed executing
    obtain scope | ⟨none, -⟩ := (tenured.operations operation member).scope
    · exact absurd executing (ended operation member (own ▸ scope)).1
    · exact absurd none performed
  · rintro (impossible | impossible) <;> cases impossible

/-- A step of one sort, which may take it to its next tenure. -/
theorem Tenured.advance (tenured : Tenured tenure state) {sort : Nat} {next : Tenure}
    {task : Task (SortActor (Keys sort) (Values sort))}
    (same : ∀ other, other ≠ sort → state'.tasks other = state.tasks other)
    (set : state'.tasks sort = some task) (known : TaskAt sort next (some task))
    (fs : state'.world.fs = state.world.fs)
    (calls : ∀ call ∈ state'.waiting, call ∈ state.waiting ∨ call.caller = sort ∧ CallAt next call)
    (operations : ∀ operation ∈ state'.operations,
      (∃ old ∈ state.operations, ∃ attached, operation = { old with attached }) ∨
        operation.caller = sort ∧ OperationAt next state.world.fs operation)
    (forward : Forward state sort (tenure sort) next) :
    Tenured (Function.update tenure sort next) state' := by
  constructor
  · intro other
    by_cases own : other = sort
    · subst own
      rw [Function.update_self, set]
      exact known
    · rw [Function.update_of_ne own, same other own]
      exact tenured.tasks other
  · intro call member
    by_cases own : call.caller = sort
    · rw [own, Function.update_self]
      obtain earlier | ⟨-, fresh⟩ := calls call member
      · exact { tenured.calls call earlier with runs := forward.calls call earlier own }
      · exact fresh
    · rw [Function.update_of_ne own]
      obtain earlier | ⟨caller, -⟩ := calls call member
      · exact tenured.calls call earlier
      · exact absurd caller own
  · intro operation member
    rw [fs]
    by_cases own : operation.caller = sort
    · rw [own, Function.update_self]
      obtain ⟨old, earlier, attached, rfl⟩ | ⟨-, fresh⟩ := operations operation member
      · have before := tenured.operations old earlier
        rw [show old.caller = sort from own] at before
        have after := before.onward (forward.begun before.begun)
          (forward.operations old earlier own)
          forward.closing
        exact { after with }
      · exact fresh
    · rw [Function.update_of_ne own]
      obtain ⟨old, earlier, attached, rfl⟩ | ⟨caller, -⟩ := operations operation member
      · exact { tenured.operations old earlier with }
      · exact absurd caller own
  · intro other clear
    rw [fs]
    by_cases own : other = sort
    · subst own
      rw [Function.update_self] at clear
      exact forward.absent clear
    · rw [Function.update_of_ne own] at clear
      exact tenured.absent other clear

theorem Tenured.within (tenured : Tenured tenure state) {sort : Nat}
    {task : Task (SortActor (Keys sort) (Values sort))}
    (same : ∀ other, other ≠ sort → state'.tasks other = state.tasks other)
    (set : state'.tasks sort = some task) (known : TaskAt sort (tenure sort) (some task))
    (fs : state'.world.fs = state.world.fs) (calls : ∀ call ∈ state'.waiting, call ∈ state.waiting)
    (operations : ∀ operation ∈ state'.operations,
      ∃ old ∈ state.operations, ∃ attached, operation = { old with attached }) :
    Tenured tenure state' := by
  have forward : Forward state sort (tenure sort) (tenure sort) :=
    tenured.forward (fun _ => id) id id (tenured.absent sort)
  have advanced := tenured.advance same set known fs (fun call member => .inl (calls call member))
    (fun operation member => .inl (operations operation member)) forward
  rwa [Function.update_eq_self] at advanced

theorem Tenured.workers (tenured : Tenured tenure state) (tasks : state'.tasks = state.tasks)
    (calls : ∀ call ∈ state'.waiting, call ∈ state.waiting)
    (operations : ∀ operation ∈ state'.operations,
      OperationAt (tenure operation.caller) state'.world.fs operation)
    (absent : ∀ sort, (tenure sort).Clear → state'.world.fs.dirs sort = false) :
    Tenured tenure state' where
  tasks := by
    rw [tasks]
    exact tenured.tasks
  calls call member := tenured.calls call (calls call member)
  operations := operations
  absent := absent

theorem Tenured.removal_ended (tenured : Tenured tenure state) {operation : Operation Nat}
    (member : operation ∈ state.operations) (removal : IsRemoval operation.job) {value}
    (ended : operation.outcome = some (.ok value)) :
    state.world.fs.dirs operation.caller = false :=
  (tenured.operations operation member).removed removal value ended

/-- In this step the task that the dropped guard of a sort has spawned is told that
the removal of the directory has failed. -/
def ReportsFailure (sort : Nat) (state state' : SortState Keys Values) : Prop :=
  ∃ operation ∈ state.operations, operation.caller = sort ∧ operation.job = .removeDirAll sort ∧
    operation.attached = true ∧ (∃ error, operation.outcome = some (.error error)) ∧
    (∃ guard, state.tasks sort = some ⟨.running false (removalTurn sort guard), true⟩) ∧
    state'.tasks sort = some ⟨.running false (.done .gone), false⟩

/-- The tenures after a step; a sort whose cleanup is reported was so before, or is
told in this step, and a sort that no longer works does not start again. -/
def Continues (tenure : Nat → Tenure) (state state' : SortState Keys Values) : Prop :=
  ∃ tenure', Tenured tenure' state' ∧
    (∀ sort, tenure' sort = .reported → tenure sort = .reported ∨
      ReportsFailure sort state state') ∧
    ∀ sort, (tenure sort).stage ≠ .working → (tenure' sort).stage ≠ .working

theorem Tenured.continues (tenured : Tenured tenure state') : Continues tenure state state' :=
  ⟨tenure, tenured, fun _ => .inl, fun _ => id⟩

theorem Tenured.turns {sort : Nat} {next : Tenure}
    (tenured : Tenured (Function.update tenure sort next) state')
    (forward : Forward state sort (tenure sort) next)
    (reported : next = .reported → tenure sort = .reported ∨ ReportsFailure sort state state') :
    Continues tenure state state' := by
  refine ⟨_, tenured, fun other same => ?_, fun other closing => ?_⟩
  · by_cases own : other = sort
    · subst own
      rw [Function.update_self] at same
      exact reported same
    · rw [Function.update_of_ne own] at same
      exact .inl same
  · by_cases own : other = sort
    · subst own
      rw [Function.update_self]
      exact forward.closing closing
    · rw [Function.update_of_ne own]
      exact closing

theorem Tenured.replace {before after : List (Operation Nat)} {operation changed : Operation Nat}
    (tenured : Tenured tenure state) (tasks : state'.tasks = state.tasks)
    (waiting : state'.waiting = state.waiting)
    (split : state.operations = before ++ operation :: after)
    (split' : state'.operations = before ++ changed :: after)
    (fs : state'.world.fs = state.world.fs)
    (caller : changed.caller = operation.caller)
    (known : OperationAt (tenure operation.caller) state.world.fs changed) :
    Tenured tenure state' := by
  apply tenured.workers tasks
  · rw [waiting]
    exact fun _ => id
  · have others := tenured.operations
    rw [split, List.forall_mem_append, List.forall_mem_cons] at others
    rw [split', fs, List.forall_mem_append, List.forall_mem_cons, caller]
    exact ⟨others.1, known, others.2.2⟩
  · rw [fs]
    exact tenured.absent

/-- A call of a worker leaves alone the directories that are gone. -/
theorem Tenured.work {before after : List (Operation Nat)} {operation : Operation Nat}
    {left op resume}
    {reply : Except SorterError op.Value} {fs : Fs} (tenured : Tenured tenure state)
    (split : state.operations = before ++ operation :: after) (executing : operation.Executing)
    (issued : operation.work = .request left op resume) (step : op.Step state.world.fs reply fs)
    (tasks : state'.tasks = state.tasks) (waiting : state'.waiting = state.waiting)
    (split' : state'.operations = before ++ { operation with work := resume reply } :: after)
    (world : state'.world.fs = fs) : Tenured tenure state' := by
  have others := tenured.operations
  rw [split, List.forall_mem_append, List.forall_mem_cons] at others
  obtain ⟨earlier, known, later⟩ := others
  have kept : ∀ other : Operation Nat,
      OperationAt (tenure other.caller) state.world.fs other → OperationAt (tenure other.caller)
        fs other := by
    intro other there
    apply there.congr_fs
    intro closing absent
    apply known.step_absent executing issued step ?_ absent
    intro own
    rw [← own]
    exact closing
  apply tenured.workers tasks
  · rw [waiting]
    exact fun _ => id
  · rw [split', world, List.forall_mem_append, List.forall_mem_cons]
    refine ⟨?_, known.works executing issued step, ?_⟩
    · exact fun other member => kept other (earlier other member)
    · exact fun other member => kept other (later other member)
  · rw [world]
    intro sort clear
    apply known.step_absent executing issued step ?_ (tenured.absent sort clear)
    rintro rfl
    obtain fresh | removed := clear
    · exact absurd fresh known.begun
    · rw [removed]
      exact Stage.noConfusion

theorem tenured_initial (permits : Nat) (fs : Fs) (absent : ∀ sort, fs.dirs sort = false) :
    Tenured (fun _ => .fresh) (.initial permits ⟨fs, ()⟩ : SortState Keys Values) where
  tasks _ := rfl
  calls _ member := absurd member List.not_mem_nil
  operations _ member := absurd member List.not_mem_nil
  absent sort _ := absent sort

theorem exists_kept {before after : List (Operation Nat)} {operation : Operation Nat}
    (split : state.operations = before ++ operation :: after) :
    ∀ other ∈ before ++ after, ∃ old ∈ state.operations, ∃ attached, other =
      { old with attached } := by
  intro other member
  refine ⟨other, ?_, other.attached, rfl⟩
  rw [split, List.mem_append, List.mem_cons]
  rw [List.mem_append] at member
  exact member.imp_right .inr

/-- A result is delivered: that of a removal ends the tenure, any other leaves it. -/
theorem Tenured.deliver (tenured : Tenured tenure state) {before after : List (Operation Nat)}
    {operation : Operation Nat} {result}
    {actor actor' : SortActor (Keys operation.caller) (Values operation.caller)}
    (split : state.operations = before ++ operation :: after) (attached : operation.attached = true)
    (ended : operation.outcome = some result)
    (task : state.tasks operation.caller = some ⟨actor, true⟩)
    (resumes : actor.Resumes (.job operation.scope operation.held operation.job) result actor') :
    Continues tenure state
      { state.setTask operation.caller actor' false with operations := before ++ after } := by
  have member : operation ∈ state.operations := by simp [split]
  have kept := exists_kept split
  have known := tenured.tasks operation.caller
  rw [task] at known
  obtain ⟨next, learned, outcome⟩ := taskAt_delivered known resumes
  obtain rfl | ⟨removal, removing, ⟨⟨value, rfl⟩, rfl⟩ | ⟨⟨error, rfl⟩, rfl, told⟩⟩ := outcome
  · apply Tenured.continues
    exact tenured.within (fun _ => State.setTask_ne _ _) (State.setTask_same _ _ _) learned rfl
      (fun _ => id) kept
  · have forward : Forward state operation.caller (tenure operation.caller) .removed :=
      tenured.forward_removing removing rfl (fun _ => id)
        fun _ => tenured.removal_ended member removal ended
    refine Tenured.turns ?_ forward Tenure.noConfusion
    exact tenured.advance (fun _ => State.setTask_ne _ _) (State.setTask_same _ _ _) learned rfl
      (fun _ => .inl) (fun other member => .inl (kept other member)) forward
  · have forward : Forward state operation.caller (tenure operation.caller) .reported := by
      apply tenured.forward_removing removing rfl (fun _ => id)
      rintro (impossible | impossible) <;> cases impossible
    refine Tenured.turns ?_ forward fun _ => .inr ?_
    · exact tenured.advance (fun _ => State.setTask_ne _ _) (State.setTask_same _ _ _) learned rfl
        (fun _ => .inl) (fun other member => .inl (kept other member)) forward
    · obtain ⟨job, ⟨guard, rfl⟩, rfl⟩ := told
      exact ⟨operation, member, rfl, job, attached, ⟨error, ended⟩, ⟨guard, task⟩,
        State.setTask_same _ _ _⟩

end States

end SortGovernor.Runtime
