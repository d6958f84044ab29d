import SortGovernor.Runtime.ScratchOwners

/-!
# What the sorts own in every run

Every step keeps what the sorts own.  So in every interleaving someone answers for a
directory as long as it may be there, and a sort that fits in memory has none.
-/

namespace SortGovernor.Runtime

open SortGovernor.Engine SortGovernor.Resumption

section Runs

variable {Keys Values : Nat → Type} [(sort : Nat) → LinearOrder (Keys sort)]
  [(sort : Nat) → Layout (Keys sort) (Values sort)]
  {codec : (sort : Nat) → Codec (Keys sort) (Values sort)}
  {state state' : SortState Keys Values} {tenure : Nat → Tenure} {event : Event Nat}

/-- Every step keeps what the sorts own. -/
theorem Tenured.step (tenured : Tenured tenure state) {permits : Nat}
    (conserved : state.Conserved permits) (step : Step (sorts codec) state event state') :
    Continues tenure state state' := by
  have same : ∀ other ∈ state.operations,
      ∃ old ∈ state.operations, ∃ attached, other = { old with attached } :=
    fun other member => ⟨other, member, other.attached, rfl⟩
  cases step with
  | @start sort actor absent starts =>
      obtain ⟨plan, dedup, hold, rfl⟩ := starts
      have fresh : tenure sort = .fresh := by
        have task := tenured.tasks sort
        rwa [absent] at task
      apply Tenured.continues
      refine tenured.within (fun _ => State.setTask_ne _ _) (State.setTask_same _ _ _) ?_ rfl
        (fun _ => id) same
      rw [fresh]
      refine ⟨rfl, .inr ⟨⟨sessionOf_new plan sort dedup hold, rfl, ?_, ?_, rfl⟩, rfl⟩⟩
      · exact fun reserved => absurd reserved Bool.false_ne_true
      · exact fun stored => absurd rfl stored
  | @fork sort child actor childActor world task absent forks => exact forks.elim
  | @move sort actor actor' world task moves =>
      have known := tenured.tasks sort
      rw [task] at known
      have files : world.fs = state.world.fs := by
        cases moves with
        | answer immediate answers => exact answers.fs_eq
        | _ => rfl
      apply Tenured.continues
      exact tenured.within (fun _ => State.setTask_ne _ _) (State.setTask_same _ _ _)
        (taskAt_moves known moves) files (fun _ => id) same
  | @request sort actor scope held job task awaits =>
      obtain ⟨cancellable, left, op, resume, rfl, issued⟩ := exists_request_of_awaits awaits
      obtain rfl := await_eq_perform issued
      have known := tenured.tasks sort
      rw [task] at known
      obtain ⟨allowed, suspended⟩ := taskAt_asks known
      have forward := tenured.forward_during sort
        (.perform scope held job : Request (Keys sort) (Values sort))
      refine Tenured.turns ?_ forward fun same => .inl (Tenure.reported_of_during same)
      refine tenured.advance (fun _ => State.setTask_ne _ _)
        (State.setTask_same _ _ _) suspended rfl
        ?_ (fun other member => .inl (same other member)) forward
      intro call member
      rcases List.mem_append.mp member with earlier | last
      · exact .inl earlier
      · rw [List.mem_singleton.mp last]
        exact .inr ⟨rfl, allowed.1, allowed.2.1, Tenure.runs_of_allowed allowed⟩
  | @inPlace sort actor job task awaits =>
      obtain ⟨cancellable, left, op, resume, rfl, issued⟩ := exists_request_of_awaits awaits
      obtain rfl := await_eq_direct issued
      have known := tenured.tasks sort
      rw [task] at known
      obtain ⟨⟨working, file, rfl⟩, suspended⟩ := taskAt_asks known
      have forward := tenured.forward_during sort
        (.direct (.removeIfExists ⟨sort, file⟩) : Request (Keys sort) (Values sort))
      refine Tenured.turns ?_ forward fun same => .inl (Tenure.reported_of_during same)
      refine tenured.advance (fun _ => State.setTask_ne _ _)
        (State.setTask_same _ _ _) suspended rfl
        (fun _ => .inl) ?_ forward
      intro operation member
      rcases List.mem_append.mp member with earlier | last
      · exact .inl (same operation earlier)
      · rw [List.mem_singleton.mp last]
        exact .inr ⟨rfl, operationAt_inPlace sort file _ Tenure.begun_of_direct⟩
  | @suspend sort actor awaited task awaits other =>
      obtain ⟨cancellable, left, op, resume, rfl, issued⟩ := exists_request_of_awaits awaits
      have known := tenured.tasks sort
      rw [task] at known
      obtain ⟨-, suspended⟩ := taskAt_asks known
      have stays : (tenure sort).during op = tenure sort := by
        cases op with
        | perform | direct =>
            obtain rfl := Option.some.inj issued
            exact absurd rfl (other _ _ _)
        | _ => rfl
      rw [stays] at suspended
      apply Tenured.continues
      exact tenured.within (fun _ => State.setTask_ne _ _) (State.setTask_same _ _ _) suspended rfl
        (fun _ => id) same
  | @acquire before call after split free =>
      apply Tenured.continues
      refine tenured.workers rfl ?_ ?_ tenured.absent
      · intro other member
        rw [split, List.mem_append, List.mem_cons]
        exact (List.mem_append.mp member).imp_right .inr
      · intro operation member
        rcases List.mem_append.mp member with earlier | last
        · exact tenured.operations operation earlier
        · rw [List.mem_singleton.mp last]
          exact (tenured.calls call (by simp [split])).spawn _
  | work split executing issued replies =>
      apply Tenured.continues
      exact tenured.work split executing issued replies rfl rfl rfl rfl
  | @finish before operation after result split executing ended =>
      have known := tenured.operations operation (by simp [split])
      apply Tenured.continues
      exact tenured.replace rfl rfl split rfl rfl rfl (known.finishes executing ended)
  | @panic before operation after text split executing bounded =>
      have known := tenured.operations operation (by simp [split])
      apply Tenured.continues
      refine tenured.replace rfl rfl split rfl rfl rfl
        { known with runs := ?_, removes := ?_, removed := ?_ }
      · exact fun _ executing => nomatch executing
      · exact fun _ executing => nomatch executing
      · exact fun _ _ succeeded => nomatch succeeded
  | @release before operation after holding owned split ended owns =>
      have known := tenured.operations operation (by simp [split])
      apply Tenured.continues
      exact tenured.replace (State.release_tasks ..) (State.release_waiting ..) split rfl
        (congrArg World.fs (State.release_world ..)) rfl { known with }
  | deliver split attached ended released task resumes =>
      exact tenured.deliver split attached ended task resumes
  | @dispose before operation after split attached ended owned =>
      apply Tenured.continues
      refine tenured.workers rfl (fun _ => id) ?_ tenured.absent
      intro other member
      obtain ⟨old, earlier, attached, rfl⟩ := exists_kept split other member
      exact { tenured.operations old earlier with }
  | @idle sort actor scope actor' task awaits settled resumes =>
      obtain ⟨cancellable, left, op, resume, rfl, issued⟩ := exists_request_of_awaits awaits
      obtain rfl := await_eq_idle issued
      have known := tenured.tasks sort
      rw [task] at known
      obtain rfl : scope = sort := taskAt_idle_scope known
      have forward := tenured.forward_quiet conserved settled
      refine Tenured.turns ?_ forward Tenure.noConfusion
      exact tenured.advance (fun _ => State.setTask_ne _ _) (State.setTask_same _ _ _)
        (taskAt_idles known resumes) rfl (fun _ => .inl)
          (fun other member => .inl (same other member))
        forward
  | wake task awaits woken resumes => exact woken.elim
  | @cancelWaiting sort actor actor' before call after task cancels split caller =>
      have known := tenured.tasks sort
      rw [task] at known
      apply Tenured.continues
      refine tenured.within (fun _ => State.setTask_ne _ _) (State.setTask_same _ _ _)
        (taskAt_cancels known cancels) rfl ?_ same
      intro other member
      rw [split, List.mem_append, List.mem_cons]
      exact (List.mem_append.mp member).imp_right .inr
  | @cancelRunning sort actor actor' before operation after task cancels split caller attached =>
      have known := tenured.tasks sort
      rw [task] at known
      apply Tenured.continues
      refine tenured.within (fun _ => State.setTask_ne _ _) (State.setTask_same _ _ _)
        (taskAt_cancels known cancels) rfl (fun _ => id) ?_
      intro other member
      rcases List.mem_append.mp member with earlier | later
      · exact same other (by simp [split, earlier])
      · rcases List.mem_cons.mp later with rfl | later
        · exact ⟨operation, by simp [split], false, rfl⟩
        · exact same other (by simp [split, later])
  | @cancelSuspended sort actor actor' awaited task awaits other cancels =>
      have known := tenured.tasks sort
      rw [task] at known
      apply Tenured.continues
      exact tenured.within (fun _ => State.setTask_ne _ _) (State.setTask_same _ _ _)
        (taskAt_cancels known cancels) rfl (fun _ => id) same

theorem Step.files (step : Step (sorts codec) state event state') :
    state'.world.fs = state.world.fs ∨ ∃ operation ∈ state.operations, operation.Executing ∧
      ∃ left op resume reply, operation.work = .request left op resume ∧
        op.Step state.world.fs reply state'.world.fs := by
  cases step with
  | fork task absent forks => exact forks.elim
  | move task moves =>
      left
      cases moves with
      | answer immediate answers => exact answers.fs_eq
      | _ => rfl
  | @work before operation after left op resume reply fs split executing issued replies =>
      exact .inr ⟨operation, by simp [split], executing, left, op, resume, reply, issued, replies⟩
  | @release before operation after holding owned split ended owns =>
      left
      exact congrArg World.fs (State.release_world ..)
  | _ => exact .inl rfl

theorem Reaches.rooted {first : SortState Keys Values} (rooted : first.world.fs.Rooted)
    (reaches : Reaches (sorts codec) anyStep first state) : state.world.fs.Rooted := by
  induction reaches with
  | refl => exact rooted
  | step _ step _ inductionHypothesis =>
      obtain same | ⟨operation, -, -, left, op, resume, reply, -, change⟩ := step.files
      · rw [same]
        exact inductionHypothesis
      · exact change.rooted inductionHypothesis

/-- The sort no longer works, and its directory is gone. -/
def Removed (state : SortState Keys Values) (sort : Nat) : Prop :=
  ∃ tenure, Tenured tenure state ∧ (tenure sort).stage ≠ .working ∧ state.world.fs.dirs sort = false

/-- No step brings a removed directory back, not even one of an operation whose
caller is gone. -/
theorem Removed.step {permits sort : Nat} (removed : Removed state sort)
    (conserved : state.Conserved permits) (step : Step (sorts codec) state event state') :
    Removed state' sort := by
  obtain ⟨tenure, tenured, closing, absent⟩ := removed
  obtain ⟨tenure', tenured', -, stays⟩ := tenured.step conserved step
  refine ⟨tenure', tenured', stays sort closing, ?_⟩
  obtain same | ⟨operation, member, executing, left, op, resume, reply, issued, change⟩ :=
    step.files
  · rw [same]
    exact absent
  · apply (tenured.operations operation member).step_absent executing issued change ?_ absent
    rintro rfl
    exact closing

theorem Removed.reaches {permits sort : Nat} {later : SortState Keys Values}
    (removed : Removed state sort) (conserved : state.Conserved permits)
    (onwards : Reaches (sorts codec) anyStep state later) : Removed later sort := by
  induction onwards with
  | refl => exact removed
  | step reached step _ inductionHypothesis =>
      exact inductionHypothesis.step (reached.conserved conserved) step

/-- An earlier step of the run told the spawned task of the sort that the removal of
its directory has failed. -/
def Reported (codec : (sort : Nat) → Codec (Keys sort) (Values sort))
    (first : SortState Keys Values)
    (sort : Nat) (state : SortState Keys Values) : Prop :=
  ∃ before next event, Reaches (sorts codec) anyStep first before ∧
    Step (sorts codec) before event next ∧ ReportsFailure sort before next ∧
    Reaches (sorts codec) anyStep next state

theorem Reported.step {first : SortState Keys Values} {sort : Nat}
    (reported : Reported codec first sort state) (step : Step (sorts codec) state event state') :
    Reported codec first sort state' := by
  obtain ⟨before, next, event, reached, told, reports, onwards⟩ := reported
  exact ⟨before, next, event, reached, told, reports, .step onwards step trivial⟩

theorem Reaches.tenured {permits : Nat} {fs : Fs} (absent : ∀ sort, fs.dirs sort = false)
    (reaches : Reaches (sorts codec) anyStep (.initial permits ⟨fs, ()⟩) state) :
    ∃ tenure, Tenured tenure state ∧ ∀ sort, tenure sort = .reported →
      Reported codec (.initial permits ⟨fs, ()⟩) sort state := by
  induction reaches with
  | refl =>
      refine ⟨_, tenured_initial permits fs absent, ?_⟩
      exact fun _ reported => nomatch reported
  | @step state event state' reached step _ inductionHypothesis =>
      obtain ⟨tenure, tenured, told⟩ := inductionHypothesis
      obtain ⟨tenure', tenured', follows, -⟩ :=
        tenured.step (reached.conserved (State.conserved_initial _)) step
      refine ⟨tenure', tenured', fun sort reported => ?_⟩
      obtain before | now := follows sort reported
      · exact (told sort before).step step
      · exact ⟨state, state', event, reached, step, now, .refl⟩

def SortOwner.guard {Key Value : Type} : SortOwner Key Value → Option AsyncCleanupGuard
  | .session current => some current.cleanup
  | .stream (.merging _ hold _) => some hold.scratch
  | .stream (.ended scratch) => scratch
  | .dropped armed => some armed
  | _ => none

/-- A task that answers for the directory of its sort: an armed guard is with the
owner it has, or would leave if its call were dropped, or with the task that a
dropped guard has spawned for the removal. -/
def AnswersForSort {Key Value : Type} (sort : Nat) : SortActor Key Value → Prop
  | .running false turn => ∃ guard, ArmedFor sort guard ∧
      (turn = cleanupTurn guard ∨ turn = removalTurn sort guard)
  | actor => ∃ guard, actor.remains.guard = some guard ∧ ArmedFor sort guard

theorem OwnerAt.armed {Key Value : Type} {sort : Nat} {tenure : Tenure}
    {owner : SortOwner Key Value}
    (owned : OwnerAt sort tenure owner) (spilled : ¬tenure.Clear) (untold : tenure ≠ .reported) :
    ∃ guard, owner.guard = some guard ∧ ArmedFor sort guard := by
  cases owner with
  | session current =>
      obtain ⟨-, spilling | ⟨-, fresh⟩⟩ := owned
      · exact ⟨current.cleanup, rfl, spilling.armed⟩
      · exact absurd (.inl fresh) spilled
  | stream rest =>
      cases rest with
      | inMemory => exact absurd (.inl owned) spilled
      | merging merge hold =>
          cases merge with
          | none => exact ⟨hold.scratch, rfl, owned⟩
          | some merge => exact ⟨hold.scratch, rfl, owned.2.2⟩
      | ended scratch =>
          cases scratch with
          | none => exact absurd (.inl owned) spilled
          | some guard =>
              obtain armed | ⟨-, -, clear⟩ := owned
              · exact ⟨guard, rfl, armed⟩
              · exact absurd clear spilled
  | dropped guard =>
      obtain armed | ⟨-, -, clear⟩ := owned
      · exact ⟨guard, rfl, armed⟩
      · exact absurd clear spilled
  | gone => exact absurd owned (not_or.mpr ⟨spilled, untold⟩)

theorem taskAt_answers {Key Value : Type} {sort : Nat} {tenure : Tenure} {suspended : Bool}
    {actor : SortActor Key Value} (task : TaskAt sort tenure (some ⟨actor, suspended⟩))
    (spilled : ¬tenure.Clear) (untold : tenure ≠ .reported) : AnswersForSort sort actor := by
  cases actor with
  | owner owner => exact OwnerAt.armed task spilled untold
  | running cancellable turn =>
      cases cancellable with
      | false =>
          obtain ⟨guard, armed, same | ⟨same, -⟩⟩ | ⟨-, ended⟩ := task
          · exact ⟨guard, armed, .inl same⟩
          · exact ⟨guard, armed, .inr same⟩
          · exact absurd ended (not_or.mpr ⟨spilled, untold⟩)
      | true =>
          cases suspended with
          | true =>
              obtain ⟨left, op, resume, before, rfl, turn, rfl⟩ := task
              exact OwnerAt.armed turn.1.2 spilled untold
          | false =>
              cases turn with
              | done owner => exact OwnerAt.armed task spilled untold
              | request left op resume =>
                  exact OwnerAt.armed task.1.2 (fun clear => spilled (Tenure.clear_of_during clear))
                    fun told => untold (Tenure.reported_of_during told)

/-- Something of a sort may be on disk: its directory, or a file that one of its
calls is still to create. -/
def State.MaySpill (state : SortState Keys Values) (sort : Nat) : Prop :=
  state.world.fs.dirs sort = true ∨
    (∃ call ∈ state.waiting, call.caller = sort ∧ ¬IsRemoval call.job) ∨
    ∃ operation ∈ state.operations, operation.caller = sort ∧ operation.scope ≠ none ∧
      operation.Executing ∧ ¬IsRemoval operation.job

omit [(sort : Nat) → LinearOrder (Keys sort)] [(sort : Nat) → Layout (Keys sort) (Values sort)] in
theorem Tenured.not_clear (tenured : Tenured tenure state) {sort : Nat}
    (spills : state.MaySpill sort) :
    ¬(tenure sort).Clear := by
  intro clear
  obtain present | ⟨call, member, rfl, ordinary⟩ | ⟨operation, member, rfl, performed, executing,
    ordinary⟩ := spills
  · rw [tenured.absent sort clear] at present
    cases present
  · have runs := (tenured.calls call member).runs
    obtain fresh | removed := clear
    · rw [fresh] at runs
      exact runs
    · rw [removed] at runs
      exact ordinary runs
  · have runs := (tenured.operations operation member).runs performed executing
    obtain fresh | removed := clear
    · rw [fresh] at runs
      exact runs
    · rw [removed] at runs
      exact ordinary runs

/-- In every interleaving, as long as the directory of a sort is there or a call of
the sort may still create something in it, the task of the sort holds an armed guard
with its reservation for the removal, or would leave one behind; else the task
that a dropped guard spawned was told that the removal has failed. -/
theorem sort_scratch_answered {permits : Nat} {fs : Fs} (absent : ∀ sort, fs.dirs sort = false)
    (reaches : Reaches (sorts codec) anyStep (.initial permits ⟨fs, ()⟩) state) (sort : Nat)
    (spills : state.MaySpill sort) :
    (∃ task, state.tasks sort = some task ∧ AnswersForSort sort task.actor) ∨
      Reported codec (.initial permits ⟨fs, ()⟩) sort state := by
  obtain ⟨tenure, tenured, told⟩ := reaches.tenured absent
  have spilled := tenured.not_clear spills
  by_cases reported : tenure sort = .reported
  · exact .inr (told sort reported)
  · have known := tenured.tasks sort
    cases found : state.tasks sort with
    | none =>
        rw [found] at known
        exact absurd (.inl known) spilled
    | some task =>
        rw [found] at known
        exact .inl ⟨task, rfl, taskAt_answers known spilled reported⟩

/-- The caller drops a push that creates the directory, and then the session; the
task of the guard has just started. -/
def droppedSession : SortScript :=
  [.choose (.start 0 (.new (.external 1 2) false)), .choose (.move 0 (.push 1 1 1)),
    .drive 0 .finish (fun task => task.suspended) 100, .choose (.acquire 0), .choose (.cancel 0),
    .choose (.move 0 .dropSession), .choose (.move 0 .finish), .choose (.move 0 .cleanup)]

theorem sort_scratch_answered_dropped :
    ∃ state, Reaches byteSorts anyStep onePermit state ∧
      (state.operations.map fun operation => (operation.caller, operation.job)) =
        [(0, .ensureDir 0)] ∧
      ((∃ task, state.tasks 0 = some task ∧ AnswersForSort 0 task.actor) ∨
        Reported (fun _ => byteRows.codec) onePermit 0 state) := by
  obtain ⟨state, reached, tested⟩ :=
      reaches_of_runScript (fun _ => true) droppedSession (fun state =>
    state.operations.map (fun operation => (operation.caller, operation.job, operation.scope,
      operation.outcome.isNone)) = [(0, .ensureDir 0, some 0, true)])
    (fun _ _ _ => trivial) (by decide +kernel)
  obtain ⟨operation, rest, split, runs, operations⟩ :=
    List.map_eq_cons_iff.mp (of_decide_eq_true tested)
  obtain rfl := List.map_eq_nil_iff.mp operations
  simp only [Prod.mk.injEq] at runs
  obtain ⟨caller, job, scope, unended⟩ := runs
  have spills : state.MaySpill 0 := by
    refine .inr (.inr ⟨operation, by simp [split], caller, by simp [scope], ?_, ?_⟩)
    · exact Option.isNone_iff_eq_none.mp unended
    · rw [job]
      exact id
  refine ⟨state, reached, ?_, sort_scratch_answered (fun _ => rfl) reached 0 spills⟩
  simp [split, caller, job]

/-- An owner with all its rows in memory. -/
def SortOwner.InMemory {Key Value : Type} : SortOwner Key Value → Prop
  | .session current => current.nextRun = 0
  | .stream (.inMemory ..) => True
  | _ => False

theorem OwnerAt.fresh {Key Value : Type} {sort : Nat} {tenure : Tenure}
    {owner : SortOwner Key Value}
    (owned : OwnerAt sort tenure owner) (inMemory : owner.InMemory) : tenure = .fresh := by
  cases owner with
  | session current =>
      obtain ⟨-, spilling | ⟨-, fresh⟩⟩ := owned
      · exact absurd inMemory spilling.spilled
      · exact fresh
  | stream rest =>
      cases rest with
      | inMemory => exact owned
      | _ => exact inMemory.elim
  | _ => exact inMemory.elim

theorem taskAt_fresh {Key Value : Type} {sort : Nat} {tenure : Tenure} {suspended : Bool}
    {actor : SortActor Key Value} (task : TaskAt sort tenure (some ⟨actor, suspended⟩))
    (inMemory : actor.remains.InMemory) : tenure = .fresh := by
  cases actor with
  | owner owner => exact OwnerAt.fresh task inMemory
  | running cancellable turn =>
      cases cancellable with
      | false =>
          obtain ⟨guard, armed, rfl | ⟨rfl, -⟩⟩ | ⟨rfl, -⟩ := task
          · rw [cleanupTurn_armed armed] at inMemory
            exact inMemory.elim
          · exact inMemory.elim
          · exact inMemory.elim
      | true =>
          cases suspended with
          | true =>
              obtain ⟨left, op, resume, before, rfl, turn, rfl⟩ := task
              exact OwnerAt.fresh turn.1.2 inMemory
          | false =>
              cases turn with
              | done owner => exact OwnerAt.fresh task inMemory
              | request left op resume =>
                  have fresh := OwnerAt.fresh task.1.2 inMemory
                  by_contra begun
                  exact Tenure.during_ne_fresh op begun fresh

/-- A sort that has all its rows in memory has never touched the disk: it has no
directory, and no operation of it waits or runs. -/
theorem unspilled_untouched {permits : Nat} {fs : Fs} (absent : ∀ sort, fs.dirs sort = false)
    (reaches : Reaches (sorts codec) anyStep (.initial permits ⟨fs, ()⟩) state) (sort : Nat)
    (task : Task (SortActor (Keys sort) (Values sort))) (found : state.tasks sort = some task)
    (inMemory : task.actor.remains.InMemory) :
    state.world.fs.dirs sort = false ∧ (∀ call ∈ state.waiting, call.caller ≠ sort) ∧
      ∀ operation ∈ state.operations, operation.caller ≠ sort := by
  obtain ⟨tenure, tenured, -⟩ := reaches.tenured absent
  have known := tenured.tasks sort
  rw [found] at known
  have fresh : tenure sort = .fresh := taskAt_fresh known inMemory
  refine ⟨tenured.absent sort (.inl fresh), ?_, ?_⟩
  · rintro call member rfl
    have runs := (tenured.calls call member).runs
    rw [fresh] at runs
    exact runs
  · rintro operation member rfl
    exact (tenured.operations operation member).begun fresh

/-- A sort that holds its rows in memory beside one that writes a frame to its run. -/
theorem unspilled_untouched_beside :
    ∃ state, ∃ session : SortSession Nat Nat, ∃ operation,
      Reaches byteSorts anyStep onePermit state ∧
      sessionAt 1 state = some session ∧ session.buffer.length = 2 ∧
      state.operations = [operation] ∧ operation.Executing ∧
      state.world.fs.dirs 1 = false ∧ operation.caller ≠ 1 := by
  obtain ⟨state, session, operation, reached, found, rows, unspilled, split, flight⟩ :=
    exists_frameInFlight
  have anywhere := reached.mono fun _ _ _ => trivial
  obtain ⟨suspended, task⟩ := tasks_of_sessionAt found
  obtain ⟨untouched, -, others⟩ := unspilled_untouched (fun _ => rfl) anywhere 1 _ task unspilled
  exact ⟨state, session, operation, anywhere, found, rows, split, flight.2.2.1, untouched,
    others operation (by simp [split])⟩

/-- Once a removal of a directory has succeeded, the directory and its files are gone
for good: no later step of any sort brings one of them back. -/
theorem removal_final {permits : Nat} {fs : Fs} (absent : ∀ sort, fs.dirs sort = false)
    (rooted : fs.Rooted) (reaches : Reaches (sorts codec) anyStep (.initial permits ⟨fs, ()⟩) state)
    {operation : Operation Nat} (member : operation ∈ state.operations) {dir : ScratchDir}
    (removal : operation.job = .removeDirAll dir) {value}
    (succeeded : operation.outcome = some (.ok value)) {later : SortState Keys Values}
    (onwards : Reaches (sorts codec) anyStep state later) :
    later.world.fs.dirs dir = false ∧ ∀ path, path.dir = dir →
      later.world.fs.files path = none := by
  obtain ⟨tenure, tenured, -⟩ := reaches.tenured absent
  have known := tenured.operations operation member
  have closes : IsRemoval operation.job := by
    rw [removal]
    trivial
  obtain rfl : dir = operation.caller := by
    rw [← known.dir, removal]
    rfl
  have removed : Removed state operation.caller :=
    ⟨tenure, tenured, known.closing closes, known.removed closes value succeeded⟩
  have conserved := reaches.conserved (State.conserved_initial _)
  obtain ⟨-, -, -, gone⟩ := removed.reaches conserved onwards
  refine ⟨gone, fun path inside => ?_⟩
  apply (onwards.rooted (reaches.rooted rooted)) path
  rw [inside]
  exact gone

/-- The removal succeeds while the removal of a file in the directory executes. -/
def thenRemoved : SortScript := [.choose (.work 1), .choose (.work 1)]

/-- That one ends afterwards. -/
def thenEnded : SortScript := [.choose (.work 0), .choose (.work 0)]

theorem removal_final_ended :
    ∃ state later, Reaches byteSorts anyStep onePermit state ∧
      (state.operations.map fun operation => (operation.job, operation.outcome.any Except.isOk)) =
        [(.removeIfExists ⟨0, .run 0⟩, false), (.removeDirAll 0, true)] ∧
      Reaches byteSorts anyStep state later ∧
      (later.operations.map fun operation => operation.outcome.isSome) = [true, true] ∧
      later.world.fs.dirs 0 = false ∧ ∀ path, path.dir = 0 → later.world.fs.files path = none := by
  obtain ⟨state, reached, tested⟩ := reaches_of_runScript (fun _ => true)
    (toRemoval ++ thenDropped ++ thenRemoved) (fun state =>
      state.operations.map (fun operation => (operation.job, operation.outcome.any Except.isOk)) =
        [(.removeIfExists ⟨0, .run 0⟩, false), (.removeDirAll 0, true)] &&
      ((sortScripts byteRows).perform (fun _ => true) thenEnded state).any fun later =>
        later.operations.map (fun operation => operation.outcome.isSome) = [true, true])
    (fun _ _ _ => trivial) (by decide +kernel)
  obtain ⟨now, onwards⟩ := (Bool.and_eq_true _ _).mp tested
  obtain ⟨later, performed, ended⟩ := (Option.any_eq_true _ _).mp onwards
  have onwards : Reaches byteSorts anyStep state later :=
    Executable.perform_sound (fun _ _ _ => trivial) .refl performed
  obtain ⟨first, rest, split, -, operations⟩ := List.map_eq_cons_iff.mp (of_decide_eq_true now)
  obtain ⟨second, rest, rfl, removal, operations⟩ := List.map_eq_cons_iff.mp operations
  obtain rfl := List.map_eq_nil_iff.mp operations
  obtain ⟨job, done⟩ := Prod.mk.inj removal
  obtain ⟨result, succeeded, ok⟩ := (Option.any_eq_true _ _).mp done
  cases result with
  | error error => cases ok
  | ok value =>
      have gone := removal_final (fun _ => rfl) (fun _ _ => rfl) reached
        (by simp [split]) job succeeded
        onwards
      exact ⟨state, later, reached, of_decide_eq_true now, onwards, of_decide_eq_true ended, gone⟩

end Runs

end SortGovernor.Runtime
