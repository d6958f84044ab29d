import SortGovernor.Runtime.Turns
import SortGovernor.Runtime.Conservation
import SortGovernor.Runtime.Outstanding

/-!
# Cleanup excludes the other operations of a sort

The live operations of a sort are those in the queue and those a worker
executes.  They follow the stage of the sort: none of a working sort removes its
directory, none is left once its scope was idle, and a removal is alone.
-/

namespace SortGovernor.Runtime

open SortGovernor.Engine SortGovernor.Resumption

section Live

variable {Client Shared : Type} [DecidableEq Client] {Actor : Client → Type}
  {state state' : State Shared Actor} {before after : List (Operation Client)}
  {operation changed : Operation Client}

/-- The jobs of a client that wait for a permit or execute. -/
def State.live (state : State Shared Actor) (client : Client) : List FsJob :=
  (state.waiting.filter fun call => call.caller = client).map Call.job ++
    (state.operations.filter fun operation =>
      operation.caller = client ∧ operation.Executing).map Operation.job

theorem State.mem_live_of_waiting {call : Call Client} (member : call ∈ state.waiting) :
    call.job ∈ state.live call.caller := by
  apply List.mem_append_left
  exact List.mem_map_of_mem (List.mem_filter.mpr ⟨member, decide_eq_true rfl⟩)

theorem State.mem_live_of_executing (member : operation ∈ state.operations)
    (executing : operation.Executing) : operation.job ∈ state.live operation.caller := by
  apply List.mem_append_right
  exact List.mem_map_of_mem (List.mem_filter.mpr ⟨member, decide_eq_true ⟨rfl, executing⟩⟩)

theorem State.live_replace (waiting : state'.waiting = state.waiting)
    (split : state.operations = before ++ operation :: after)
    (split' : state'.operations = before ++ changed :: after)
    (caller : changed.caller = operation.caller) (job : changed.job = operation.job)
    (executing : changed.Executing → operation.Executing) (client : Client) :
    (state'.live client).Subperm (state.live client) := by
  apply List.Sublist.subperm
  have kept : ((if changed.caller = client ∧ changed.Executing then [changed] else []).map
        Operation.job).Sublist
      ((if operation.caller = client ∧ operation.Executing then [operation] else []).map
        Operation.job) := by
    by_cases runs : changed.caller = client ∧ changed.Executing
    · rw [if_pos runs, if_pos ⟨caller ▸ runs.1, executing runs.2⟩, List.map_singleton,
        List.map_singleton, job]
    · rw [if_neg runs]
      exact List.nil_sublist _
  have cons : ∀ head : Operation Client, head :: after = [head] ++ after := fun _ => rfl
  simp only [State.live, waiting, split, split', cons, List.filter_append, List.map_append,
    List.filter_cons, List.filter_nil, decide_eq_true_eq]
  exact ((kept.append_right _).append_left _).append_left _

theorem State.live_remove (waiting : state'.waiting.Sublist state.waiting)
    (operations : state'.operations.Sublist state.operations) (client : Client) :
    (state'.live client).Subperm (state.live client) :=
  (((waiting.filter _).map _).append ((operations.filter _).map _)).subperm

theorem State.live_acquire {before after : List (Call Client)} {call : Call Client}
    (split : state.waiting = before ++ call :: after)
    (waiting : state'.waiting = before ++ after)
    (operations : state'.operations = state.operations ++ [.spawn call]) (client : Client) :
    (state'.live client).Subperm (state.live client) := by
  apply List.Perm.subperm
  have spawned :
    decide ((Operation.spawn call).caller = client ∧ (Operation.spawn call).Executing) =
      decide (call.caller = client) :=
    decide_eq_decide.mpr (and_iff_left rfl)
  simp only [State.live, split, waiting, operations, List.filter_append, List.filter_cons,
    List.filter_nil, List.map_append, spawned]
  split
  · simp only [List.map_cons, List.map_nil, ← List.append_assoc]
    apply (List.perm_append_singleton _ _).trans
    exact (List.perm_middle : (_ ++ call.job :: _).Perm _).symm.append_right _
  · simp only [List.map_nil, List.append_nil]
    exact .refl _

theorem State.live_request {call : Call Client}
    (waiting : state'.waiting = state.waiting ++ [call])
    (operations : state'.operations = state.operations) (client : Client) :
    (state'.live client).Perm
      ((if call.caller = client then [call.job] else []) ++ state.live client) := by
  simp only [State.live, waiting, operations, List.filter_append, List.filter_cons,
    List.filter_nil, decide_eq_true_eq, List.map_append, List.append_assoc]
  rw [← List.append_assoc, ← List.append_assoc]
  apply List.Perm.append_right
  split <;> exact List.perm_append_comm

theorem State.live_inPlace {caller : Client} {job : FsJob}
    (waiting : state'.waiting = state.waiting)
    (operations : state'.operations = state.operations ++ [.inPlace caller job])
    (client : Client) :
    (state'.live client).Perm
      ((if caller = client then [job] else []) ++ state.live client) := by
  have executing : (Operation.inPlace caller job).caller = client ∧
      (Operation.inPlace caller job).Executing ↔ caller = client := and_iff_left rfl
  simp only [State.live, waiting, operations, List.filter_append, List.filter_cons,
    List.filter_nil, decide_eq_true_eq, executing, List.map_append, ← List.append_assoc]
  apply List.perm_append_comm.trans
  rw [← List.append_assoc]
  apply List.Perm.append_right
  apply List.Perm.append_right
  split <;> exact .refl _

end Live

variable {Keys Values : Nat → Type}

abbrev SortState (Keys Values : Nat → Type) :=
  State Unit fun sort => SortActor (Keys sort) (Values sort)

/-- A caller never drops a sort while a removal it awaits in place executes. -/
def keepsRemovals (_ : SortState Keys Values) : Event Nat → Prop
  | .cancel _ (some operation) => operation.scope = none → ¬operation.Executing
  | _ => True

def TaskOf {Key Value : Type} (sort : Nat) (stage : Stage) :
    Option (Task (SortActor Key Value)) → Prop
  | none => stage = .working
  | some ⟨.owner owner, _⟩ => OwnerOf sort stage owner
  | some ⟨.running _ turn, false⟩ => TurnOf sort stage turn
  | some ⟨.running _ turn, true⟩ => ∃ left op resume before,
      turn = .request left op resume ∧ TurnOf sort before turn ∧ stage = before.during op

def LiveOf : Stage → List FsJob → Prop
  | .working, live => ∀ job ∈ live, ¬IsRemoval job
  | .quiet, live => live = []
  | .removing, live => live.length ≤ 1 ∧ ∀ job ∈ live, IsRemoval job

theorem LiveOf.mono {stage : Stage} {live live' : List FsJob} (holds : LiveOf stage live)
    (fewer : live'.Subperm live) : LiveOf stage live' := by
  cases stage with
  | working => exact fun job member => holds job (fewer.subset member)
  | quiet =>
      obtain rfl : live = [] := holds
      exact List.subperm_nil.mp fewer
  | removing =>
      exact ⟨fewer.length_le.trans holds.1, fun job member => holds.2 job (fewer.subset member)⟩

theorem LiveOf.issue {Key Value : Type} {sort : Nat} {stage : Stage} {live live' : List FsJob}
    {io : ScopeId} {held : List MemoryCharge} {job : FsJob} (holds : LiveOf stage live)
    (allowed : Allowed sort stage (.perform io held job : Request Key Value))
    (perm : live'.Perm (job :: live)) :
    LiveOf (stage.during (.perform io held job : Request Key Value)) live' := by
  obtain ⟨-, -, ⟨rfl, ordinary⟩ | ⟨rfl, removal⟩⟩ := allowed
  · intro other member
    obtain rfl | member := List.mem_cons.mp (perm.mem_iff.mp member)
    · exact ordinary
    · exact holds other member
  · obtain rfl : live = [] := holds
    constructor
    · exact perm.length_eq.le
    · intro other member
      obtain rfl := List.mem_singleton.mp (perm.mem_iff.mp member)
      exact removal

/-- Every operation stays in its sort's directory and, if it is performed by a
worker, under its sort's scope. -/
structure Local (state : SortState Keys Values) : Prop where
  calls : ∀ call ∈ state.waiting, call.scope = call.caller ∧ call.job.dir = call.caller
  operations : ∀ operation ∈ state.operations, operation.job.dir = operation.caller ∧
    (operation.scope = some operation.caller ∨
      operation.scope = none ∧ ¬IsRemoval operation.job)
  awaited : ∀ operation ∈ state.operations, operation.scope = none → operation.Executing →
    operation.attached = true

/-- The stages of all sorts, as their tasks and live operations show them. -/
structure Staged (stage : Nat → Stage) (state : SortState Keys Values) : Prop where
  tasks : ∀ sort, TaskOf sort (stage sort) (state.tasks sort)
  live : ∀ sort, LiveOf (stage sort) (state.live sort)
  ofSort : Local state

section Steps

variable {state state' : SortState Keys Values} {before after : List (Operation Nat)}
  {operation changed : Operation Nat}

theorem Local.congr (ofSort : Local state) (waiting : state'.waiting = state.waiting)
    (operations : state'.operations = state.operations) : Local state' := by
  constructor
  · rw [waiting]
    exact ofSort.calls
  · rw [operations]
    exact ofSort.operations
  · rw [operations]
    exact ofSort.awaited

theorem Local.replace (ofSort : Local state) (waiting : state'.waiting = state.waiting)
    (split : state.operations = before ++ operation :: after)
    (split' : state'.operations = before ++ changed :: after)
    (same : changed.caller = operation.caller ∧ changed.job = operation.job ∧
      changed.scope = operation.scope)
    (awaited : changed.scope = none → changed.Executing →
      operation.Executing ∧ changed.attached = operation.attached) : Local state' := by
  obtain ⟨caller, job, scope⟩ := same
  have known : operation ∈ state.operations := by simp [split]
  have others : ∀ other ∈ state'.operations, other = changed ∨ other ∈ state.operations := by
    intro other member
    rw [split', List.mem_append, List.mem_cons] at member
    rw [split, List.mem_append, List.mem_cons]
    tauto
  constructor
  · rw [waiting]
    exact ofSort.calls
  · intro other member
    obtain rfl | member := others other member
    · rw [caller, job, scope]
      exact ofSort.operations operation known
    · exact ofSort.operations other member
  · intro other member inPlace executing
    obtain rfl | member := others other member
    · obtain ⟨executed, attached⟩ := awaited inPlace executing
      rw [attached]
      exact ofSort.awaited operation known (scope ▸ inPlace) executed
    · exact ofSort.awaited other member inPlace executing

theorem Local.remove (ofSort : Local state) (waiting : state'.waiting.Sublist state.waiting)
    (operations : state'.operations.Sublist state.operations) : Local state' where
  calls call member := ofSort.calls call (waiting.subset member)
  operations operation member := ofSort.operations operation (operations.subset member)
  awaited operation member := ofSort.awaited operation (operations.subset member)

theorem Local.acquire {before after : List (Call Nat)} {call : Call Nat} (ofSort : Local state)
    (split : state.waiting = before ++ call :: after)
    (waiting : state'.waiting = before ++ after)
    (operations : state'.operations = state.operations ++ [.spawn call]) : Local state' := by
  obtain ⟨scope, dir⟩ := ofSort.calls call (by simp [split])
  constructor
  · intro other member
    rw [waiting, List.mem_append] at member
    apply ofSort.calls
    rw [split, List.mem_append, List.mem_cons]
    tauto
  · intro other member
    rw [operations, List.mem_append, List.mem_singleton] at member
    obtain member | rfl := member
    · exact ofSort.operations other member
    · exact ⟨dir, .inl (congrArg some scope)⟩
  · intro other member inPlace executing
    rw [operations, List.mem_append, List.mem_singleton] at member
    obtain member | rfl := member
    · exact ofSort.awaited other member inPlace executing
    · cases inPlace

end Steps

section Stages

variable {state state' : SortState Keys Values} {stage : Nat → Stage}

/-- The stages after a step: no sort works again once its scope was found idle. -/
def Follows (stage : Nat → Stage) (state' : SortState Keys Values) : Prop :=
  ∃ stage', Staged stage' state' ∧ ∀ sort, stage sort ≠ .working → stage' sort ≠ .working

theorem Staged.workers (staged : Staged stage state) (tasks : state'.tasks = state.tasks)
    (fewer : ∀ sort, (state'.live sort).Subperm (state.live sort)) (ofSort : Local state') :
    Follows stage state' := by
  refine ⟨stage, ⟨?_, ?_, ofSort⟩, fun _ => id⟩
  · rw [tasks]
    exact staged.tasks
  · exact fun sort => (staged.live sort).mono (fewer sort)

theorem Staged.replace {before after : List (Operation Nat)} {operation changed : Operation Nat}
    (staged : Staged stage state) (tasks : state'.tasks = state.tasks)
    (waiting : state'.waiting = state.waiting)
    (split : state.operations = before ++ operation :: after)
    (split' : state'.operations = before ++ changed :: after)
    (same : changed.caller = operation.caller ∧ changed.job = operation.job ∧
      changed.scope = operation.scope)
    (executing : changed.Executing → operation.Executing)
    (attached : changed.attached = operation.attached) : Follows stage state' := by
  apply staged.workers tasks
  · intro sort
    exact State.live_replace waiting split split' same.1 same.2.1 executing sort
  · exact staged.ofSort.replace waiting split split' same fun _ runs => ⟨executing runs, attached⟩

theorem Staged.advance (staged : Staged stage state) {sort : Nat} {next : Stage}
    {task : Task (SortActor (Keys sort) (Values sort))}
    (same : ∀ other, other ≠ sort → state'.tasks other = state.tasks other)
    (set : state'.tasks sort = some task) (known : TaskOf sort next (some task))
    (live : LiveOf next (state'.live sort))
    (fewer : ∀ other, other ≠ sort → (state'.live other).Subperm (state.live other))
    (stays : stage sort ≠ .working → next ≠ .working) (ofSort : Local state') :
    Follows stage state' := by
  refine ⟨Function.update stage sort next, ⟨?_, ?_, ofSort⟩, ?_⟩
  · intro other
    obtain rfl | different := eq_or_ne other sort
    · rw [Function.update_self, set]
      exact known
    · rw [Function.update_of_ne different, same other different]
      exact staged.tasks other
  · intro other
    obtain rfl | different := eq_or_ne other sort
    · rw [Function.update_self]
      exact live
    · rw [Function.update_of_ne different]
      exact (staged.live other).mono (fewer other different)
  · intro other quiet
    obtain rfl | different := eq_or_ne other sort
    · rw [Function.update_self]
      exact stays quiet
    · rwa [Function.update_of_ne different]

theorem Staged.within (staged : Staged stage state) {sort : Nat}
    {task : Task (SortActor (Keys sort) (Values sort))}
    (same : ∀ other, other ≠ sort → state'.tasks other = state.tasks other)
    (set : state'.tasks sort = some task) (known : TaskOf sort (stage sort) (some task))
    (fewer : ∀ other, (state'.live other).Subperm (state.live other))
    (ofSort : Local state') : Follows stage state' :=
  staged.advance same set known ((staged.live sort).mono (fewer sort)) (fun other _ => fewer other)
    id ofSort

theorem Staged.allowed (staged : Staged stage state) {sort : Nat} {cancellable : Bool}
    {left : SortOwner (Keys sort) (Values sort)} {op : Request (Keys sort) (Values sort)}
    {resume} (task : state.tasks sort =
      some ⟨.running cancellable (.request left op resume), false⟩) :
    Allowed sort (stage sort) op ∧
      TaskOf sort ((stage sort).during op)
        (some ⟨.running cancellable (.request left op resume), true⟩) := by
  have known := staged.tasks sort
  rw [task] at known
  exact ⟨known.1.1, left, op, resume, stage sort, rfl, known, rfl⟩

theorem taskOf_resumes {sort : Nat} {stage : Stage} {awaited : Await} {reply : awaited.Reply}
    {actor actor' : SortActor (Keys sort) (Values sort)}
    (task : TaskOf sort stage (some ⟨actor, true⟩)) (resumes : actor.Resumes awaited reply actor') :
    TaskOf sort (match awaited with | .idle _ => .quiet | _ => stage) (some ⟨actor', false⟩) := by
  cases resumes with
  | perform | direct | idle | changed =>
      obtain ⟨left, op, resume, before, ⟨⟩, turn, rfl⟩ := task
      exact turn.2 _ _ rfl

theorem taskOf_cancels {sort : Nat} {stage : Stage}
    {actor actor' : SortActor (Keys sort) (Values sort)}
    (task : TaskOf sort stage (some ⟨actor, true⟩)) (cancels : actor.Cancels actor') :
    TaskOf sort stage (some ⟨actor', false⟩) := by
  cases cancels with
  | drop awaits =>
      obtain ⟨left, op, resume, before, ⟨⟩, turn, rfl⟩ := task
      exact turn.1.2

theorem during_ne_working {Key Value : Type} {stage : Stage} (op : Request Key Value)
    (quiet : stage ≠ .working) : stage.during op ≠ .working := by
  cases op <;> cases stage <;> simp_all [Stage.during]

/-- A sort joins the queue with an operation its stage allows. -/
theorem Staged.request (staged : Staged stage state) {sort : Nat} {cancellable : Bool}
    {left : SortOwner (Keys sort) (Values sort)} {scope : ScopeId} {held : List MemoryCharge}
    {job : FsJob} {resume}
    (task : state.tasks sort =
      some ⟨.running cancellable (.request left (.perform scope held job) resume), false⟩)
    (same : ∀ other, other ≠ sort → state'.tasks other = state.tasks other)
    (set : state'.tasks sort =
      some ⟨.running cancellable (.request left (.perform scope held job) resume), true⟩)
    (waiting : state'.waiting = state.waiting ++ [⟨sort, scope, held, job⟩])
    (operations : state'.operations = state.operations) :
    Follows stage state' := by
  obtain ⟨allowed, suspended⟩ := staged.allowed task
  have joined : ∀ client, (state'.live client).Perm
      ((if sort = client then [job] else []) ++ state.live client) :=
    fun client => State.live_request waiting operations client
  refine staged.advance same set suspended ?_ ?_ (during_ne_working _) ?_
  · have perm := joined sort
    rw [if_pos rfl] at perm
    exact (staged.live sort).issue allowed perm
  · intro other different
    have perm := joined other
    rw [if_neg different.symm] at perm
    exact perm.subperm
  · constructor
    · intro call member
      rw [waiting, List.mem_append, List.mem_singleton] at member
      obtain member | rfl := member
      · exact staged.ofSort.calls call member
      · exact ⟨allowed.1, allowed.2.1⟩
    · rw [operations]
      exact staged.ofSort.operations
    · rw [operations]
      exact staged.ofSort.awaited

/-- A working sort awaits a removal of one of its files in place. -/
theorem Staged.inPlace (staged : Staged stage state) {sort : Nat} {cancellable : Bool}
    {left : SortOwner (Keys sort) (Values sort)} {job : FsJob} {resume}
    (task : state.tasks sort =
      some ⟨.running cancellable (.request left (.direct job) resume), false⟩)
    (same : ∀ other, other ≠ sort → state'.tasks other = state.tasks other)
    (set : state'.tasks sort =
      some ⟨.running cancellable (.request left (.direct job) resume), true⟩)
    (waiting : state'.waiting = state.waiting)
    (operations : state'.operations = state.operations ++ [.inPlace sort job]) :
    Follows stage state' := by
  obtain ⟨⟨working, file, rfl⟩, suspended⟩ := staged.allowed task
  have joined : ∀ client, (state'.live client).Perm
      ((if sort = client then [.removeIfExists ⟨sort, file⟩] else []) ++ state.live client) :=
    fun client => State.live_inPlace waiting operations client
  refine staged.advance same set suspended ?_ ?_ (during_ne_working _) ?_
  · have perm := joined sort
    have live := staged.live sort
    rw [if_pos rfl] at perm
    rw [working] at live ⊢
    intro job member
    obtain rfl | member := List.mem_cons.mp (perm.mem_iff.mp member)
    · exact id
    · exact live job member
  · intro other different
    have perm := joined other
    rw [if_neg different.symm] at perm
    exact perm.subperm
  · constructor
    · rw [waiting]
      exact staged.ofSort.calls
    · intro operation member
      rw [operations, List.mem_append, List.mem_singleton] at member
      obtain member | rfl := member
      · exact staged.ofSort.operations operation member
      · exact ⟨rfl, .inr ⟨rfl, id⟩⟩
    · intro operation member
      rw [operations, List.mem_append, List.mem_singleton] at member
      obtain member | rfl := member
      · exact staged.ofSort.awaited operation member
      · exact fun _ _ => rfl

theorem Staged.live_eq_nil (staged : Staged stage state) {sort permits : Nat}
    (conserved : state.Conserved permits) (settled : state.pending sort = 0)
    (unattended : ∀ operation ∈ state.operations, operation.caller = sort →
      operation.attached = false) : state.live sort = [] := by
  have counted := conserved.pending sort
  rw [settled] at counted
  have queue : state.waitingIn sort = 0 := by omega
  have guards : state.guardsIn sort = 0 := by omega
  rw [State.waitingIn, List.countP_eq_zero] at queue
  rw [State.guardsIn, List.countP_eq_zero] at guards
  rw [State.live, List.append_eq_nil_iff, List.map_eq_nil_iff, List.map_eq_nil_iff,
    List.filter_eq_nil_iff, List.filter_eq_nil_iff]
  constructor
  · intro call member caller
    have scope := (staged.ofSort.calls call member).1
    exact queue call member (decide_eq_true (scope.trans (of_decide_eq_true caller)))
  · intro operation member live
    obtain ⟨caller, executing⟩ : operation.caller = sort ∧ operation.Executing :=
      of_decide_eq_true live
    obtain performed | ⟨inPlace, -⟩ := (staged.ofSort.operations operation member).2
    · have owned := (conserved.sound operation member).executing executing (by simp [performed])
      apply guards operation member
      apply decide_eq_true
      exact ⟨performed.trans (congrArg some caller), by simp [owned]⟩
    · have attached := staged.ofSort.awaited operation member inPlace executing
      rw [unattended operation member caller] at attached
      cases attached

theorem Attended.unattended {Client Shared : Type} {Actor : Client → Type}
    {clients : Clients Shared Actor} {state : State Shared Actor}
    (attended : Attended clients state) {client : Client} {awaited : Await}
    (suspended : SuspendedAt clients state client awaited)
    (other : ∀ scope held job, awaited ≠ .job scope held job) :
    ∀ operation ∈ state.operations, operation.caller = client → operation.attached = false := by
  rintro operation member rfl
  by_contra running
  have entry : operation.entry ∈ state.outstanding := by
    apply List.mem_append_right
    exact List.mem_map_of_mem (List.mem_filter.mpr ⟨member, by simpa using running⟩)
  exact other _ _ _ (suspended.unique (attended.suspended _ entry))

theorem sessionOf_new (plan : SortPlan) (sort : Nat) (dedup : Bool) (hold : Option Resource) :
    SessionOf sort (.new plan sort dedup sort hold : SortSession (Keys sort) (Values sort)) where
  dir := rfl
  scope := rfl
  fds := rfl
  armed := .inl rfl
  spills path member := absurd (List.eq_of_mem_replicate member) (by simp)

end Stages

section Runs

variable [(sort : Nat) → LinearOrder (Keys sort)] [(sort : Nat) → Layout (Keys sort) (Values sort)]
  {codec : (sort : Nat) → Codec (Keys sort) (Values sort)}
  {state state' : SortState Keys Values} {stage : Nat → Stage} {event : Event Nat}

omit [(sort : Nat) → LinearOrder (Keys sort)] [(sort : Nat) → Layout (Keys sort) (Values sort)] in
theorem staged_initial (permits : Nat) (fs : Fs) :
    Staged (fun _ => .working) (.initial permits ⟨fs, ()⟩ : SortState Keys Values) where
  tasks _ := rfl
  live _ := fun _ member => absurd member List.not_mem_nil
  ofSort := ⟨fun _ member => absurd member List.not_mem_nil,
    fun _ member => absurd member List.not_mem_nil,
    fun _ member => absurd member List.not_mem_nil⟩

omit [(sort : Nat) → LinearOrder (Keys sort)] [(sort : Nat) → Layout (Keys sort) (Values sort)] in
theorem exists_request_of_awaits {sort : Nat} {actor : SortActor (Keys sort) (Values sort)}
    {awaited : Await} (awaits : actor.awaits = some awaited) :
    ∃ cancellable left op resume, actor = .running cancellable (.request left op resume) ∧
      await op = some awaited := by
  cases actor with
  | owner owner => cases awaits
  | running cancellable turn =>
      cases turn with
      | done owner => cases awaits
      | request left op resume => exact ⟨cancellable, left, op, resume, rfl, awaits⟩

theorem taskOf_moves {sort : Nat} {actor actor' : SortActor (Keys sort) (Values sort)}
    {world world' : World Unit} (task : TaskOf sort (stage sort) (some ⟨actor, false⟩))
    (moves : (sorts codec).moves sort actor world actor' world') :
    TaskOf sort (stage sort) (some ⟨actor', false⟩) := by
  cases moves with
  | call calls => exact turnOf_calls task calls
  | @answer _ left op resume _ reply _ immediate answers =>
      apply task.2 reply
      cases op with
      | perform | direct | idle => cases immediate
      | _ => rfl
  | «return» => exact task

theorem await_eq_perform {Key Value : Type} {op : Request Key Value} {scope : ScopeId}
    {held : List MemoryCharge} {job : FsJob}
    (issued : await op = some (.job (some scope) held job)) :
    op = .perform scope held job := by
  unfold await at issued
  split at issued <;> cases issued
  rfl

theorem await_eq_direct {Key Value : Type} {op : Request Key Value} {job : FsJob}
    (issued : await op = some (.job none [] job)) : op = .direct job := by
  unfold await at issued
  split at issued <;> cases issued
  rfl

theorem await_eq_idle {Key Value : Type} {op : Request Key Value} {scope : ScopeId}
    (issued : await op = some (.idle scope)) : op = .idle scope := by
  unfold await at issued
  split at issued <;> cases issued
  rfl

theorem during_of_await {Key Value : Type} {op : Request Key Value} {awaited : Await}
    (issued : await op = some awaited) (other : ∀ scope held job, awaited ≠ .job scope held job)
    (stage : Stage) : stage.during op = stage := by
  cases op with
  | perform io held job =>
      obtain rfl := Option.some.inj issued
      exact absurd rfl (other _ _ _)
  | _ => rfl

/-- Every step keeps the stages in order, and no sort works again once its
scope was found idle. -/
theorem Staged.step (staged : Staged stage state) (attended : Attended (sorts codec) state)
    {permits : Nat} (conserved : state.Conserved permits)
    (step : Step (sorts codec) state event state') (kept : keepsRemovals state event) :
    Follows stage state' := by
  cases step with
  | @start sort actor absent starts =>
      obtain ⟨plan, dedup, hold, rfl⟩ := starts
      have working : stage sort = .working := by
        have task := staged.tasks sort
        rwa [absent] at task
      exact staged.within (fun _ => State.setTask_ne _ _) (State.setTask_same _ _ _)
        ⟨working, sessionOf_new plan sort dedup hold⟩ (fun _ => .refl _)
        (staged.ofSort.congr rfl rfl)
  | @fork sort child actor childActor world task absent forks => exact forks.elim
  | @move sort actor actor' world task moves =>
      have known := staged.tasks sort
      rw [task] at known
      exact staged.within (fun _ => State.setTask_ne _ _) (State.setTask_same _ _ _)
        (taskOf_moves known moves) (fun _ => .refl _) (staged.ofSort.congr rfl rfl)
  | @request sort actor scope held job task awaits =>
      obtain ⟨cancellable, left, op, resume, rfl, issued⟩ := exists_request_of_awaits awaits
      obtain rfl := await_eq_perform issued
      exact staged.request task (fun _ => State.setTask_ne _ _) (State.setTask_same _ _ _) rfl rfl
  | @inPlace sort actor job task awaits =>
      obtain ⟨cancellable, left, op, resume, rfl, issued⟩ := exists_request_of_awaits awaits
      obtain rfl := await_eq_direct issued
      exact staged.inPlace task (fun _ => State.setTask_ne _ _) (State.setTask_same _ _ _) rfl rfl
  | @suspend sort actor awaited task awaits other =>
      obtain ⟨cancellable, left, op, resume, rfl, issued⟩ := exists_request_of_awaits awaits
      obtain ⟨-, suspended⟩ := staged.allowed task
      rw [during_of_await issued other] at suspended
      exact staged.within (fun _ => State.setTask_ne _ _) (State.setTask_same _ _ _) suspended
        (fun _ => .refl _) (staged.ofSort.congr rfl rfl)
  | @acquire before call after split free =>
      exact staged.workers rfl (State.live_acquire split rfl rfl)
        (staged.ofSort.acquire split rfl rfl)
  | work split executing issued replies =>
      exact staged.replace rfl rfl split rfl ⟨rfl, rfl, rfl⟩ id rfl
  | finish split executing ended =>
      exact staged.replace rfl rfl split rfl ⟨rfl, rfl, rfl⟩ (fun _ => executing) rfl
  | panic text split executing bounded =>
      exact staged.replace rfl rfl split rfl ⟨rfl, rfl, rfl⟩ (fun _ => executing) rfl
  | @release before operation after holding owned split ended owns =>
      exact staged.replace (State.release_tasks ..) (State.release_waiting ..) split rfl
        ⟨rfl, rfl, rfl⟩ id rfl
  | @deliver before operation after actor result actor' split attached ended owned task resumes =>
      have kept : (before ++ after).Sublist state.operations := by
        rw [split]
        exact (List.sublist_cons_self _ _).append_left _
      have known := staged.tasks operation.caller
      rw [task] at known
      exact staged.within (fun _ => State.setTask_ne _ _) (State.setTask_same _ _ _)
        (taskOf_resumes known resumes)
        (State.live_remove (.refl _) kept)
        (staged.ofSort.remove (.refl _) kept)
  | @dispose before operation after split attached ended owned =>
      have kept : (before ++ after).Sublist state.operations := by
        rw [split]
        exact (List.sublist_cons_self _ _).append_left _
      exact staged.workers rfl (State.live_remove (.refl _) kept)
        (staged.ofSort.remove (.refl _) kept)
  | @idle sort actor scope actor' task awaits settled resumes =>
      obtain ⟨cancellable, left, op, resume, rfl, issued⟩ := exists_request_of_awaits awaits
      obtain rfl := await_eq_idle issued
      have known := staged.tasks sort
      rw [task] at known
      obtain rfl : scope = sort := by
        obtain ⟨_, _, _, _, ⟨⟩, turn, -⟩ := known
        exact turn.1.1
      have ended := staged.live_eq_nil conserved settled
        (attended.unattended ⟨_, task, awaits⟩ nofun)
      exact staged.advance (fun _ => State.setTask_ne _ _) (State.setTask_same _ _ _)
        (taskOf_resumes known resumes) ended (fun _ _ => .refl _) (fun _ => nofun)
        (staged.ofSort.congr rfl rfl)
  | wake task awaits woken resumes => exact woken.elim
  | @cancelWaiting sort actor actor' before call after task cancels split caller =>
      have kept : (before ++ after).Sublist state.waiting := by
        rw [split]
        exact (List.sublist_cons_self _ _).append_left _
      have known := staged.tasks sort
      rw [task] at known
      exact staged.within (fun _ => State.setTask_ne _ _) (State.setTask_same _ _ _)
        (taskOf_cancels known cancels)
        (State.live_remove kept (.refl _))
        (staged.ofSort.remove kept (.refl _))
  | @cancelRunning sort actor actor' before operation after task cancels split caller attached =>
      have known := staged.tasks sort
      rw [task] at known
      exact staged.within (fun _ => State.setTask_ne _ _) (State.setTask_same _ _ _)
        (taskOf_cancels known cancels)
        (State.live_replace rfl split rfl rfl rfl id)
        (staged.ofSort.replace rfl split rfl ⟨rfl, rfl, rfl⟩
          fun inPlace executing => absurd executing (kept inPlace))
  | @cancelSuspended sort actor actor' awaited task awaits other cancels =>
      have known := staged.tasks sort
      rw [task] at known
      exact staged.within (fun _ => State.setTask_ne _ _) (State.setTask_same _ _ _)
        (taskOf_cancels known cancels) (fun _ => .refl _) (staged.ofSort.congr rfl rfl)

end Runs

end SortGovernor.Runtime
