import SortGovernor.Runtime.Discipline

/-!
# The calls of a sort follow the discipline

A push and a `finish` only work.  A poll works until the merge ends and then
cleans up, and so does the task of a dropped guard.
-/

namespace SortGovernor.Runtime

open SortGovernor.Engine SortGovernor.Resumption

variable {Key Value : Type}

section Streams

variable {sort : Nat} [LinearOrder Key] [Layout Key Value]

/-- A stream whose merge, if it has not ended, only runs while the sort works. -/
def StreamOf (sort : Nat) (stage : Stage) : ValueStream Key Value → Prop
  | .merging (some state) hold _ =>
      stage = .working ∧ MergeOf sort state ∧ GuardOf sort hold.scratch
  | .merging none hold _ => GuardOf sort hold.scratch
  | .ended (some scratch) => GuardOf sort scratch
  | _ => True

/-- A state of a sort between two calls. -/
def OwnerOf (sort : Nat) (stage : Stage) : SortOwner Key Value → Prop
  | .session session => stage = .working ∧ SessionOf sort session
  | .stream stream => StreamOf sort stage stream
  | .dropped guard => GuardOf sort guard
  | .gone => True

/-- A request of a sort, and what is left of it if its caller drops it there. -/
def Requests (sort : Nat) (left : SortOwner Key Value) (op : Request Key Value) (stage : Stage) :
    Prop :=
  Allowed sort stage op ∧ OwnerOf sort (stage.during op) left

/-- The rest of a call that follows the discipline from a stage on. -/
def TurnOf (sort : Nat) (stage : Stage) (turn : Turn Key Value (SortOwner Key Value)) : Prop :=
  turn.wp (discipline Key Value) (Requests sort) (fun owner stage => OwnerOf sort stage owner) stage

omit [LinearOrder Key] [Layout Key Value] in
theorem during_working (op : Request Key Value) : Stage.working.during op = .working := by
  cases op <;> rfl

omit [LinearOrder Key] [Layout Key Value] in
theorem turnOf_turn {State Result : Type} {method : Async Key Value State Result} {state : State}
    {dropped : State → SortOwner Key Value}
    {returned : Except Abort Result → State → SortOwner Key Value} {stage : Stage}
    (holds : method.wp (discipline Key Value)
      (fun state op stage => Requests sort (dropped state) op stage)
      (fun value state stage => OwnerOf sort stage (returned (.ok value) state))
      (fun abort state stage => OwnerOf sort stage (returned (.error abort) state)) state stage) :
    TurnOf sort stage (turn method state dropped returned) := by
  unfold TurnOf turn
  rw [Program.wp_map, Program.wp_rebase]
  apply Program.wp_mono holds
  · exact fun _ _ _ issued => issued
  · rintro ⟨_ | _, state⟩ stage reached <;> exact reached

theorem works_cascadeAndStream {runs : List ScratchPath} (inside : ∀ path ∈ runs, path.dir = sort)
    {fanIn : Nat} {dedup : Bool} {hold : Option Resource} :
    Works sort (GuardOf sort) (fun stream => StreamOf sort .working stream)
      (cascadeAndStream runs fanIn sort dedup hold :
        Async Key Value AsyncCleanupGuard (ValueStream Key Value)) := by
  refine works_bind works_get fun guard owned => ?_
  rw [owned.1]
  refine works_bind (works_cascade _ inside) fun runs inside => ?_
  refine works_bind (works_open inside) fun state merges => ?_
  refine works_bind works_get fun guard owned => ?_
  refine works_bind (works_set ?_) fun _ _ => ?_
  · exact ⟨owned.1, .inl rfl⟩
  · exact works_pure ⟨rfl, merges, owned⟩

omit [LinearOrder Key] [Layout Key Value] in
theorem Works.wp {State Result : Type} {good : State → Prop} {result : Result → Prop}
    {method : Async Key Value State Result} (works : Works sort good result method)
    (left : State → SortOwner Key Value) (owned : ∀ state, good state →
      OwnerOf sort .working (left state)) {state : State} (holds : good state)
    {ok : Result → State → Stage → Prop} {err : Abort → State → Stage → Prop}
    (returned : ∀ value state, good state → result value → ok value state .working)
    (failed : ∀ abort state, good state → err abort state .working) :
    method.wp (discipline Key Value) (fun state op stage => Requests sort (left state) op stage)
      ok err state .working := by
  apply Method.wp_mono (works state holds)
  · rintro state op _ ⟨rfl, allowed, holds⟩
    refine ⟨allowed, ?_⟩
    rw [during_working]
    exact owned state holds
  · rintro value state _ ⟨rfl, holds, known⟩
    exact returned value state holds known
  · rintro abort state _ ⟨rfl, holds⟩
    exact failed abort state holds

theorem turnOf_push {session : SortSession Key Value} (owned : SessionOf sort session) (key : Key)
    (value : Value) (bytes : UInt64) :
    TurnOf sort .working
      (turn (SortSession.pushWithSize key value bytes) session .session fun _ => .session) := by
  apply turnOf_turn
  apply (works_pushWithSize key value bytes).wp .session (fun session owned => ⟨rfl, owned⟩) owned
  · exact fun _ session owned _ => ⟨rfl, owned⟩
  · exact fun _ session owned => ⟨rfl, owned⟩

theorem wp_mergeStream {session : SortSession Key Value} (owned : SessionOf sort session)
    (fanIn : Nat) :
    (SortSession.mergeStream fanIn).wp (discipline Key Value)
      (fun session op stage => Requests sort (.dropped session.cleanup) op stage)
      (fun stream _ stage => StreamOf sort stage stream)
      (fun _ session _ => GuardOf sort session.cleanup) session .working := by
  refine Method.wp_bind.mpr (Method.wp_get.mpr (Method.wp_bind.mpr ?_))
  have spills : Works sort (SessionOf sort) (fun _ => True)
      (if session.buffer.isEmpty then pure () else SortSession.spill :
        Async Key Value (SortSession Key Value) Unit) :=
    works_ite (fun _ => works_pure trivial) fun _ => works_spill
  apply spills.wp (fun session => .dropped session.cleanup) (fun session owned => owned.guard) owned
  · intro _ session owned _
    simp only [Method.wp_bind, Method.wp_get, Method.wp_modify, Method.wp_within]
    have inside : ∀ path ∈ session.spills.reverse.filterMap id, path.dir = sort := by
      intro path member
      simp only [List.mem_filterMap, List.mem_reverse, id_eq, exists_eq_right] at member
      exact owned.spills path member
    rw [owned.dir]
    apply (works_cascadeAndStream inside).wp .dropped (fun guard owned => owned) owned.guard
    · exact fun stream guard _ known => known
    · exact fun _ guard owned => owned
  · exact fun _ session owned => owned.guard

theorem turnOf_finish {session : SortSession Key Value} (owned : SessionOf sort session) :
    TurnOf sort .working (turn SortSession.finish session
      (fun session => .dropped session.cleanup) SortOwner.finished) := by
  apply turnOf_turn
  refine Method.wp_bind.mpr ?_
  apply works_ensureUsable.wp (fun session => .dropped session.cleanup)
    (fun session owned => owned.guard) owned
  · intro _ session owned _
    simp only [Method.wp_bind, Method.wp_get, Method.wp_modify]
    have sorted : SessionOf sort { session with buffer := SortSession.sortBuffer session.buffer } :=
      { owned with }
    have inMemory : SortSession.inMemoryStream.wp (discipline Key Value)
        (fun session op stage => Requests sort (.dropped session.cleanup) op stage)
        (fun stream _ stage => StreamOf sort stage stream)
        (fun _ session _ => GuardOf sort session.cleanup)
        { session with buffer := SortSession.sortBuffer session.buffer } .working := trivial
    split
    · rw [Method.wp_ite]
      exact ⟨fun _ => inMemory, fun _ => wp_mergeStream sorted 2⟩
    · rw [Method.wp_ite]
      exact ⟨fun _ => inMemory, fun _ => wp_mergeStream sorted _⟩
  · exact fun _ session owned => owned.guard

omit [LinearOrder Key] [Layout Key Value] in
theorem wp_cleanup_discipline {guard : AsyncCleanupGuard} (owned : GuardOf sort guard)
    (stage : Stage) :
    AsyncCleanupGuard.cleanup.wp (discipline Key Value) (fun _ op stage => Allowed sort stage op)
      (fun _ guard _ => GuardOf sort guard)
      (fun abort guard _ => (∃ error, abort = .error error) ∧ GuardOf sort guard) guard stage := by
  refine Method.wp_bind.mpr (Method.wp_get.mpr ?_)
  obtain ⟨scope, unarmed | ⟨armed, fds⟩⟩ := owned
  · rw [unarmed]
    exact ⟨scope, .inl unarmed⟩
  · rw [armed, fds]
    refine Method.wp_bind.mpr ⟨scope, ?_⟩
    rintro _ _ rfl
    refine Method.wp_bind.mpr (Method.wp_bind.mpr ⟨⟨scope, rfl, .inr ⟨rfl, trivial⟩⟩, ?_⟩)
    rintro reply _ rfl
    cases reply with
    | error error => exact ⟨⟨error, rfl⟩, scope, .inr ⟨armed, fds⟩⟩
    | ok value => exact ⟨scope, .inl rfl⟩

omit [LinearOrder Key] [Layout Key Value] in
theorem wp_finishCleanup {hold : StreamHold} (owned : GuardOf sort hold.scratch)
    {state : Option (MergeState Key Value)} {reported : Bool} (stage : Stage) :
    (ValueStream.finishCleanup hold).wp (discipline Key Value)
      (fun stream op stage => Requests sort (SortOwner.ofStream stream) op stage)
      (fun _ stream stage => OwnerOf sort stage (SortOwner.polled stream))
      (fun _ stream stage => OwnerOf sort stage (SortOwner.polled stream))
      (.merging state hold reported) stage := by
  refine Method.wp_bind.mpr (Method.wp_attempt.mpr ?_)
  apply Method.wp_mono (wp_cleanup_discipline owned stage)
  · exact fun _ op stage allowed => ⟨allowed, owned⟩
  · exact fun _ guard stage owned => owned
  · rintro _ guard stage ⟨⟨error, rfl⟩, owned⟩
    exact owned

theorem turnOf_next {stream : ValueStream Key Value} {stage : Stage}
    (owned : StreamOf sort stage stream) :
    TurnOf sort stage
      (turn ValueStream.next stream SortOwner.ofStream fun _ => SortOwner.polled) := by
  apply turnOf_turn
  refine Method.wp_bind.mpr (Method.wp_get.mpr ?_)
  match stream, owned with
  | .ended none, _ => trivial
  | .ended (some scratch), owned => exact owned
  | .inMemory dedup rows last hold allocation metadata, _ =>
      simp only
      split <;> trivial
  | .merging none hold reported, owned =>
      simp only
      refine Method.wp_ite.mpr ⟨fun _ => owned, fun _ => wp_finishCleanup owned stage⟩
  | .merging (some state) hold reported, ⟨working, merges, guarded⟩ =>
      subst working
      refine Method.wp_bind.mpr (Method.wp_attempt.mpr ?_)
      apply Method.wp_mono (works_mergeRow state merges)
      · rintro _ op _ ⟨rfl, allowed, -⟩
        exact ⟨allowed, guarded⟩
      · rintro row state' _ ⟨rfl, merges', -⟩
        cases row with
        | none => exact wp_finishCleanup guarded .working
        | some row => exact ⟨rfl, merges', guarded⟩
      · rintro abort state' _ ⟨rfl, -⟩
        cases abort with
        | error error => exact guarded
        | panic text => exact ⟨rfl, merges, guarded⟩
        | diverged => exact ⟨rfl, merges, guarded⟩

omit [LinearOrder Key] [Layout Key Value] in
theorem turnOf_cleanup {guard : AsyncCleanupGuard} (owned : GuardOf sort guard) (stage : Stage) :
    TurnOf sort stage (turn (AsyncCleanupGuard.dropTask guard) () (fun _ => .gone)
      fun _ _ => (.gone : SortOwner Key Value)) := by
  apply turnOf_turn
  unfold AsyncCleanupGuard.dropTask
  obtain ⟨scope, unarmed | ⟨armed, fds⟩⟩ := owned
  · rw [unarmed]
    trivial
  · rw [armed, fds]
    refine Method.wp_bind.mpr ⟨⟨scope, trivial⟩, ?_⟩
    rintro _ _ rfl
    refine Method.wp_bind.mpr ⟨⟨⟨scope, rfl, .inr ⟨rfl, trivial⟩⟩, trivial⟩, ?_⟩
    exact fun _ _ _ => trivial

theorem turnOf_calls {owner : SortOwner Key Value} {stage : Stage}
    (owned : OwnerOf sort stage owner)
    {cancellable : Bool} {turn : Turn Key Value (SortOwner Key Value)}
    (calls : SortOwner.Calls owner cancellable turn) : TurnOf sort stage turn := by
  cases calls with
  | push key value bytes =>
      obtain ⟨rfl, owned⟩ := owned
      exact turnOf_push owned key value bytes
  | finish =>
      obtain ⟨rfl, owned⟩ := owned
      exact turnOf_finish owned
  | dropSession => exact owned.2.guard
  | next => exact turnOf_next owned
  | @dropStream stream =>
      match stream, owned with
      | .ended none, _ => trivial
      | .ended (some scratch), owned => exact owned
      | .inMemory .., _ => trivial
      | .merging none hold reported, owned => exact owned
      | .merging (some state) hold reported, owned => exact owned.2.2
  | cleanup => exact turnOf_cleanup owned stage

end Streams

end SortGovernor.Runtime
