import SortGovernor.Engine.Session

/-!
# What the engine leaves alone

Run files and merges are functions of what they are given.  They touch no state
of the method that calls them, whatever the world replies.
-/

namespace SortGovernor.Engine

open SortGovernor.Resumption

variable {Key Value State World : Type} [Layout Key Value]
  {sem : Semantics (engine Key Value) World} {good : State → Prop}

omit [Layout Key Value] in
theorem stays_reserve (bytes : Nat) :
    Method.Stays sem good (reserve bytes : Async Key Value State MemoryCharge) :=
  Method.stays_bind (Method.stays_issue _) fun _ => Method.stays_ofExcept _

omit [Layout Key Value] in
theorem stays_orError {Result : Type} (value : Option Result) (error : SorterError) :
    Method.Stays sem good (orError value error : Async Key Value State Result) :=
  Method.stays_okOr value _

theorem stays_perform (io : ScopeId) (pathBytes : Nat) (held : List MemoryCharge) (job : FsJob) :
    Method.Stays sem good (perform io pathBytes held job : Async Key Value State job.Value) := by
  refine Method.stays_bind (stays_orError _ _) fun bytes => ?_
  refine Method.stays_bind (stays_reserve bytes) fun metadata => ?_
  exact Method.stays_bind (Method.stays_issue _) fun _ => Method.stays_ofExcept _

omit [Layout Key Value] in
theorem stays_encode (row : RunRow Key Value) :
    Method.Stays sem good
      (encode row : Async Key Value State (List UInt8 × MemoryCharge)) := by
  refine Method.stays_bind (Method.stays_issue _) fun limit => ?_
  refine Method.stays_bind (Method.stays_issue _) fun sizing => ?_
  refine Method.stays_bind (Method.stays_ofExcept _) fun count => ?_
  refine Method.stays_bind
    (Method.stays_bind (stays_orError _ _) fun working => stays_reserve working) fun charge => ?_
  refine Method.stays_bind (Method.stays_issue _) fun encoding => ?_
  refine Method.stays_bind (Method.stays_ofExcept _) fun writer => ?_
  exact Method.stays_ite (Method.stays_throw _) (Method.stays_pure _)

theorem stays_writeRow (writer : RunWriter) (row : RunRow Key Value) :
    Method.Stays sem good (writer.writeRow row : Async Key Value State RunWriter) := by
  refine Method.stays_bind (stays_encode row) fun encoded => ?_
  refine Method.stays_bind (stays_orError _ _) fun len => ?_
  refine Method.stays_bind (stays_orError _ _) fun weight => ?_
  refine Method.stays_bind (stays_perform _ _ _ _) fun _ => ?_
  exact Method.stays_bind (stays_orError _ _) fun count => Method.stays_pure _

theorem stays_create (path : ScratchPath) (io : ScopeId) :
    Method.Stays sem good (RunWriter.create path io : Async Key Value State RunWriter) :=
  Method.stays_bind (stays_perform _ _ _ _) fun _ => Method.stays_pure _

theorem stays_finishRun (writer : RunWriter) :
    Method.Stays sem good (writer.finish : Async Key Value State ScratchPath) :=
  Method.stays_bind (stays_perform _ _ _ _) fun _ => Method.stays_pure _

omit [Layout Key Value] in
theorem stays_removeInputs (paths : List ScratchPath) :
    Method.Stays sem good (removeInputs paths : Async Key Value State Unit) := by
  induction paths with
  | nil => exact Method.stays_pure ()
  | cons path paths inductionHypothesis =>
      refine Method.stays_bind ?_ fun _ => inductionHypothesis
      exact Method.stays_bind (Method.stays_issue _) fun _ => Method.stays_ofExcept _

theorem stays_openSource (path : ScratchPath) (io : ScopeId) :
    Method.Stays sem good
      (MergeSource.open path io : Async Key Value State (Option (MergeSource Key Value))) := by
  refine Method.stays_bind (Method.stays_bind (stays_perform _ _ _ _) fun _ =>
    Method.stays_pure _) fun reader => ?_
  refine Method.stays_bind (Method.stays_call _ _) ?_
  rintro ⟨_ | head, reader⟩
  · exact Method.stays_pure none
  · exact Method.stays_pure (some _)

omit [Layout Key Value] in
theorem stays_pushSource (state : MergeState Key Value) (source : MergeSource Key Value) :
    Method.Stays sem good
      (state.pushSource source : Async Key Value State (MergeState Key Value)) := by
  unfold MergeState.pushSource
  split
  · exact Method.stays_bind (stays_reserve _) fun charge => Method.stays_pure _
  · exact Method.stays_pure _

theorem stays_openSources (io : ScopeId) (paths : List ScratchPath)
    (state : MergeState Key Value) :
    Method.Stays sem good
      (MergeState.openSources io paths state : Async Key Value State (MergeState Key Value)) := by
  induction paths generalizing state with
  | nil => exact Method.stays_pure state
  | cons path paths inductionHypothesis =>
      refine Method.stays_bind (stays_openSource path io) ?_
      rintro (_ | source)
      · exact inductionHypothesis state
      · exact Method.stays_bind (stays_pushSource state source) inductionHypothesis

theorem stays_openMerge (paths : List ScratchPath) (dedup : Bool) (io : ScopeId) :
    Method.Stays sem good
      (MergeState.open paths dedup io : Async Key Value State (MergeState Key Value)) := by
  refine Method.stays_bind ?_ (stays_openSources io paths)
  refine Method.stays_bind (stays_orError _ _) fun sourceBytes => ?_
  refine Method.stays_bind (stays_orError _ _) fun heapBytes => ?_
  refine Method.stays_bind (stays_orError _ _) fun bytes => ?_
  exact Method.stays_bind (stays_reserve bytes) fun arrays => Method.stays_pure _

variable [LinearOrder Key]

theorem stays_drainInto (turns : Nat) (state : MergeState Key Value) (writer : RunWriter) :
    Method.Stays sem good (drainInto turns state writer : Async Key Value State RunWriter) := by
  induction turns generalizing state writer with
  | zero => exact Method.stays_throw _
  | succ turns inductionHypothesis =>
      refine Method.stays_bind (Method.stays_call _ _) ?_
      rintro ⟨_ | row, state⟩
      · exact Method.stays_pure writer
      · exact Method.stays_bind (stays_writeRow writer row) (inductionHypothesis state)

theorem stays_mergeGroupToFile (paths : List ScratchPath) (out : ScratchPath) (dedup : Bool)
    (io : ScopeId) :
    Method.Stays sem good
      (mergeGroupToFile paths out dedup io : Async Key Value State ScratchPath) := by
  refine Method.stays_bind (stays_openMerge paths dedup io) fun state => ?_
  refine Method.stays_bind (stays_create out io) fun writer => ?_
  refine Method.stays_bind (stays_drainInto _ state writer) fun writer => ?_
  refine Method.stays_bind (stays_finishRun writer) fun merged => ?_
  exact Method.stays_bind (stays_removeInputs paths) fun _ => Method.stays_pure merged

namespace SortSession

variable {good : SortSession Key Value → Prop}

/-- A condition that reads nothing a spill changes, except the number of runs. -/
def IgnoresSpill (good : SortSession Key Value → Prop) : Prop :=
  ∀ (session : SortSession Key Value) buffer bufferCapacity bufferCharge bufferBytes spills failed
    cleanup, good session → good { session with
      buffer, bufferCapacity, bufferCharge, bufferBytes, spills, failed, cleanup }

omit [LinearOrder Key] in
theorem stays_writeRows (rows : List (RunRow Key Value)) (writer : RunWriter) :
    Method.Stays sem good (writeRows rows writer) := by
  induction rows generalizing writer with
  | nil => exact Method.stays_pure writer
  | cons row rows inductionHypothesis =>
      exact Method.stays_bind (stays_writeRow writer row) inductionHypothesis

theorem stays_carry (ignores : IgnoresSpill good) (ordinal level : Nat)
    (before slots : List (Option ScratchPath)) (run : ScratchPath) :
    Method.Stays sem good
      (carry ordinal level before slots run : Async Key Value (SortSession Key Value) Unit) := by
  induction slots generalizing level before run with
  | nil => exact Method.stays_throw _
  | cons slot after inductionHypothesis =>
      cases slot with
      | none =>
          refine Method.stays_bind (Method.stays_modify ?_) fun _ => Method.stays_modify ?_
          · exact fun _ holds => ignores _ _ _ _ _ _ _ _ holds
          · exact fun _ holds => ignores _ _ _ _ _ _ _ _ holds
      | some older =>
          refine Method.stays_bind
            (Method.stays_modify fun _ holds => ignores _ _ _ _ _ _ _ _ holds) fun _ => ?_
          refine Method.stays_bind Method.stays_get fun session => ?_
          refine Method.stays_bind (stays_mergeGroupToFile _ _ _ _) fun run => ?_
          exact inductionHypothesis (level + 1) (before ++ [none]) run

theorem wp_spill_of_ignores (ignores : IgnoresSpill good) {session : SortSession Key Value}
    {world : World} (holds : good session)
    (counted : good { session with nextRun := session.nextRun + 1 }) :
    spill.wp sem (fun session _ _ => good session) (fun _ session _ => good session)
      (fun _ session _ => good session) session world := by
  have marked := ignores session session.buffer session.bufferCapacity session.bufferCharge
    session.bufferBytes session.spills true session.cleanup holds
  refine Method.wp_bind.mpr (Method.wp_get.mpr (Method.wp_ite.mpr ⟨fun _ => holds, fun _ => ?_⟩))
  refine Method.wp_bind.mpr (Method.wp_modify.mpr ?_)
  refine Method.wp_bind.mpr (Method.wp_get.mpr (Method.wp_bind.mpr (Method.wp_okOr.mpr ?_)))
  cases next : checkedAdd u64Max session.nextRun 1 with
  | none => exact marked
  | some nextRun =>
      obtain ⟨-, rfl⟩ := checkedAdd_eq_some.mp next
      refine Method.wp_bind.mpr (Method.wp_modify.mpr ?_)
      refine (?_ : Method.Stays sem good _) _ world
        (ignores _ session.buffer session.bufferCapacity session.bufferCharge
          session.bufferBytes session.spills true session.cleanup counted)
      refine Method.stays_bind (Method.stays_modify fun _ holds => ignores _ _ _ _ _ _ _ _ holds)
        fun _ => ?_
      refine Method.stays_bind (Method.stays_modify fun _ holds => ignores _ _ _ _ _ _ _ _ holds)
        fun _ => ?_
      refine Method.stays_bind Method.stays_get fun session => ?_
      refine Method.stays_bind (stays_perform _ _ _ _) fun _ => ?_
      refine Method.stays_bind (stays_create _ _) fun writer => ?_
      refine Method.stays_bind (stays_writeRows _ writer) fun writer => ?_
      refine Method.stays_bind (stays_finishRun writer) fun run => ?_
      refine Method.stays_bind (Method.stays_modify fun _ holds => ignores _ _ _ _ _ _ _ _ holds)
        fun _ => ?_
      exact Method.stays_bind Method.stays_get fun session => stays_carry ignores _ _ _ _ _

end SortSession

end SortGovernor.Engine
