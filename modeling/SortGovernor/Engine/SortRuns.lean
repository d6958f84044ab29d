import SortGovernor.Engine.Results

/-!
# Runs of a sort

A session is used through its calls: pushes that return, fail or are dropped by
their caller, then one `finish` and the polls of its stream.  Every reachable
session is usable or marked failed, and whatever a stream emits is accounted
for by the reference output of the accepted rows.
-/

namespace SortGovernor.Engine

open SortGovernor.Resumption SortGovernor.Sorting

variable {Key Value : Type} [LinearOrder Key] [Layout Key Value]

/-- The sessions reachable by pushes, with the rows whose push returned `Ok`. -/
inductive Reaches (codec : Codec Key Value) (dedup : Bool) :
    List (Key × Value) → SortSession Key Value → World → Prop where
  | new (plan : SortPlan) (dir : ScratchDir) (scope : ScopeId) (hold : Option Resource) (fs : Fs) :
      Reaches codec dedup [] (.new plan dir dedup scope hold) { fs, log := [] }
  | accepted {rows session world session' world'} (key : Key) (value : Value) (bytes : UInt64) :
      Reaches codec dedup rows session world →
      Runs (sessionSemantics codec) (SortSession.pushWithSize key value bytes session) world
        (.returned (.ok (), session')) world' →
      Reaches codec dedup (rows ++ [(key, value)]) session' world'
  | rejected {rows session world session' world'} (key : Key) (value : Value) (bytes : UInt64)
      (abort : Abort) :
      Reaches codec dedup rows session world →
      Runs (sessionSemantics codec) (SortSession.pushWithSize key value bytes session) world
        (.returned (.error abort, session')) world' →
      Reaches codec dedup rows session' world'
  | dropped {rows session world session' world'} (key : Key) (value : Value) (bytes : UInt64) :
      Reaches codec dedup rows session world →
      Runs (sessionSemantics codec) (SortSession.pushWithSize key value bytes session) world
        (.dropped session') world' →
      Reaches codec dedup rows session' world'

/-- `finish` returns the stream. -/
def Finishes (codec : Codec Key Value) (session : SortSession Key Value) (world : World)
    (stream : ValueStream Key Value) (world' : World) : Prop :=
  ∃ session', Runs (sessionSemantics codec) (SortSession.finish session) world
    (.returned (.ok stream, session')) world'

/-- Polls of a stream that gave `items`, one after another. -/
inductive Polls (codec : Codec Key Value) (stream : ValueStream Key Value) (world : World) :
    List (Except SorterError Value) → ValueStream Key Value → World → Prop where
  | none : Polls codec stream world [] stream world
  | some {items stream' world' item stream'' world''} :
      Polls codec stream world items stream' world' →
      Runs (sessionSemantics codec) (ValueStream.next stream') world'
        (.returned (.ok (some item), stream'')) world'' →
      Polls codec stream world (items ++ [item]) stream'' world''

def Ends (codec : Codec Key Value) (stream : ValueStream Key Value) (world : World) : Prop :=
  ∃ stream' world', Runs (sessionSemantics codec) (ValueStream.next stream) world
    (.returned (.ok none, stream')) world'

variable {codec : Codec Key Value} {dedup : Bool} {rows : List (Key × Value)}
  {session session' : SortSession Key Value} {world world' : World}

omit [LinearOrder Key] [Layout Key Value] in
theorem recordsOf_append (key : Key) (value : Value) :
    recordsOf (rows ++ [(key, value)]) =
      recordsOf rows ++ [(key, value, (recordsOf rows).length)] := by
  simp [recordsOf, List.zipIdx_append]

omit [Layout Key Value] in
theorem usable_new (plan : SortPlan) (dir : ScratchDir) (scope : ScopeId)
    (hold : Option Resource) (fs : Fs) :
    (SortSession.new plan dir dedup scope hold).Usable codec dedup (recordsOf []) ⟨fs, []⟩ := by
  refine ⟨rfl, rfl, [], ⟨?_, ?_, rfl, ?_, ?_, ?_, ?_⟩, rfl, rfl, rfl, fun _ => rfl,
    fun _ => rfl, rfl, ?_⟩
  · exact Slots.of_empty frontierSlots
  · exact List.length_replicate
  · simp [SortSession.new]
  · simp [SortSession.new]
  · simp
  · exact fun _ _ => rfl
  · simp [SortSession.new, AsyncCleanupGuard.disarmed, AsyncCleanupGuard.setFdBudget]

omit [LinearOrder Key] [Layout Key Value] in
theorem ensureUsable_of_failed (failed : session.failed = true) :
    SortSession.ensureUsable session = .done (.error (.error .sessionFailed), session) := by
  show (if session.failed = true then _ else _ : Async Key Value _ Unit) session = _
  rw [if_pos failed]
  rfl

theorem pushWithSize_of_failed (failed : session.failed = true) (key : Key) (value : Value)
    (bytes : UInt64) :
    SortSession.pushWithSize key value bytes session =
      .done (.error (.error .sessionFailed), session) := by
  show (SortSession.ensureUsable session).bind _ = _
  rw [ensureUsable_of_failed failed]
  rfl

theorem finish_of_failed (failed : session.failed = true) :
    SortSession.finish session = .done (.error (.error .sessionFailed), session) := by
  show (SortSession.ensureUsable session).bind _ = _
  rw [ensureUsable_of_failed failed]
  rfl

theorem Reaches.failed_or_usable (reaches : Reaches codec dedup rows session world) :
    session.failed = true ∨ session.Usable codec dedup (recordsOf rows) world := by
  induction reaches with
  | new plan dir scope hold fs => exact .inr (usable_new plan dir scope hold fs)
  | accepted key value bytes _ run inductionHypothesis =>
      rcases inductionHypothesis with failed | usable
      · rw [pushWithSize_of_failed failed] at run
        cases run
      · right
        rw [recordsOf_append]
        exact Method.wp_returned (wp_pushWithSize usable) run
  | rejected key value bytes abort _ run inductionHypothesis =>
      rcases inductionHypothesis with failed | usable
      · rw [pushWithSize_of_failed failed] at run
        cases run
        exact .inl failed
      · have rejects := Method.wp_returned (wp_pushWithSize usable) run
        exact rejects.2
  | dropped key value bytes _ run inductionHypothesis =>
      rcases inductionHypothesis with failed | usable
      · rw [pushWithSize_of_failed failed] at run
        cases run
      · rcases Method.wp_dropped (wp_pushWithSize usable) run with ⟨op, middle, suspends, dropped⟩
        exact .inl (suspends (awaits_of_drop dropped))

end SortGovernor.Engine
