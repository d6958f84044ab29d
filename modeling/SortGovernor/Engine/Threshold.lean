import SortGovernor.Engine.Execute
import SortGovernor.Engine.Stays

/-!
# The threshold of the run buffer

A push reads the limit once before it stores its row and once afterwards.  The
session never holds more than it counted, a run of several rows stays within the
limit that admitted its last row, and the check after storing finds room.
-/

namespace SortGovernor.Engine

open SortGovernor.Resumption

variable {Key Value : Type}

namespace SortSession

/-- A condition that reads neither the frontier nor the mark. -/
def IgnoresCarry (good : SortSession Key Value → Prop) : Prop :=
  ∀ (session : SortSession Key Value) spills failed, good session →
    good { session with spills, failed }

variable [LinearOrder Key] [Layout Key Value] {World : Type}
  {sem : Semantics (engine Key Value) World} {good : SortSession Key Value → Prop}
  {session : SortSession Key Value} {world : World}

theorem wp_carry_mark (ignores : IgnoresCarry good) {ordinal level : Nat}
    {before slots : List (Option ScratchPath)} {run : ScratchPath} (marked : session.failed = true)
    (holds : good session) :
    (carry ordinal level before slots run).wp sem
      (fun left _ _ => left.failed = true ∧ good left)
      (fun _ left _ => left.failed = false ∧ good left) (fun _ left _ => left.failed = true) session
      world := by
  induction slots generalizing level before run session world with
  | nil => exact marked
  | cons slot after inductionHypothesis =>
      cases slot with
      | none =>
          refine Method.wp_bind.mpr (Method.wp_modify.mpr (Method.wp_modify.mpr ⟨rfl, ?_⟩))
          exact ignores _ _ false (ignores _ (before ++ some run :: after) session.failed holds)
      | some older =>
          refine Method.wp_bind.mpr (Method.wp_modify.mpr ?_)
          refine Method.wp_bind.mpr (Method.wp_get.mpr (Method.wp_bind.mpr ?_))
          have kept := ignores _ (before ++ none :: after) session.failed holds
          have merge : Method.Stays sem (fun left => left.failed = true ∧ good left)
              (mergeGroupToFile [older, run]
                { dir := session.dir, file := .carry ordinal level } false
                session.cleanup.scope : Async Key Value (SortSession Key Value) _) :=
            stays_mergeGroupToFile _ _ _ _
          refine Method.wp_mono (merge _ world ⟨marked, kept⟩) (fun _ _ _ stays => stays) ?_
            (fun _ _ _ stays => stays.1)
          intro run left world stays
          exact inductionHypothesis stays.1 stays.2

/-- A spill writes the rows of the buffer, and leaves nothing of them or the mark. -/
theorem wp_spill_rows (nonempty : session.buffer ≠ []) :
    spill.wp sem
      (fun left _ _ => left.failed = true ∧ left.nextRow = session.nextRow ∧
        (left.buffer = sortBuffer session.buffer ∨ left.buffer = []))
      (fun _ left _ => left.failed = false ∧ left.plan = session.plan ∧
        left.nextRow = session.nextRow ∧ left.buffer = [] ∧ left.bufferBytes = 0)
      (fun _ left _ => left.failed = true) session world := by
  have more : ¬session.buffer.isEmpty := fun empty => nonempty (List.isEmpty_iff.mp empty)
  refine Method.wp_bind.mpr
    (Method.wp_get.mpr (Method.wp_ite.mpr ⟨fun empty => absurd empty more, ?_⟩))
  intro _
  refine Method.wp_bind.mpr (Method.wp_modify.mpr ?_)
  refine Method.wp_bind.mpr (Method.wp_get.mpr (Method.wp_bind.mpr (Method.wp_okOr.mpr ?_)))
  split
  · rename_i nextRun _
    refine Method.wp_bind.mpr (Method.wp_modify.mpr ?_)
    refine Method.wp_bind.mpr (Method.wp_modify.mpr ?_)
    refine Method.wp_bind.mpr (Method.wp_modify.mpr ?_)
    refine Method.wp_bind.mpr (Method.wp_get.mpr ?_)
    -- the session does not change while its rows are written
    let writing (left : SortSession Key Value) : Prop :=
      left.failed = true ∧ left.plan = session.plan ∧ left.nextRow = session.nextRow ∧
        left.buffer = sortBuffer session.buffer
    have issued : ∀ (left : SortSession Key Value) (_ : Request Key Value) (_ : World),
      writing left →
        left.failed = true ∧ left.nextRow = session.nextRow ∧
          (left.buffer = sortBuffer session.buffer ∨ left.buffer = []) :=
      fun left _ _ holds => ⟨holds.1, holds.2.2.1, .inl holds.2.2.2⟩
    have failed : ∀ (_ : Abort) (left : SortSession Key Value) (_ : World), writing left →
        left.failed = true := fun _ _ _ holds => holds.1
    refine Method.wp_bind_of_stays (stays_perform _ _ _ _) ⟨rfl, rfl, rfl, rfl⟩ issued failed ?_
    intro _ left world holds
    refine Method.wp_bind_of_stays (stays_create _ _) holds issued failed ?_
    intro writer left world holds
    refine Method.wp_bind_of_stays (stays_writeRows _ writer) holds issued failed ?_
    intro writer left world holds
    refine Method.wp_bind_of_stays (stays_finishRun writer) holds issued failed ?_
    intro run left world holds
    refine Method.wp_bind.mpr (Method.wp_modify.mpr (Method.wp_bind.mpr (Method.wp_get.mpr ?_)))
    let written (left : SortSession Key Value) : Prop :=
      left.plan = session.plan ∧ left.nextRow = session.nextRow ∧ left.buffer = [] ∧
        left.bufferBytes = 0
    have ignores : IgnoresCarry written := fun _ _ _ holds => holds
    refine Method.wp_mono (wp_carry_mark ignores holds.1 ⟨holds.2.1, holds.2.2.1, rfl, rfl⟩)
      ?_ ?_ ?_
    · exact fun left _ _ carries => ⟨carries.1, carries.2.2.1, .inr carries.2.2.2.1⟩
    · exact fun _ left _ carries => carries
    · exact fun _ left _ marked => marked
  · rfl

end SortSession

/-- A world, and the limits that were read in it so far. -/
structure Watched where
  world : World
  readings : List Nat

def Request.reading : (op : Request Key Value) → op.Reply → List Nat
  | .limit, read => [read]
  | _, _ => []

/-- The sequential semantics with its readings of the limit. -/
def watchedSemantics (codec : Codec Key Value) : Semantics (engine Key Value) Watched where
  reply op watched reply next := (sessionSemantics codec).reply op watched.world reply next.world ∧
    next.readings = watched.readings ++ op.reading reply
  drop op watched next := (sessionSemantics codec).drop op watched.world next.world ∧
    next.readings = watched.readings

def watchedPolicy (pure : PureCodec Key Value) (op : Request Key Value) (watched : Watched) :
    Option (op.Reply × Watched) :=
  (pure.policy op watched.world).map fun (reply, world) =>
    (reply, ⟨world, watched.readings ++ op.reading reply⟩)

theorem watchedPolicy_allowed (pure : PureCodec Key Value) (op : Request Key Value)
    (watched : Watched) (reply : op.Reply) (next : Watched)
    (answered : watchedPolicy pure op watched = some (reply, next)) :
    (watchedSemantics pure.codec).reply op watched reply next := by
  obtain ⟨⟨_, world⟩, answered', same⟩ := Option.map_eq_some_iff.mp answered
  cases same
  exact ⟨pure.policy_allowed op watched.world _ world answered', rfl⟩

def SortPlan.bufferLimit (plan : SortPlan) (limit : Nat) : Nat :=
  let shared := max (min (limit / 8) usizeMax) 1
  match plan with
  | .inMemory => min shared (8 * 1024 * 1024)
  | .external runBufferBytes _ => min shared (max runBufferBytes 1)

def retained (rows : List (RunRow Key Value)) : Nat :=
  (rows.map fun row => row.retainedBytes).sum

namespace SortSession

/-- The limit a push of `size` bytes read before it stored its row: the first one
it read, if the buffer held rows and the sum was a word. -/
def preCheck (session : SortSession Key Value) (size : Nat) (readings : List Nat) : Option Nat :=
  if session.buffer = [] ∨ usizeMax < session.bufferBytes + size then none else readings.head?

/-- A buffer that holds what it counts; more than one row only within the limit
`pre` that the push of its last row read before storing it. -/
structure Counted (plan : SortPlan) (pre : Option Nat)
    (session : SortSession Key Value) : Prop where
  samePlan : session.plan = plan
  bytes : session.bufferBytes = retained session.buffer
  within : 1 < session.buffer.length →
    ∃ limit, pre = some limit ∧ session.bufferBytes ≤ plan.bufferLimit limit

/-- What the threshold depends on. -/
def gauge (session : SortSession Key Value) :
    SortPlan × Nat × Nat × List (RunRow Key Value) × Bool :=
  (session.plan, session.nextRow, session.bufferBytes, session.buffer, session.failed)

end SortSession

section Watched

variable {codec : Codec Key Value} {session : SortSession Key Value} {watched : Watched}
  {issue : SortSession Key Value → Request Key Value → Watched → Prop}
  {err : Abort → SortSession Key Value → Watched → Prop}

theorem wp_reserve_watched {bytes : Nat}
    {ok : MemoryCharge → SortSession Key Value → Watched → Prop}
    (issued : issue session (.reserve bytes) watched)
    (failed : ∀ error, err error session watched) (done : ok ⟨bytes⟩ session watched) :
    (reserve bytes : Async Key Value (SortSession Key Value) MemoryCharge).wp
    (watchedSemantics codec)
      issue ok err session watched := by
  refine Method.wp_bind.mpr ⟨issued, ?_⟩
  rintro reply ⟨world, readings⟩ ⟨⟨rfl, limit, used, rfl⟩, same⟩
  obtain rfl : readings = watched.readings := by simpa [Request.reading] using same
  refine Method.wp_ofExcept.mpr ?_
  unfold MemoryBudget.reserve
  split <;> rename_i admitted
  · split at admitted
    · cases admitted
    · cases admitted
      exact done
  · exact failed _

theorem wp_bufferLimit_watched {ok : Nat → SortSession Key Value → Watched → Prop}
    (issued : issue session .limit watched)
    (done : ∀ limit, ok (session.plan.bufferLimit limit) session
      { watched with readings := watched.readings ++ [limit] }) :
    SortSession.bufferLimit.wp (watchedSemantics codec) issue ok err session watched := by
  refine Method.wp_bind.mpr ⟨issued, ?_⟩
  rintro limit ⟨world, readings⟩ ⟨rfl, read⟩
  obtain rfl : readings = watched.readings ++ [limit] := read
  refine Method.wp_bind.mpr (Method.wp_get.mpr ?_)
  have reached := done limit
  cases planned : session.plan with
  | inMemory =>
      rw [planned] at reached
      exact reached
  | external bytes fanIn =>
      rw [planned] at reached
      exact reached

theorem wp_readings {Left Result : Type} {program : Program (engine Key Value) Left Result}
    {first : List Nat} (before : first <+: watched.readings) :
    program.wp (watchedSemantics codec) (fun _ _ next => first <+: next.readings)
      (fun _ next => first <+: next.readings) watched := by
  induction program generalizing watched with
  | done result => exact before
  | request left op resume inductionHypothesis =>
      refine ⟨before, ?_⟩
      intro reply next replied
      refine inductionHypothesis reply ?_
      rw [replied.2]
      exact before.trans (List.prefix_append _ _)

theorem wp_overflowsBuffer_watched {size : Nat} {ok : Bool → SortSession Key Value → Watched → Prop}
    (issued : issue session .limit watched) (empty : session.buffer = [] → ok false session watched)
    (wraps : session.buffer ≠ [] → usizeMax < session.bufferBytes + size → ok true session watched)
    (read : session.buffer ≠ [] → session.bufferBytes + size ≤ usizeMax → ∀ limit,
      ok (decide (session.bufferBytes + size > session.plan.bufferLimit limit)) session
        { watched with readings := watched.readings ++ [limit] }) :
    (SortSession.overflowsBuffer size).wp
    (watchedSemantics codec) issue ok err session watched := by
  refine Method.wp_bind.mpr (Method.wp_get.mpr (Method.wp_ite.mpr ⟨fun none => ?_, fun more => ?_⟩))
  · exact empty (List.isEmpty_iff.mp none)
  · have nonempty : session.buffer ≠ [] := fun none => more (List.isEmpty_iff.mpr none)
    cases sum : checkedAdd usizeMax session.bufferBytes size with
    | none => exact wraps nonempty (checkedAdd_eq_none.mp sum)
    | some sum' =>
        obtain ⟨word, rfl⟩ := checkedAdd_eq_some.mp sum
        exact Method.wp_bind.mpr (wp_bufferLimit_watched issued (read nonempty word))

variable [Layout Key Value]

theorem wp_reserveMetadata_watched {ok : Unit → SortSession Key Value → Watched → Prop}
    (issued : ∀ bytes, issue session (.reserve bytes) watched)
    (failed : ∀ abort, err abort session watched)
    (done : ∀ left, left.gauge = session.gauge → ok () left watched) :
    SortSession.reserveMetadata.wp (watchedSemantics codec) issue ok err session watched := by
  refine Method.wp_bind.mpr
    (Method.wp_get.mpr (Method.wp_ite.mpr ⟨fun _ => done session rfl, fun _ => ?_⟩))
  refine Method.wp_bind.mpr (Method.wp_okOr.mpr ?_)
  split
  · refine Method.wp_bind.mpr (Method.wp_okOr.mpr ?_)
    split
    · refine Method.wp_bind.mpr (wp_reserve_watched (issued _) failed ?_)
      refine Method.wp_bind.mpr (Method.wp_ofExcept.mpr ?_)
      split
      · exact Method.wp_bind.mpr (Method.wp_modify.mpr (Method.wp_modify.mpr (done _ rfl)))
      · exact failed _
    · exact failed _
  · exact failed _

theorem wp_growBuffer_watched {ok : Unit → SortSession Key Value → Watched → Prop}
    (issued : ∀ bytes, issue session (.reserve bytes) watched)
    (failed : ∀ abort, err abort session watched)
    (done : ∀ left, left.gauge = session.gauge → ok () left watched) :
    SortSession.growBuffer.wp (watchedSemantics codec) issue ok err session watched := by
  refine Method.wp_bind.mpr
    (Method.wp_get.mpr (Method.wp_ite.mpr ⟨fun _ => done session rfl, fun _ => ?_⟩))
  refine Method.wp_bind.mpr (Method.wp_okOr.mpr ?_)
  split
  · refine Method.wp_bind.mpr (Method.wp_okOr.mpr ?_)
    split
    · refine Method.wp_bind.mpr (wp_reserve_watched (issued _) failed ?_)
      exact Method.wp_modify.mpr (done _ rfl)
    · exact failed _
  · exact failed _

omit [Layout Key Value] in
theorem wp_storeRow_watched {key : Key} {value : Value} {size : Nat} {charge : MemoryCharge}
    {ok : Unit → SortSession Key Value → Watched → Prop}
    (fits : session.bufferBytes + size ≤ usizeMax) (failed : ∀ abort, err abort session watched)
    (done : ∀ row : RunRow Key Value, row.retainedBytes = size →
      ok () { session with
        nextRow := session.nextRow + 1
        buffer := session.buffer ++ [row]
        bufferBytes := session.bufferBytes + size } watched) :
    (SortSession.storeRow key value size charge).wp (watchedSemantics codec) issue ok err session
      watched := by
  refine Method.wp_bind.mpr (Method.wp_get.mpr (Method.wp_bind.mpr (Method.wp_okOr.mpr ?_)))
  split
  · rename_i nextRow counted
    obtain ⟨-, rfl⟩ := checkedAdd_eq_some.mp counted
    refine Method.wp_bind.mpr (Method.wp_modify.mpr (Method.wp_bind.mpr (Method.wp_modify.mpr ?_)))
    refine Method.wp_bind.mpr (Method.wp_get.mpr (Method.wp_bind.mpr (Method.wp_okOr.mpr ?_)))
    rw [checkedAdd_eq_some.mpr ⟨fits, rfl⟩]
    exact Method.wp_modify.mpr (done _ rfl)
  · exact failed _

end Watched

theorem retained_append (rows rows' : List (RunRow Key Value)) :
    retained (rows ++ rows') = retained rows + retained rows' := by
  simp [retained]

variable [LinearOrder Key]

theorem retained_sortBuffer (rows : List (RunRow Key Value)) :
    retained (SortSession.sortBuffer rows) = retained rows :=
  ((List.perm_insertionSort SortSession.RowLe rows).map _).sum_nat

theorem length_sortBuffer (rows : List (RunRow Key Value)) :
    (SortSession.sortBuffer rows).length = rows.length :=
  (List.perm_insertionSort SortSession.RowLe rows).length_eq

omit [LinearOrder Key] in
theorem SortSession.Counted.congr {plan : SortPlan} {pre : Option Nat}
    {session left : SortSession Key Value} (counted : session.Counted plan pre)
    (same : left.gauge = session.gauge) : left.Counted plan pre := by
  simp only [SortSession.gauge, Prod.mk.injEq] at same
  obtain ⟨samePlan, -, bytes, buffer, -⟩ := same
  refine ⟨samePlan.trans counted.samePlan, ?_, ?_⟩
  · rw [bytes, buffer, counted.bytes]
  · rw [bytes, buffer]
    exact counted.within

omit [LinearOrder Key] in
theorem SortSession.counted_of_nil {plan : SortPlan} {pre : Option Nat}
    {session : SortSession Key Value} (samePlan : session.plan = plan) (empty : session.buffer = [])
    (bytes : session.bufferBytes = 0) : session.Counted plan pre :=
  ⟨samePlan, by rw [bytes, empty]; rfl, fun several => by simp [empty] at several⟩

/-- Where a push of `size` bytes may stand: suspended only while marked failed,
and about to create a run of several rows only within the limit that was read
before the last of them was stored, in this push or an earlier one. -/
structure Due (plan : SortPlan) (pre : Option Nat) (session : SortSession Key Value) (size : Nat)
    (left : SortSession Key Value) (op : Request Key Value) (next : Watched) : Prop where
  marked : op.awaits = true → left.failed = true
  run : ∀ io held dir n, op = .perform io held (.create ⟨dir, .run n⟩) → 1 < left.buffer.length →
    ∃ limit, retained left.buffer ≤ plan.bufferLimit limit ∧
      (if left.nextRow = session.nextRow then pre else session.preCheck size next.readings) =
        some limit

section Push

variable [Layout Key Value] {codec : Codec Key Value} {session : SortSession Key Value}
  {plan : SortPlan} {pre : Option Nat} {world : World} {size : Nat}

omit [LinearOrder Key] [Layout Key Value] in
theorem due_of_quiet {left : SortSession Key Value} {op : Request Key Value} {next : Watched}
    (quiet : op.awaits = false) : Due plan pre session size left op next := by
  constructor
  · intro awaits
    rw [quiet] at awaits
    cases awaits
  · rintro io held dir n rfl
    cases quiet

/-- A session a push left: marked, or as usable as before and without its row. -/
def Left (plan : SortPlan) (pre : Option Nat) (session : SortSession Key Value)
    (left : SortSession Key Value) : Prop :=
  left.failed = true ∨ left.failed = false ∧ left.nextRow = session.nextRow ∧ left.Counted plan pre

theorem wp_spill_watched {watched : Watched} (nonempty : session.buffer ≠ []) :
    SortSession.spill.wp (watchedSemantics codec)
      (fun left _ next => (left.failed = true ∧ left.nextRow = session.nextRow ∧
        (left.buffer = SortSession.sortBuffer session.buffer ∨ left.buffer = [])) ∧
        watched.readings <+: next.readings)
      (fun _ left _ => left.failed = false ∧ left.plan = session.plan ∧
        left.nextRow = session.nextRow ∧ left.buffer = [] ∧ left.bufferBytes = 0)
      (fun _ left _ => left.failed = true) session watched := by
  refine Program.wp_mono (Program.wp_and (SortSession.wp_spill_rows nonempty)
    (wp_readings (List.prefix_refl watched.readings))) (fun _ _ _ issued => issued) ?_
  rintro ⟨_ | _, left⟩ next reached <;> exact reached.1

omit [Layout Key Value] in
theorem due_of_spill {spilled left : SortSession Key Value} {op : Request Key Value}
    {next : Watched}
    (issued : left.failed = true ∧ left.nextRow = spilled.nextRow ∧
      (left.buffer = SortSession.sortBuffer spilled.buffer ∨ left.buffer = []))
    (within : 1 < spilled.buffer.length → ∃ limit,
      retained spilled.buffer ≤ plan.bufferLimit limit ∧
      (if spilled.nextRow = session.nextRow then pre else session.preCheck size next.readings) =
        some limit) :
    Due plan pre session size left op next := by
  obtain ⟨marked, nextRow, sorted | empty⟩ := issued
  · refine ⟨fun _ => marked, ?_⟩
    intro _ _ _ _ _ several
    rw [sorted, length_sortBuffer] at several
    rw [sorted, retained_sortBuffer, nextRow]
    exact within several
  · refine ⟨fun _ => marked, ?_⟩
    intro _ _ _ _ _ several
    simp [empty] at several

/-- The part of a push that stores its row. -/
def storeAndCheck (key : Key) (value : Value) (size : Nat) :
    Async Key Value (SortSession Key Value) Unit := do
  SortSession.growBuffer
  SortSession.storeRow key value size ⟨size⟩
  (if (← get).bufferBytes ≥ (← SortSession.bufferLimit) then SortSession.spill else pure ())

omit [LinearOrder Key] [Layout Key Value] in
/-- A push that stored its row leaves the buffer empty, or below the limit of its
last reading. -/
structure Accepts (plan : SortPlan) (session : SortSession Key Value) (size : Nat)
    (left : SortSession Key Value) (next : Watched) : Prop where
  usable : left.failed = false
  nextRow : left.nextRow = session.nextRow + 1
  counted : left.Counted plan (session.preCheck size next.readings)
  below : left.buffer = [] ∨ ∃ earlier limit, next.readings = earlier ++ [limit] ∧
    left.bufferBytes < plan.bufferLimit limit

/-- The end of a push, in a session that has room for the row.  Rows that are still
there were within the limit of the one reading so far, together with it. -/
theorem wp_store_watched {key : Key} {value : Value} {opened : SortSession Key Value}
    {readings : List Nat} (usable : opened.failed = false) (same : opened.nextRow = session.nextRow)
    (counted : opened.Counted plan pre) (fits : opened.bufferBytes + size ≤ usizeMax)
    (within : opened.buffer ≠ [] → ∃ limit, readings = [limit] ∧ session.buffer ≠ [] ∧
      session.bufferBytes + size ≤ usizeMax ∧
      opened.bufferBytes + size ≤ plan.bufferLimit limit) :
    (storeAndCheck key value size).wp (watchedSemantics codec) (Due plan pre session size)
      (fun _ => Accepts plan session size) (fun _ left _ => Left plan pre session left) opened
      ⟨world, readings⟩ := by
  have stay : Left plan pre session opened := .inr ⟨usable, same, counted⟩
  refine Method.wp_bind.mpr (wp_growBuffer_watched (fun _ => due_of_quiet rfl) (fun _ => stay) ?_)
  intro grown gauge
  have counted' := counted.congr gauge
  simp only [SortSession.gauge, Prod.mk.injEq] at gauge
  obtain ⟨-, grownRow, grownBytes, grownBuffer, grownFailed⟩ := gauge
  have stay' : Left plan pre session grown :=
    .inr ⟨grownFailed.trans usable, grownRow.trans same, counted'⟩
  refine Method.wp_bind.mpr (wp_storeRow_watched (grownBytes ▸ fits) (fun _ => stay') ?_)
  intro row rowBytes
  -- several rows are those that were there and the new one
  have several : ∀ more, 1 < (grown.buffer ++ [row]).length → ∃ limit,
      session.preCheck size (readings ++ more) = some limit ∧
        grown.bufferBytes + size ≤ plan.bufferLimit limit := by
    intro more several
    have nonempty : opened.buffer ≠ [] := by
      rintro none
      simp [grownBuffer, none] at several
    obtain ⟨limit, rfl, held, word, bound⟩ := within nonempty
    refine ⟨limit, ?_, grownBytes ▸ bound⟩
    rw [SortSession.preCheck, if_neg (not_or.mpr ⟨held, Nat.not_lt.mpr word⟩)]
    rfl
  have weighed : grown.bufferBytes + size = retained (grown.buffer ++ [row]) := by
    rw [retained_append, counted'.bytes]
    simp [retained, rowBytes]
  refine Method.wp_bind.mpr (Method.wp_get.mpr ?_)
  refine Method.wp_bind.mpr (wp_bufferLimit_watched (due_of_quiet rfl) fun limit => ?_)
  refine Method.wp_ite.mpr ⟨fun full => ?_, fun roomy => ?_⟩
  · refine Method.wp_mono (wp_spill_watched (by simp)) ?_ ?_ ?_
    · rintro left op next ⟨issued, before⟩
      refine due_of_spill issued fun many => ?_
      obtain ⟨more, readMore⟩ := before
      obtain ⟨bound, read, atMost⟩ := several ([limit] ++ more) many
      refine ⟨bound, weighed ▸ atMost, ?_⟩
      rw [if_neg (by simp only; omega), ← read, ← readMore, List.append_assoc]
    · rintro _ left next ⟨unmarked, samePlan, nextRow, empty, bytes⟩
      refine ⟨unmarked, ?_, SortSession.counted_of_nil
        (samePlan.trans counted'.samePlan) empty bytes,
        .inl empty⟩
      rw [nextRow, ← same, ← grownRow]
    · exact fun _ left _ marked => .inl marked
  · refine ⟨grownFailed.trans usable, by rw [← same, ← grownRow], ⟨counted'.samePlan, weighed, ?_⟩,
      .inr ⟨readings, limit, rfl, ?_⟩⟩
    · exact several [limit]
    · rw [← counted'.samePlan]
      exact Nat.lt_of_not_le roomy

def chargedBytes (Key Value : Type) [Layout Key Value] (estimatedBytes : UInt64) : Nat :=
  max estimatedBytes.toNat (Layout.rowSize Key Value)

omit [LinearOrder Key] in
theorem chargedBytes_le (estimatedBytes : UInt64) :
    chargedBytes Key Value estimatedBytes ≤ usizeMax := by
  have bounded := estimatedBytes.toNat_lt
  have row := @Layout.rowSize_le Key Value _
  unfold chargedBytes usizeMax u64Max at *
  omega

theorem wp_spillFirst_watched {key : Key} {value : Value} {reserved : SortSession Key Value}
    {readings : List Nat} (nonempty : reserved.buffer ≠ [])
    (same : reserved.nextRow = session.nextRow)
    (counted : reserved.Counted plan pre) (word : size ≤ usizeMax) :
    (SortSession.spill >>= fun _ => storeAndCheck key value size).wp (watchedSemantics codec)
      (Due plan pre session size) (fun _ => Accepts plan session size)
      (fun _ left _ => Left plan pre session left) reserved ⟨world, readings⟩ := by
  refine Method.wp_bind.mpr (Method.wp_mono (wp_spill_watched nonempty) ?_ ?_ ?_)
  · rintro left op next ⟨issued, -⟩
    refine due_of_spill issued fun several => ?_
    obtain ⟨limit, read, atMost⟩ := counted.within several
    refine ⟨limit, counted.bytes ▸ atMost, ?_⟩
    rw [if_pos same, read]
  · rintro _ spilled next ⟨usable, samePlan, sameRow, empty, bytes⟩
    refine wp_store_watched usable (sameRow.trans same)
      (SortSession.counted_of_nil (samePlan.trans counted.samePlan) empty bytes) ?_ ?_
    · rwa [bytes, Nat.zero_add]
    · exact fun held => absurd empty held
  · exact fun _ left _ marked => .inl marked

theorem wp_pushWithSize_watched {key : Key} {value : Value} {estimatedBytes : UInt64}
    (usable : session.failed = false) (counted : session.Counted plan pre) :
    (SortSession.pushWithSize key value estimatedBytes).wp (watchedSemantics codec)
      (Due plan pre session (chargedBytes Key Value estimatedBytes))
      (fun _ => Accepts plan session (chargedBytes Key Value estimatedBytes))
      (fun _ left _ => Left plan pre session left) session ⟨world, []⟩ := by
  have word : chargedBytes Key Value estimatedBytes ≤ usizeMax := chargedBytes_le estimatedBytes
  have stay : Left plan pre session session := .inr ⟨usable, rfl, counted⟩
  refine Method.wp_bind.mpr (Method.wp_bind.mpr (Method.wp_get.mpr (Method.wp_ite.mpr
    ⟨fun _ => stay, fun _ => ?_⟩)))
  refine Method.wp_bind.mpr (wp_reserveMetadata_watched (fun _ => due_of_quiet rfl)
    (fun _ => stay) ?_)
  intro reserved gauge
  have counted' := counted.congr gauge
  simp only [SortSession.gauge, Prod.mk.injEq] at gauge
  obtain ⟨samePlan, sameRow, sameBytes, sameBuffer, sameFailed⟩ := gauge
  have usable' := sameFailed.trans usable
  have stay' : Left plan pre session reserved := .inr ⟨usable', sameRow, counted'⟩
  refine Method.wp_bind.mpr (wp_reserve_watched (due_of_quiet rfl) (fun _ => stay') ?_)
  refine Method.wp_bind.mpr (wp_overflowsBuffer_watched (due_of_quiet rfl) ?_ ?_ ?_)
  · intro empty
    have fits : reserved.bufferBytes + chargedBytes Key Value estimatedBytes ≤ usizeMax := by
      rw [counted'.bytes, empty]
      simpa [retained] using word
    exact wp_store_watched usable' sameRow counted' fits fun held => absurd empty held
  · intro nonempty _
    exact wp_spillFirst_watched nonempty sameRow counted' word
  · intro nonempty fits limit
    by_cases exceeds : reserved.bufferBytes + max estimatedBytes.toNat (Layout.rowSize Key Value) >
        reserved.plan.bufferLimit limit
    · rw [decide_eq_true exceeds]
      exact wp_spillFirst_watched nonempty sameRow counted' word
    · rw [decide_eq_false exceeds]
      refine wp_store_watched usable' sameRow counted' fits fun _ => ⟨limit, rfl, ?_, ?_, ?_⟩
      · exact sameBuffer ▸ nonempty
      · exact sameBytes ▸ fits
      · rw [← counted'.samePlan]
        exact Nat.le_of_not_lt exceeds

end Push

section Ingestion

variable [Layout Key Value]

/-- The sessions that any pushes lead to, whatever became of each, with the limit
that the push of the last buffered row read before it stored it. -/
inductive Ingests (codec : Codec Key Value) (plan : SortPlan) :
    Option Nat → SortSession Key Value → World → Prop where
  | new (dir : ScratchDir) (dedup : Bool) (scope : ScopeId) (hold : Option Resource) (fs : Fs) :
      Ingests codec plan none (.new plan dir dedup scope hold) { fs, log := [] }
  | stored {pre session world session' world' readings} {outcome : Except Abort Unit} (key : Key)
      (value : Value) (bytes : UInt64) :
      Ingests codec plan pre session world →
      Runs (watchedSemantics codec) (SortSession.pushWithSize key value bytes session) ⟨world, []⟩
        (.returned (outcome, session')) ⟨world', readings⟩ →
      session'.nextRow ≠ session.nextRow →
      Ingests codec plan (session.preCheck (chargedBytes Key Value bytes) readings) session' world'
  | refused {pre session world session' world' readings} {outcome : Except Abort Unit} (key : Key)
      (value : Value) (bytes : UInt64) :
      Ingests codec plan pre session world →
      Runs (watchedSemantics codec) (SortSession.pushWithSize key value bytes session) ⟨world, []⟩
        (.returned (outcome, session')) ⟨world', readings⟩ →
      session'.nextRow = session.nextRow →
      Ingests codec plan pre session' world'
  | dropped {pre session world session' world' readings} (key : Key) (value : Value)
      (bytes : UInt64) :
      Ingests codec plan pre session world →
      Runs (watchedSemantics codec) (SortSession.pushWithSize key value bytes session) ⟨world, []⟩
        (.dropped session') ⟨world', readings⟩ →
      Ingests codec plan pre session' world'

variable {codec : Codec Key Value} {plan : SortPlan} {pre : Option Nat}
  {session session' : SortSession Key Value} {world : World}

theorem Ingests.counted (ingests : Ingests codec plan pre session world) :
    session.failed = true ∨ session.Counted plan pre := by
  induction ingests with
  | new => exact .inr (SortSession.counted_of_nil rfl rfl rfl)
  | @stored pre session world session' world' readings outcome key value bytes _ run moved
      inductionHypothesis =>
      obtain failed | counted := inductionHypothesis
      · rw [pushWithSize_of_failed failed] at run
        cases run
        exact absurd rfl moved
      · cases usable : session.failed with
        | true =>
            rw [pushWithSize_of_failed usable] at run
            cases run
            exact absurd rfl moved
        | false =>
            have reached := Method.wp_returned (wp_pushWithSize_watched usable counted) run
            cases outcome with
            | ok _ => exact .inr reached.counted
            | error _ => exact reached.imp_right fun left => absurd left.2.1 moved
  | @refused pre session world session' world' readings outcome key value bytes _ run same
      inductionHypothesis =>
      cases usable : session.failed with
      | true =>
          rw [pushWithSize_of_failed usable] at run
          cases run
          exact .inl usable
      | false =>
          have counted := inductionHypothesis.resolve_left (by simp [usable])
          have reached := Method.wp_returned (wp_pushWithSize_watched usable counted) run
          cases outcome with
          | ok _ =>
              have moved := reached.nextRow
              omega
          | error _ => exact reached.imp_right fun left => left.2.2
  | @dropped pre session world session' world' readings key value bytes _ run inductionHypothesis =>
      cases usable : session.failed with
      | true =>
          rw [pushWithSize_of_failed usable] at run
          cases run
      | false =>
          have counted := inductionHypothesis.resolve_left (by simp [usable])
          obtain ⟨op, middle, due, dropped⟩ :=
            Method.wp_dropped (wp_pushWithSize_watched usable counted) run
          exact .inl (due.marked (awaits_of_drop dropped.1))

/-- The run buffer of a session that is not marked failed holds what was counted.
A push that succeeds leaves it empty, or below the limit of the push's last
reading; a run of several rows is within the limit that was read before the last
of them was stored; and a push that reports an error and leaves the session
unmarked has not stored its row. -/
theorem buffer_threshold (ingests : Ingests codec plan pre session world)
    (usable : session.failed = false) :
    session.bufferBytes = retained session.buffer ∧
    ∀ (key : Key) (value : Value) (bytes : UInt64),
      (∀ session' world' readings,
        Runs (watchedSemantics codec) (SortSession.pushWithSize key value bytes session) ⟨world, []⟩
          (.returned (.ok (), session')) ⟨world', readings⟩ →
        session'.buffer = [] ∨ ∃ earlier limit, readings = earlier ++ [limit] ∧
          session'.bufferBytes < plan.bufferLimit limit) ∧
      (∀ left io held dir n next,
        Pauses (watchedSemantics codec)
          (SortSession.pushWithSize key value bytes session) ⟨world, []⟩
          left (.perform io held (.create ⟨dir, .run n⟩)) next →
        1 < left.buffer.length →
        ∃ limit, retained left.buffer ≤ plan.bufferLimit limit ∧
          (if left.nextRow = session.nextRow then pre
            else session.preCheck (chargedBytes Key Value bytes) next.readings) = some limit) ∧
      ∀ abort session' next,
        Runs (watchedSemantics codec) (SortSession.pushWithSize key value bytes session) ⟨world, []⟩
          (.returned (.error abort, session')) next →
        session'.failed = false → session'.nextRow = session.nextRow := by
  have counted := ingests.counted.resolve_left (by simp [usable])
  refine ⟨counted.bytes, ?_⟩
  intro key value bytes
  have push : (SortSession.pushWithSize key value bytes).wp (watchedSemantics codec)
      (Due plan pre session (chargedBytes Key Value bytes))
      (fun _ => Accepts plan session (chargedBytes Key Value bytes))
      (fun _ left _ => Left plan pre session left) session ⟨world, []⟩ :=
    wp_pushWithSize_watched usable counted
  refine ⟨?_, ?_, ?_⟩
  · intro session' world' readings run
    exact (Method.wp_returned push run).below
  · intro left io held dir n next pauses several
    exact (Program.wp_pauses push pauses).run io held dir n rfl several
  · intro abort session' next run unmarked
    obtain marked | ⟨-, same, -⟩ := Method.wp_returned push run
    · rw [unmarked] at marked
      cases marked
    · exact same

def pushAllWatched (pure : PureCodec Key Value) (bytes : UInt64) :
    List (Key × Value) → Option Nat → SortSession Key Value → World →
      Option (Option Nat × SortSession Key Value × World)
  | [], pre, session, world => some (pre, session, world)
  | (key, value) :: rows, pre, session, world =>
      match (SortSession.pushWithSize key value bytes session).follow (watchedPolicy pure)
          (⟨world, []⟩ : Watched) with
      | some ((.ok (), session'), watched) =>
          if session'.nextRow = session.nextRow then none
          else
            pushAllWatched pure bytes rows
              (session.preCheck (chargedBytes Key Value bytes) watched.readings) session'
              watched.world
      | _ => none

theorem ingests_of_pushAllWatched {pure : PureCodec Key Value} {bytes : UInt64}
    {rows : List (Key × Value)} {pre' : Option Nat} {world' : World}
    (ingests : Ingests pure.codec plan pre session world)
    (pushed : pushAllWatched pure bytes rows pre session world = some (pre', session', world')) :
    Ingests pure.codec plan pre' session' world' := by
  induction rows generalizing pre session world with
  | nil =>
      cases pushed
      exact ingests
  | cons row rows inductionHypothesis =>
      unfold pushAllWatched at pushed
      split at pushed
      · rename_i session₁ watched followed
        split at pushed
        · cases pushed
        · rename_i stored
          have run := Program.runs_of_follow (watchedPolicy_allowed pure) followed
          exact inductionHypothesis (.stored row.1 row.2 bytes ingests run stored) pushed
      · cases pushed

def createsRun : Request Nat Nat → Bool
  | .perform _ _ (.create ⟨0, .run _⟩) => true
  | _ => false

theorem eq_of_createsRun {op : Request Nat Nat} (creates : createsRun op = true) :
    ∃ io held n, op = .perform io held (.create ⟨0, .run n⟩) := by
  unfold createsRun at creates
  split at creates
  · exact ⟨_, _, _, rfl⟩
  · cases creates

/-- Two rows of forty bytes are held; a third does not fit under a hundred, so its
push writes the two as a run before it stores the row. -/
theorem buffer_threshold_spilling :
    ∃ pre session world, Ingests byteRows.codec (.external 100 2) pre session world ∧
      session.buffer.length = 2 ∧ session.bufferBytes = retained session.buffer ∧
      (∃ left io held n next,
        Pauses (watchedSemantics byteRows.codec)
          (SortSession.pushWithSize 2 9 40 session) ⟨world, []⟩
          left (.perform io held (.create ⟨0, .run n⟩)) next ∧
        left.buffer.length = 2 ∧
        ∃ limit, retained left.buffer ≤ (SortPlan.external 100 2).bufferLimit limit ∧
          pre = some limit) ∧
      ∃ session' world' readings,
        Runs (watchedSemantics byteRows.codec) (SortSession.pushWithSize 2 9 40 session) ⟨world, []⟩
          (.returned (.ok (), session')) ⟨world', readings⟩ ∧
        session'.buffer.length = 1 ∧ ∃ earlier limit, readings = earlier ++ [limit] ∧
          session'.bufferBytes < (SortPlan.external 100 2).bufferLimit limit := by
  have pushed : (pushAllWatched byteRows 40 [(3, 1), (1, 2)] none
      (.new (.external 100 2) 0 false 0 none) .empty).any (fun (_, session, world) =>
        !session.failed && session.buffer.length = 2 &&
        ((SortSession.pushWithSize 2 9 40 session).followUntil (watchedPolicy byteRows) createsRun
          ⟨world, []⟩).any (fun (left, _) =>
            left.buffer.length = 2 && left.nextRow = session.nextRow) &&
        ((SortSession.pushWithSize 2 9 40 session).follow (watchedPolicy byteRows)
          (⟨world, []⟩ : Watched)).any (fun ended =>
            ended.1.1.isOk && ended.1.2.buffer.length = 1)) = true := by
    decide +kernel
  obtain ⟨⟨pre, session, world⟩, followed, tested⟩ := (Option.any_eq_true _ _).mp pushed
  simp only [Bool.and_eq_true, Bool.not_eq_true', decide_eq_true_eq] at tested
  obtain ⟨⟨⟨usable, two⟩, paused⟩, ended⟩ := tested
  have ingests := ingests_of_pushAllWatched (.new 0 false 0 none World.empty.fs) followed
  obtain ⟨bytes, threshold⟩ := buffer_threshold ingests usable
  obtain ⟨below, within, -⟩ := threshold 2 9 40
  refine ⟨pre, session, world, ingests, two, bytes, ?_, ?_⟩
  · obtain ⟨⟨left, op, next⟩, stopped, held⟩ := (Option.any_eq_true _ _).mp paused
    simp only [Bool.and_eq_true, decide_eq_true_eq] at held
    obtain ⟨creates, pauses⟩ :=
      Program.pauses_of_followUntil (watchedPolicy_allowed byteRows) stopped
    obtain ⟨io, charges, n, rfl⟩ := eq_of_createsRun creates
    obtain ⟨limit, fits, read⟩ := within left io charges 0 n next pauses (by omega)
    rw [if_pos held.2] at read
    exact ⟨left, io, charges, n, next, pauses, held.1, limit, fits, read⟩
  · obtain ⟨⟨⟨outcome, session'⟩, world', readings⟩, followed', held⟩ :=
      (Option.any_eq_true _ _).mp ended
    simp only [Bool.and_eq_true, decide_eq_true_eq] at held
    cases outcome with
    | error abort => exact absurd held.1 Bool.false_ne_true
    | ok done =>
        have run := Program.runs_of_follow (watchedPolicy_allowed byteRows) followed'
        obtain empty | reading := below session' world' readings run
        · rw [empty] at held
          cases held.2
        · exact ⟨session', world', readings, run, held.2, reading⟩

end Ingestion

end SortGovernor.Engine
