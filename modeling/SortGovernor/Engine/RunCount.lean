import SortGovernor.Engine.Execute
import SortGovernor.Engine.Stays
import SortGovernor.Plan.Planner
import SortGovernor.Sorting.Packing

/-!
# How many runs a planned sort spills

The planner sizes the run buffer so that a sort of its estimate needs at most
`max_fan_in²` runs.  The session also caps its buffer at an eighth of the budget
limit.  Rows are packed next-fit, so the number of runs is at most twice the
number of buffers the rows fill, and one.
-/

namespace SortGovernor.Engine

open SortGovernor.Resumption SortGovernor.Sorting SortGovernor.Plan

section Governed

variable {Key Value : Type}

/-- Replies of a governed budget while the pressure stays the same. -/
def Request.Under (limit : Nat) : (op : Request Key Value) → op.Reply → Prop
  | .limit, reply => reply = limit
  | .reserve bytes, reply => ∃ used, reply = MemoryBudget.reserve limit used bytes
  | _, _ => True

/-- The sequential semantics under a governed budget and constant pressure. -/
def governedSemantics (limit : Nat) (codec : Codec Key Value) :
    Semantics (engine Key Value) World where
  reply op world reply next := (sessionSemantics codec).reply op world reply next ∧
    op.Under limit reply
  drop := (sessionSemantics codec).drop

def runCapacity (limit runBufferBytes : Nat) : Nat :=
  min (max (min (limit / 8) usizeMax) 1) (max runBufferBytes 1)

theorem runCapacity_le (limit runBufferBytes : Nat) :
    runCapacity limit runBufferBytes ≤ usizeMax := by
  unfold runCapacity usizeMax u64Max
  omega

variable [LinearOrder Key] [Layout Key Value]

/-- The sessions of a plan after pushes that all succeeded, with the charged
bytes of their rows. -/
inductive Pushed (limit : Nat) (codec : Codec Key Value) (plan : SortPlan) :
    Nat → SortSession Key Value → World → Prop where
  | new (dir : ScratchDir) (dedup : Bool) (scope : ScopeId) (hold : Option Resource) (fs : Fs) :
      Pushed limit codec plan 0 (.new plan dir dedup scope hold) { fs, log := [] }
  | push {total session world session' world'} (key : Key) (value : Value) (bytes : UInt64) :
      Pushed limit codec plan total session world →
      Runs (governedSemantics limit codec) (SortSession.pushWithSize key value bytes session) world
        (.returned (.ok (), session')) world' →
      Pushed limit codec plan (total + max bytes.toNat (Layout.rowSize Key Value)) session' world'

end Governed

section Packing

variable {Key Value : Type} [LinearOrder Key] [Layout Key Value] {codec : Codec Key Value}
  {limit runBufferBytes maxFanIn total : Nat} {session : SortSession Key Value} {world : World}

/-- The runs and the buffer of a session are a next-fit packing of its rows. -/
structure SortSession.Packed (limit runBufferBytes maxFanIn total : Nat)
    (session : SortSession Key Value) : Prop where
  plan : session.plan = .external runBufferBytes maxFanIn
  fit : ∃ packed, packed + session.bufferBytes = total ∧
    NextFit (runCapacity limit runBufferBytes) session.nextRun packed session.bufferBytes
  held : session.buffer ≠ [] → 0 < session.bufferBytes

omit [LinearOrder Key] [Layout Key Value] in
theorem wp_governed {State Result : Type} {method : Async Key Value State Result}
    {ok : Result → State → World → Prop} {state : State}
    (holds : method.wp (sessionSemantics codec) (fun _ _ _ => True) ok (fun _ _ _ => True) state
      world) :
    method.wp (governedSemantics limit codec) (fun _ _ _ => True) ok (fun _ _ _ => True) state
      world := by
  exact Program.wp_refine holds fun _ _ _ _ replied => replied.1

omit [LinearOrder Key] [Layout Key Value] in
theorem wp_bufferLimit_governed {ok : Nat → SortSession Key Value → World → Prop}
    (plan : session.plan = .external runBufferBytes maxFanIn)
    (done : ok (runCapacity limit runBufferBytes) session world) :
    SortSession.bufferLimit.wp (governedSemantics limit codec) (fun _ _ _ => True) ok
      (fun _ _ _ => True) session world := by
  refine Method.wp_bind.mpr ⟨trivial, ?_⟩
  rintro reply next ⟨rfl, rfl⟩
  refine Method.wp_bind.mpr (Method.wp_get.mpr ?_)
  rw [plan]
  exact done

omit [LinearOrder Key] [Layout Key Value] in
theorem wp_overflowsBuffer_governed {bytes : Nat} {ok : Bool → SortSession Key Value → World → Prop}
    (plan : session.plan = .external runBufferBytes maxFanIn)
    (overflows : session.buffer ≠ [] →
      runCapacity limit runBufferBytes < session.bufferBytes + bytes → ok true session world)
    (fits : session.buffer = [] ∨ session.bufferBytes + bytes ≤ runCapacity limit runBufferBytes →
      ok false session world) :
    (SortSession.overflowsBuffer bytes).wp (governedSemantics limit codec) (fun _ _ _ => True) ok
      (fun _ _ _ => True) session world := by
  have word := runCapacity_le limit runBufferBytes
  refine Method.wp_bind.mpr
    (Method.wp_get.mpr (Method.wp_ite.mpr ⟨fun empty => ?_, fun more => ?_⟩))
  · exact fits (.inl (List.isEmpty_iff.mp empty))
  · have nonempty : session.buffer ≠ [] := fun empty => more (List.isEmpty_iff.mpr empty)
    cases sum : checkedAdd usizeMax session.bufferBytes bytes with
    | none => exact overflows nonempty (word.trans_lt (checkedAdd_eq_none.mp sum))
    | some sum' =>
        obtain ⟨-, rfl⟩ := checkedAdd_eq_some.mp sum
        refine Method.wp_bind.mpr (wp_bufferLimit_governed plan ?_)
        by_cases exceeds : session.bufferBytes + bytes > runCapacity limit runBufferBytes
        · simpa [exceeds] using overflows nonempty exceeds
        · simpa [exceeds] using fits (.inr (Nat.le_of_not_lt exceeds))

/-- A push that succeeds packs one more row. -/
theorem wp_pushWithSize_governed {dedup : Bool} {accepted : List (Record Key Value)} {key : Key}
    {value : Value} {bytes : UInt64} (usable : session.Usable codec dedup accepted world)
    (packed : session.Packed limit runBufferBytes maxFanIn total) :
    (SortSession.pushWithSize key value bytes).wp (governedSemantics limit codec)
      (fun _ _ _ => True)
      (fun _ session' _ => session'.Packed limit runBufferBytes maxFanIn
        (total + max bytes.toNat (Layout.rowSize Key Value)))
      (fun _ _ _ => True) session world := by
  have row : 0 < max bytes.toNat (Layout.rowSize Key Value) :=
    Nat.lt_of_lt_of_le Layout.rowSize_pos (Nat.le_max_right _ _)
  have word := runCapacity_le limit runBufferBytes
  have quiet :
      Quiet (fun (_ : SortSession Key Value) (_ : Request Key Value) (_ : World) => True) :=
    fun _ _ _ _ => trivial
  have small : max bytes.toNat (Layout.rowSize Key Value) ≤ usizeMax := by
    have bounded := bytes.toNat_lt
    have inline := @Layout.rowSize_le Key Value _
    unfold usizeMax u64Max at *
    omega
  unfold SortSession.pushWithSize
  generalize max bytes.toNat (Layout.rowSize Key Value) = size at row small ⊢
  -- a stored row joins the open buffer, which is spilled once it is full
  have store : ∀ (session : SortSession Key Value) world closed, session.Usable codec dedup
    accepted world →
      session.plan = .external runBufferBytes maxFanIn →
      closed + session.bufferBytes = total →
      NextFit (runCapacity limit runBufferBytes) session.nextRun closed
        (session.bufferBytes + size) →
      session.bufferBytes + size ≤ usizeMax →
      (do
        SortSession.growBuffer
        SortSession.storeRow key value size ⟨size⟩
        (if (← get).bufferBytes ≥ (← SortSession.bufferLimit) then SortSession.spill
          else pure ()) : Async Key Value (SortSession Key Value) Unit).wp
        (governedSemantics limit codec) (fun _ _ _ => True)
        (fun _ session' _ => session'.Packed limit runBufferBytes maxFanIn (total + size))
        (fun _ _ _ => True) session world := by
    intro session world closed usable plan sum fit fits
    refine Method.wp_bind.mpr (wp_governed (wp_growBuffer quiet usable (fun _ => trivial)
      fun grown usable _ counts _ => ?_))
    obtain ⟨grownPlan, grownRuns, grownBytes⟩ :
        grown.plan = session.plan ∧ grown.nextRun = session.nextRun ∧
          grown.bufferBytes = session.bufferBytes := by
      simpa [SortSession.counts] using counts
    refine Method.wp_bind.mpr
      (wp_governed (wp_storeRow usable (fun _ => trivial) (grownBytes ▸ fits)
      fun stored usable _ counts nonempty => ?_))
    obtain ⟨storedPlan, storedRuns, storedBytes⟩ :
        stored.plan = grown.plan ∧ stored.nextRun = grown.nextRun ∧
          stored.bufferBytes = grown.bufferBytes + size := by
      simpa [SortSession.counts] using counts
    have plan' : stored.plan = .external runBufferBytes maxFanIn :=
      storedPlan.trans (grownPlan.trans plan)
    refine Method.wp_bind.mpr (Method.wp_get.mpr ?_)
    refine Method.wp_bind.mpr (wp_bufferLimit_governed plan' ?_)
    refine Method.wp_ite.mpr ⟨fun full => ?_, fun _ => ?_⟩
    · refine wp_governed (wp_spill_usable (fun _ _ => ⟨fun _ _ _ => trivial, fun _ _ => trivial⟩)
        (fun _ _ _ _ _ _ _ _ => trivial) usable tidy_self nonempty
        fun spilled world' _ _ counts empty => ?_)
      obtain ⟨spilledPlan, spilledRuns, spilledBytes⟩ :
          spilled.plan = stored.plan ∧ spilled.nextRun = stored.nextRun + 1 ∧
            spilled.bufferBytes = 0 := by
        simpa [SortSession.counts] using counts
      refine ⟨spilledPlan.trans plan', ⟨closed + (session.bufferBytes + size), by omega, ?_⟩,
        fun some => absurd empty some⟩
      rw [spilledRuns, storedRuns, grownRuns, spilledBytes]
      exact fit.close (by omega) (.inl (by omega))
    · refine ⟨plan', ⟨closed, by omega, ?_⟩, fun _ => by omega⟩
      rw [storedRuns, grownRuns, storedBytes, grownBytes]
      exact fit
  refine Method.wp_bind.mpr (wp_governed (wp_ensureUsable usable ?_))
  refine Method.wp_bind.mpr (wp_governed (wp_reserveMetadata quiet usable (fun _ => trivial)
    fun reserved usable _ counts buffer => ?_))
  obtain ⟨samePlan, sameRuns, sameBytes⟩ :
      reserved.plan = session.plan ∧ reserved.nextRun = session.nextRun ∧
        reserved.bufferBytes = session.bufferBytes := by
    simpa [SortSession.counts] using counts
  obtain ⟨plan, ⟨closed, sum, fit⟩, held⟩ := packed
  rw [← samePlan] at plan
  rw [← sameRuns, ← sameBytes] at fit
  rw [← sameBytes] at sum
  rw [← buffer, ← sameBytes] at held
  refine Method.wp_bind.mpr (wp_governed (wp_reserve trivial (fun _ => trivial) ?_))
  refine Method.wp_bind.mpr (wp_overflowsBuffer_governed plan (fun nonempty exceeded => ?_)
    fun fits => ?_)
  · refine Method.wp_bind.mpr
      (wp_governed (wp_spill_usable (fun _ _ => ⟨fun _ _ _ => trivial, fun _ _ => trivial⟩)
      (fun _ _ _ _ _ _ _ _ => trivial) usable tidy_self nonempty
      fun spilled world' usable _ counts _ => ?_))
    obtain ⟨spilledPlan, spilledRuns, spilledBytes⟩ :
        spilled.plan = reserved.plan ∧ spilled.nextRun = reserved.nextRun + 1 ∧
          spilled.bufferBytes = 0 := by
      simpa [SortSession.counts] using counts
    refine store spilled world' _ usable (spilledPlan.trans plan)
      (by rw [spilledBytes]; exact sum) ?_ ?_
    · rw [spilledRuns, spilledBytes, Nat.zero_add]
      exact fit.close (held nonempty) (.inr exceeded)
    · rwa [spilledBytes, Nat.zero_add]
  · refine Method.wp_bind.mpr (store reserved world closed usable plan sum fit.put ?_)
    obtain empty | fits := fits
    · obtain ⟨chunks, holds⟩ := usable.holds
      rwa [holds.emptyBytes empty, Nat.zero_add]
    · exact fits.trans word

end Packing

namespace SortSession

variable {Key Value : Type} [LinearOrder Key] [Layout Key Value]
  {sem : Semantics (engine Key Value) World} {bound : Nat}

/-- The session has spilled at most `bound` runs. -/
def SpillsWithin (bound : Nat) (session : SortSession Key Value) : Prop :=
  session.nextRun ≤ bound

theorem wp_spill_within {session : SortSession Key Value} {world : World}
    (room : session.nextRun + 1 ≤ bound) :
    spill.wp sem (fun session _ _ => SpillsWithin bound session)
      (fun _ session _ => SpillsWithin bound session)
      (fun _ session _ => SpillsWithin bound session) session world :=
  wp_spill_of_ignores (fun _ _ _ _ _ _ _ _ within => within) ((Nat.le_succ _).trans room) room

/-- `mergeStream` spills the buffer if it still holds rows. -/
theorem wp_mergeStream_within {fanIn : Nat} {session : SortSession Key Value} {world : World}
    (room : session.nextRun + (if session.buffer = [] then 0 else 1) ≤ bound) :
    (mergeStream fanIn).wp sem (fun session _ _ => SpillsWithin bound session)
      (fun _ session _ => SpillsWithin bound session)
      (fun _ session _ => SpillsWithin bound session) session world := by
  refine Method.wp_bind.mpr (Method.wp_get.mpr (Method.wp_bind.mpr ?_))
  have rest : Method.Stays sem (SpillsWithin bound) (do
      let hold := (← get).hold
      modify fun session => { session with hold := none }
      let spills := (← get).spills.reverse.filterMap id
      modify fun session => { session with spills := session.spills.map fun _ => none }
      let session ← get
      Method.within session.cleanup (fun cleanup session => { session with cleanup })
        (cascadeAndStream spills (max fanIn 2) session.dir session.dedup hold)
      : Async Key Value (SortSession Key Value) (ValueStream Key Value)) := by
    refine Method.stays_bind Method.stays_get fun session => ?_
    refine Method.stays_bind (Method.stays_modify fun _ within => within) fun _ => ?_
    refine Method.stays_bind Method.stays_get fun session => ?_
    refine Method.stays_bind (Method.stays_modify fun _ within => within) fun _ => ?_
    refine Method.stays_bind Method.stays_get fun session => ?_
    exact Method.stays_within fun _ _ within => within
  refine Method.wp_ite.mpr ⟨fun empty => ?_, fun more => ?_⟩
  · rw [if_pos (List.isEmpty_iff.mp empty)] at room
    exact rest session world room
  · rw [if_neg fun empty => more (List.isEmpty_iff.mpr empty)] at room
    exact Method.wp_post (wp_spill_within room)
      (fun _ session world within => rest session world within)
      fun _ _ _ within => within

omit [Layout Key Value] in
theorem sortBuffer_eq_nil {rows : List (RunRow Key Value)} : sortBuffer rows = [] ↔ rows = [] := by
  have permuted : (sortBuffer rows).Perm rows := List.perm_insertionSort RowLe rows
  rw [← List.length_eq_zero_iff, ← List.length_eq_zero_iff, permuted.length_eq]

/-- Whatever becomes of `finish`, it spills at most the rows still buffered. -/
theorem wp_finish_within {session : SortSession Key Value} {world : World}
    (room : session.nextRun + (if session.buffer = [] then 0 else 1) ≤ bound) :
    finish.wp sem (fun session _ _ => SpillsWithin bound session)
      (fun _ session _ => SpillsWithin bound session)
      (fun _ session _ => SpillsWithin bound session) session world := by
  have already : SpillsWithin bound session := (Nat.le_add_right _ _).trans room
  have sorted : session.nextRun + (if sortBuffer session.buffer = [] then 0 else 1) ≤ bound := by
    simpa only [sortBuffer_eq_nil] using room
  refine Method.wp_bind.mpr (Method.wp_bind.mpr (Method.wp_get.mpr ?_))
  refine Method.wp_ite.mpr ⟨fun _ => already, fun _ => ?_⟩
  refine Method.wp_bind.mpr (Method.wp_modify.mpr (Method.wp_bind.mpr (Method.wp_get.mpr ?_)))
  have inMemory : Method.Stays sem (SpillsWithin bound)
      (inMemoryStream : Async Key Value (SortSession Key Value) _) := by
    refine Method.stays_bind Method.stays_get fun session => ?_
    refine Method.stays_bind (Method.stays_modify fun _ within => within) fun _ => ?_
    refine Method.stays_bind (Method.stays_modify fun _ within => within) fun _ => ?_
    exact Method.stays_pure _
  split
  · exact Method.wp_ite.mpr ⟨fun _ => inMemory _ world already,
      fun _ => wp_mergeStream_within sorted⟩
  · exact Method.wp_ite.mpr ⟨fun _ => inMemory _ world already,
      fun _ => wp_mergeStream_within sorted⟩

end SortSession

section Planned

variable {Key Value : Type} [LinearOrder Key] [Layout Key Value] {codec : Codec Key Value}
  {limit runBufferBytes maxFanIn total : Nat} {session : SortSession Key Value} {world : World}

theorem Pushed.packed
    (pushed : Pushed limit codec (.external runBufferBytes maxFanIn) total session world) :
    ∃ dedup accepted, session.Usable codec dedup accepted world ∧
      session.Packed limit runBufferBytes maxFanIn total := by
  induction pushed with
  | new dir dedup scope hold fs =>
      refine ⟨dedup, recordsOf [], usable_new _ dir scope hold fs, rfl, ⟨0, rfl, .empty _⟩, ?_⟩
      exact fun nonempty => absurd rfl nonempty
  | push key value bytes _ run inductionHypothesis =>
      obtain ⟨dedup, accepted, usable, packed⟩ := inductionHypothesis
      have accepts := Method.wp_mono (@wp_pushWithSize _ _ _ _ _ _ _ _ _ key value bytes usable)
        (fun _ _ _ _ => trivial) (fun _ _ _ reached => reached) fun _ _ _ _ => trivial
      refine ⟨dedup, _, Method.wp_returned (wp_governed accepts) run, ?_⟩
      exact Method.wp_returned (wp_pushWithSize_governed usable packed) run

omit [LinearOrder Key] [Layout Key Value] in
/-- The runs written so far, and the one `finish` would write. -/
theorem SortSession.Packed.runs (packed : session.Packed limit runBufferBytes maxFanIn total) :
    session.nextRun + (if session.buffer = [] then 0 else 1) ≤
      2 * (total / (runCapacity limit runBufferBytes + 1)) + 1 := by
  obtain ⟨-, ⟨closed, sum, fit⟩, held⟩ := packed
  have count := fit.count
  rw [sum] at count
  refine Nat.le_trans (Nat.add_le_add_left ?_ _) count
  by_cases empty : session.buffer = []
  · rw [if_pos empty]
    exact Nat.zero_le _
  · rw [if_neg empty, if_neg (held empty).ne']

/-- `MemoryBudget::limit` of the governor's budget while the pressure stays the
same. -/
def governedLimit (cfg : SorterConfig) (snap : SorterSnapshot) : Nat :=
  min cfg.maxRunBufferBytes snap.availableMemoryBytes

variable {spec : SortSpec} {snap : SorterSnapshot} {cfg : SorterConfig}

/-- When an eighth of the budget holds the planned buffer, the session packs the
estimate into the runs the planner counted. -/
theorem packs_of_shared (built : cfg.Built)
    (planned : SortPlanner.plan spec snap cfg = .external runBufferBytes maxFanIn)
    (configured : runBufferBytes < cfg.maxRunBufferBytes)
    (available : runBufferBytes < snap.availableMemoryBytes)
    (shared : runBufferBytes ≤ governedLimit cfg snap / 8) :
    spec.estimatedBytes / (runCapacity (governedLimit cfg snap) runBufferBytes + 1) ≤
      maxFanIn * maxFanIn := by
  obtain ⟨positive, -, covers⟩ := plan_buffer built planned configured available
  obtain ⟨-, -, -, most⟩ := built.bounds
  have capacity : runCapacity (governedLimit cfg snap) runBufferBytes = runBufferBytes := by
    unfold runCapacity usizeMax u64Max
    omega
  rw [capacity]
  apply Nat.div_le_of_le_mul
  refine covers.trans ?_
  exact Nat.mul_le_mul_right _ (Nat.le_succ _)

/-- A planned sort whose rows stay within the estimate spills `2 * max_fan_in² + 1`
runs at most, provided the buffer the session allows itself packs the estimate
into `max_fan_in²` runs.  It does when an eighth of the budget holds the planned
buffer. -/
theorem run_count (built : cfg.Built)
    (planned : SortPlanner.plan spec snap cfg = .external runBufferBytes maxFanIn)
    (configured : runBufferBytes < cfg.maxRunBufferBytes)
    (available : runBufferBytes < snap.availableMemoryBytes) :
    (spec.estimatedBytes / (runCapacity (governedLimit cfg snap) runBufferBytes + 1) ≤
        maxFanIn * maxFanIn →
      ∀ total session world,
        Pushed (governedLimit cfg snap) codec (.external runBufferBytes maxFanIn) total session
          world →
        total ≤ spec.estimatedBytes →
        session.nextRun ≤ 2 * (maxFanIn * maxFanIn) + 1 ∧
          (∀ result session' world',
            Runs (governedSemantics (governedLimit cfg snap) codec) (SortSession.finish session)
              world (.returned (result, session')) world' →
            session'.nextRun ≤ 2 * (maxFanIn * maxFanIn) + 1) ∧
          (∀ session' world',
            Runs (governedSemantics (governedLimit cfg snap) codec) (SortSession.finish session)
              world (.dropped session') world' →
            session'.nextRun ≤ 2 * (maxFanIn * maxFanIn) + 1)) ∧
      (runBufferBytes ≤ governedLimit cfg snap / 8 →
        spec.estimatedBytes / (runCapacity (governedLimit cfg snap) runBufferBytes + 1) ≤
          maxFanIn * maxFanIn) := by
  refine ⟨fun packs total session world pushed within => ?_,
    packs_of_shared built planned configured available⟩
  obtain ⟨dedup, accepted, -, packed⟩ := pushed.packed
  have fewer : total / (runCapacity (governedLimit cfg snap) runBufferBytes + 1) ≤
      spec.estimatedBytes / (runCapacity (governedLimit cfg snap) runBufferBytes + 1) :=
    Nat.div_le_div_right within
  have room : session.nextRun + (if session.buffer = [] then 0 else 1) ≤
      2 * (maxFanIn * maxFanIn) + 1 := packed.runs.trans (by omega)
  refine ⟨(Nat.le_add_right _ _).trans room, ?_, ?_⟩
  · intro result session' world' run
    have within := Method.wp_returned (SortSession.wp_finish_within room) run
    cases result <;> exact within
  · intro session' world' run
    obtain ⟨_, _, within, _⟩ := Method.wp_dropped (SortSession.wp_finish_within room) run
    exact within

/-- The policy of `PureCodec.policy` under a governed budget. -/
def PureCodec.governedPolicy (pure : PureCodec Key Value) (limit : Nat) :
    (op : Request Key Value) → World → Option (op.Reply × World)
  | .limit, world => some (limit, world)
  | .reserve bytes, world => some (MemoryBudget.reserve limit 0 bytes, world)
  | op, world => pure.policy op world

omit [LinearOrder Key] [Layout Key Value] in
theorem PureCodec.governedPolicy_allowed (pure : PureCodec Key Value) (limit : Nat)
    (op : Request Key Value) (world : World) (reply : op.Reply) (world' : World)
    (answered : pure.governedPolicy limit op world = some (reply, world')) :
    (governedSemantics limit pure.codec).reply op world reply world' := by
  cases op with
  | limit =>
      cases answered
      exact ⟨rfl, rfl⟩
  | reserve bytes =>
      cases answered
      exact ⟨⟨rfl, limit, 0, rfl⟩, 0, rfl⟩
  | _ => exact ⟨pure.policy_allowed _ _ _ _ answered, trivial⟩

/-- Push rows of one declared size; the total of their charged bytes, and the
session and world they lead to. -/
def pushGoverned (pure : PureCodec Key Value) (limit : Nat) (bytes : UInt64) :
    List (Key × Value) → Nat → SortSession Key Value → World →
      Option (Nat × SortSession Key Value × World)
  | [], total, session, world => some (total, session, world)
  | (key, value) :: rows, total, session, world =>
      match (SortSession.pushWithSize key value bytes session).follow (pure.governedPolicy limit)
          world with
      | some ((.ok (), session), world) =>
          pushGoverned pure limit bytes rows (total + max bytes.toNat (Layout.rowSize Key Value))
            session world
      | _ => none

theorem pushed_of_pushGoverned {pure : PureCodec Key Value} {bytes : UInt64} {plan : SortPlan}
    {rows : List (Key × Value)} {total' : Nat} {session' : SortSession Key Value} {world' : World}
    (earlier : Pushed limit pure.codec plan total session world)
    (pushed : pushGoverned pure limit bytes rows total session world =
      some (total', session', world')) :
    Pushed limit pure.codec plan total' session' world' := by
  induction rows generalizing total session world with
  | nil =>
      cases pushed
      exact earlier
  | cons row rows inductionHypothesis =>
      unfold pushGoverned at pushed
      split at pushed
      · rename_i session'' world'' followed
        have run := Program.runs_of_follow (pure.governedPolicy_allowed limit) followed
        exact inductionHypothesis (.push row.1 row.2 bytes earlier run) pushed
      · cases pushed

end Planned

/-- Rows of 16 MiB and a byte against an estimate of 400 MiB and a fan-in of 2:
the plan asks for buffers of 100 MiB, the session caps them at 32 MiB, and every
row becomes a run of its own. -/
theorem run_count_exceeded :
    ∃ (spec : SortSpec) (snap : SorterSnapshot) (runBufferBytes maxFanIn total : Nat)
      (session : SortSession Nat Nat) (world : World),
      spec.estimatedBytes ≠ 0 ∧
      SortPlanner.plan spec snap .default = .external runBufferBytes maxFanIn ∧
      runBufferBytes < SorterConfig.default.maxRunBufferBytes ∧
      runBufferBytes < snap.availableMemoryBytes ∧
      Pushed (governedLimit .default snap) byteRows.codec (.external runBufferBytes maxFanIn) total
        session world ∧
      total ≤ spec.estimatedBytes ∧ 2 * (maxFanIn * maxFanIn) + 1 < session.nextRun := by
  have many : (pushGoverned byteRows (256 * 1024 * 1024) 16777217
      (List.replicate 11 (0, 0)) 0 (.new (.external (100 * 1024 * 1024) 2) 0 false 0 none)
      .empty).any (fun reached => reached.1 ≤ 400 * 1024 * 1024 && 9 < reached.2.1.nextRun) =
        true := by
    decide +kernel
  obtain ⟨⟨total, session, world⟩, pushed, many⟩ := (Option.any_eq_true _ _).mp many
  simp only [Bool.and_eq_true, decide_eq_true_eq] at many
  refine ⟨⟨400 * 1024 * 1024⟩, ⟨1024 * 1024 * 1024, 0, 2, 0⟩, 100 * 1024 * 1024, 2, total, session,
    world, by decide, by decide, by decide, by decide, ?_, many.1, many.2⟩
  exact pushed_of_pushGoverned (.new 0 false 0 none _) pushed

/-- An estimate of 100 MiB whose planned buffer of 25 MiB fits an eighth of the
budget: three rows of 16 MiB and a byte make two runs and a third at the end. -/
theorem run_count_two :
    ∃ (total : Nat) (session : SortSession Nat Nat) (world : World),
      Pushed (256 * 1024 * 1024) byteRows.codec (.external (25 * 1024 * 1024) 2) total session
        world ∧
      session.nextRun = 2 ∧ session.nextRun ≤ 2 * (2 * 2) + 1 := by
  have two : (pushGoverned byteRows (256 * 1024 * 1024) 16777217
      (List.replicate 3 (0, 0)) 0 (.new (.external (25 * 1024 * 1024) 2) 0 false 0 none)
      .empty).any (fun reached => reached.1 ≤ 100 * 1024 * 1024 && reached.2.1.nextRun = 2) =
        true := by
    decide +kernel
  obtain ⟨⟨total, session, world⟩, pushed, two⟩ := (Option.any_eq_true _ _).mp two
  simp only [Bool.and_eq_true, decide_eq_true_eq] at two
  have planned : SortPlanner.plan ⟨100 * 1024 * 1024⟩ ⟨1024 * 1024 * 1024, 0, 2, 0⟩ .default =
      .external (25 * 1024 * 1024) 2 := by decide
  have counted := @run_count _ _ _ _ byteRows.codec _ _ _ _ _ .default planned
    (by decide) (by decide)
  have reached := pushed_of_pushGoverned (.new 0 false 0 none _) pushed
  have bounded := counted.1 (counted.2 (by decide)) total session world reached two.1
  exact ⟨total, session, world, reached, two.2, bounded.1⟩

end SortGovernor.Engine
