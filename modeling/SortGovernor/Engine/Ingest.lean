import SortGovernor.Engine.Spill

/-!
# Pushing a row

A push either stores the row, or leaves a usable session with the rows it had,
or leaves the session failed.  It can only be suspended while the session is
marked failed.
-/

namespace SortGovernor.Engine

open SortGovernor.Resumption SortGovernor.Sorting

variable {Key Value : Type} [LinearOrder Key] {codec : Codec Key Value}

/-- The record of the `ordinal`-th accepted row. -/
def recordsOf (rows : List (Key × Value)) : List (Record Key Value) :=
  rows.zipIdx.map fun (row, ordinal) => (row.1, row.2, ordinal)

/-- A session that may go on, after it accepted the rows `accepted`. -/
structure SortSession.Usable (codec : Codec Key Value) (dedup : Bool)
    (accepted : List (Record Key Value)) (world : World)
    (session : SortSession Key Value) : Prop where
  failed : session.failed = false
  dedup : session.dedup = dedup
  holds : ∃ chunks, session.Holds codec world accepted chunks

/-- What the size of a run depends on. -/
def SortSession.counts (session : SortSession Key Value) : SortPlan × Nat × Nat :=
  (session.plan, session.nextRun, session.bufferBytes)

/-- The frontier and the directory are the same. -/
structure SortSession.SameFrontier (session' session : SortSession Key Value) : Prop where
  dir : session'.dir = session.dir
  spills : session'.spills = session.spills
  runs : session'.nextRun = session.nextRun

def SuspendsFailed (session : SortSession Key Value) (op : Request Key Value) (_ : World) : Prop :=
  op.awaits = true → session.failed = true

def Quiet (issue : SortSession Key Value → Request Key Value → World → Prop) : Prop :=
  ∀ session op world, op.awaits = false → issue session op world

/-- A reported error that leaves the session failed, or usable with what it had. -/
def Rejects (codec : Codec Key Value) (dedup : Bool) (accepted : List (Record Key Value))
    (abort : Abort) (session : SortSession Key Value) (world : World) : Prop :=
  (∃ error, abort = .error error) ∧
    (session.failed = true ∨ session.Usable codec dedup accepted world)

/-- Since `initial` only spills created files, and of their files only those in
the frontier are left. -/
def SortSession.Tidy (initial world : World) (session : SortSession Key Value) : Prop :=
  initial.Advances (Spilled session.dir session.nextRun) [] (session.spills.filterMap id) world

section Push

variable {dedup : Bool} {accepted : List (Record Key Value)} {session : SortSession Key Value}
  {initial world : World} {issue : SortSession Key Value → Request Key Value → World → Prop}
  {err : Abort → SortSession Key Value → World → Prop}

omit [LinearOrder Key] in
theorem tidy_self : session.Tidy world world :=
  ⟨fun _ created => .inl created, fun _ present _ => ⟨present, List.not_mem_nil⟩⟩

omit [LinearOrder Key] in
theorem SortSession.SameFrontier.tidy {session' : SortSession Key Value}
    (same : session'.SameFrontier session) (tidy : session.Tidy initial world) :
    session'.Tidy initial world := by
  unfold SortSession.Tidy
  rw [same.dir, same.spills, same.runs]
  exact tidy

omit [LinearOrder Key] in
theorem quiet_suspendsFailed : Quiet (@SuspendsFailed Key Value) := by
  intro session op world quiet awaits
  rw [quiet] at awaits
  cases awaits

theorem tolerates_of_failed (failed : session.failed = true) :
    Tolerates codec initial SuspendsFailed (Rejects codec dedup accepted) session :=
  ⟨fun _ _ _ _ => failed, fun error _ => ⟨⟨error, rfl⟩, .inl failed⟩⟩

theorem rejects_of_usable (usable : session.Usable codec dedup accepted world)
    (error : SorterError) : Rejects codec dedup accepted (.error error) session world :=
  ⟨⟨error, rfl⟩, .inr usable⟩

theorem unused_of_tidy {chunks : List (Chunk Key Value)} (tidy : session.Tidy initial world)
    (frontier : session.Frontier codec world chunks) (path : ScratchPath)
    (next : SpillFile session.dir session.nextRun path) : initial.Unused world path := by
  have other : ¬Spilled session.dir session.nextRun path := by
    intro spilled
    obtain same | ⟨level, same⟩ := next
    · exact spilled.ne.1 same
    · exact spilled.ne.2 level same
  constructor
  · intro created
    exact (tidy.created path created).resolve_right other
  · intro present
    exact (tidy.present path present fun member => other (frontier.named path member)).1

omit [LinearOrder Key] in
theorem tidy_spilled {spills : List (Option ScratchPath)} {world' : World}
    (tidy : session.Tidy initial world)
    (advances : world.Advances (SpillFile session.dir session.nextRun)
      (session.spills.filterMap id) (spills.filterMap id) world') :
    (session.spilled spills).Tidy initial world' := by
  have first : initial.Advances (Spilled session.dir (session.nextRun + 1)) []
      (session.spills.filterMap id) world :=
    tidy.mono (fun path spilled => spilled.mono (Nat.le_succ _)) (List.Subset.refl _)
      (List.Subset.refl _)
  have second : world.Advances (Spilled session.dir (session.nextRun + 1))
      (session.spills.filterMap id) (spills.filterMap id) world' := by
    refine advances.mono ?_ (List.Subset.refl _) (List.Subset.refl _)
    rintro path (rfl | ⟨level, rfl⟩)
    · exact ⟨rfl, session.nextRun, Nat.lt_succ_self _, .inl rfl⟩
    · exact ⟨rfl, session.nextRun, Nat.lt_succ_self _, .inr ⟨level, rfl⟩⟩
  exact (first.trans second fun path member => .inl member).mono (fun _ => id)
    (List.nil_subset _) (List.Subset.refl _)

variable [Layout Key Value]

omit [Layout Key Value] in
theorem wp_ensureUsable {ok : Unit → SortSession Key Value → World → Prop}
    (usable : session.Usable codec dedup accepted world) (done : ok () session world) :
    SortSession.ensureUsable.wp (sessionSemantics codec) issue ok err session world := by
  refine Method.wp_bind.mpr
    (Method.wp_get.mpr (Method.wp_ite.mpr ⟨fun failed => ?_, fun _ => done⟩))
  rw [usable.failed] at failed
  cases failed

/-- The scratch reservation is made once, so `retain` never panics. -/
theorem wp_reserveMetadata {ok : Unit → SortSession Key Value → World → Prop} (quiet : Quiet issue)
    (usable : session.Usable codec dedup accepted world)
    (rejects : ∀ error, err (.error error) session world)
    (done : ∀ session', session'.Usable codec dedup accepted world →
      session'.SameFrontier session → session'.counts = session.counts →
      session'.buffer = session.buffer → ok () session' world) :
    SortSession.reserveMetadata.wp (sessionSemantics codec) issue ok err session world := by
  refine Method.wp_bind.mpr (Method.wp_get.mpr (Method.wp_ite.mpr
    ⟨fun _ => done session usable ⟨rfl, rfl, rfl⟩ rfl rfl, fun unreserved => ?_⟩))
  refine Method.wp_bind.mpr (wp_orError_of (rejects _) fun _ _ => ?_)
  refine Method.wp_bind.mpr (wp_orError_of (rejects _) fun _ _ => ?_)
  refine Method.wp_bind.mpr (wp_reserve (quiet _ _ _ rfl) rejects ?_)
  obtain ⟨notFailed, sameDedup, chunks, holds⟩ := usable
  have free := holds.reservation (Bool.eq_false_iff.mpr unreserved)
  refine Method.wp_bind.mpr (Method.wp_ofExcept.mpr ?_)
  rw [AsyncCleanupGuard.retain, free]
  refine Method.wp_bind.mpr (Method.wp_modify.mpr (Method.wp_modify.mpr
    (done _ ?_ ⟨rfl, rfl, rfl⟩ rfl rfl)))
  exact ⟨notFailed, sameDedup, chunks, holds.frontier, holds.rows, holds.nextRow, holds.ordinals,
    holds.emptyBytes, (nomatch ·), holds.descriptors, holds.directory⟩

theorem wp_growBuffer {ok : Unit → SortSession Key Value → World → Prop} (quiet : Quiet issue)
    (usable : session.Usable codec dedup accepted world)
    (rejects : ∀ error, err (.error error) session world)
    (done : ∀ session', session'.Usable codec dedup accepted world →
      session'.SameFrontier session → session'.counts = session.counts →
      session'.buffer = session.buffer → ok () session' world) :
    SortSession.growBuffer.wp (sessionSemantics codec) issue ok err session world := by
  refine Method.wp_bind.mpr (Method.wp_get.mpr (Method.wp_ite.mpr
    ⟨fun _ => done session usable ⟨rfl, rfl, rfl⟩ rfl rfl, fun _ => ?_⟩))
  refine Method.wp_bind.mpr (wp_orError_of (rejects _) fun _ _ => ?_)
  refine Method.wp_bind.mpr (wp_orError_of (rejects _) fun _ _ => ?_)
  refine Method.wp_bind.mpr (wp_reserve (quiet _ _ _ rfl) rejects ?_)
  refine Method.wp_modify.mpr (done _ ?_ ⟨rfl, rfl, rfl⟩ rfl rfl)
  obtain ⟨notFailed, sameDedup, chunks, holds⟩ := usable
  exact ⟨notFailed, sameDedup, chunks, holds.frontier, holds.rows, holds.nextRow, holds.ordinals,
    holds.emptyBytes, holds.reservation, holds.descriptors, holds.directory⟩

omit [LinearOrder Key] [Layout Key Value] in
theorem wp_bufferLimit {ok : Nat → SortSession Key Value → World → Prop} (quiet : Quiet issue)
    (done : ∀ limit, ok limit session world) :
    SortSession.bufferLimit.wp (sessionSemantics codec) issue ok err session world := by
  refine Method.wp_bind.mpr (wp_budgetLimit (quiet _ _ _ rfl) fun limit => ?_)
  refine Method.wp_bind.mpr (Method.wp_get.mpr ?_)
  split
  · exact done _
  · exact done _

omit [LinearOrder Key] [Layout Key Value] in
theorem wp_overflowsBuffer {bytes : Nat} {ok : Bool → SortSession Key Value → World → Prop}
    (quiet : Quiet issue) (overflows : session.buffer ≠ [] → ok true session world)
    (fits : session.buffer = [] ∨ session.bufferBytes + bytes ≤ usizeMax → ok false session world) :
    (SortSession.overflowsBuffer bytes).wp (sessionSemantics codec) issue ok err session world := by
  refine Method.wp_bind.mpr
    (Method.wp_get.mpr (Method.wp_ite.mpr ⟨fun empty => ?_, fun more => ?_⟩))
  · exact fits (.inl (List.isEmpty_iff.mp empty))
  · have nonempty : session.buffer ≠ [] := fun empty => more (List.isEmpty_iff.mpr empty)
    cases sum : checkedAdd usizeMax session.bufferBytes bytes with
    | none => exact overflows nonempty
    | some sum' =>
        refine Method.wp_bind.mpr (wp_bufferLimit quiet fun limit => ?_)
        have within := (checkedAdd_eq_some.mp sum).1
        by_cases exceeds : sum' > limit
        · simpa [exceeds] using overflows nonempty
        · simpa [exceeds] using fits (.inr within)

theorem wp_spill_usable {ok : Unit → SortSession Key Value → World → Prop}
    (tolerates : ∀ session, session.failed = true → Tolerates codec initial issue err session)
    (replaces : ∀ session, session.failed = true → Replaces codec issue session)
    (usable : session.Usable codec dedup accepted world) (tidy : session.Tidy initial world)
    (nonempty : session.buffer ≠ [])
    (done : ∀ session' world', session'.Usable codec dedup accepted world' →
      session'.Tidy initial world' →
      session'.counts = (session.plan, session.nextRun + 1, 0) → session'.buffer = [] →
      ok () session' world') :
    SortSession.spill.wp (sessionSemantics codec) issue ok err session world := by
  obtain ⟨notFailed, sameDedup, chunks, holds⟩ := usable
  refine wp_spill tolerates replaces (unused_of_tidy tidy holds.frontier) holds.frontier nonempty
    (stableSortOf_sortBuffer holds.increasing) ?_
  intro spills world' frontier advances
  refine done _ world' ⟨rfl, sameDedup, _, frontier, ?_, holds.nextRow, holds.ordinals,
    fun _ => rfl, holds.reservation, holds.descriptors, ?_⟩ (tidy_spilled tidy advances) rfl rfl
  · simpa [SortSession.spilled] using holds.rows
  · intro dir armed
    cases armed
    show session.cleanup.dir.getD session.dir = session.dir
    cases directory : session.cleanup.dir with
    | none => rfl
    | some dir => exact holds.directory dir (by simp [directory])

omit [Layout Key Value] in
/-- A row that fits is stored: the size counter cannot overflow after it. -/
theorem wp_storeRow {key : Key} {value : Value} {bytes : Nat} {charge : MemoryCharge}
    {ok : Unit → SortSession Key Value → World → Prop}
    (usable : session.Usable codec dedup accepted world)
    (rejects : ∀ error, err (.error error) session world)
    (fits : session.bufferBytes + bytes ≤ usizeMax)
    (done : ∀ session', session'.Usable codec dedup
      (accepted ++ [(key, value, accepted.length)]) world →
      session'.SameFrontier session →
      session'.counts = (session.plan, session.nextRun, session.bufferBytes + bytes) →
      session'.buffer ≠ [] → ok () session' world) :
    (SortSession.storeRow key value bytes charge).wp (sessionSemantics codec) issue ok err session
      world := by
  obtain ⟨notFailed, sameDedup, chunks, holds⟩ := usable
  refine Method.wp_bind.mpr (Method.wp_get.mpr ?_)
  refine Method.wp_bind.mpr (wp_orError_of (rejects _) ?_)
  intro nextRow nextRowEq
  obtain ⟨-, rfl⟩ := checkedAdd_eq_some.mp nextRowEq
  refine Method.wp_bind.mpr (Method.wp_modify.mpr ?_)
  refine Method.wp_bind.mpr (Method.wp_modify.mpr ?_)
  refine Method.wp_bind.mpr (Method.wp_get.mpr ?_)
  refine Method.wp_bind.mpr (wp_orError.mpr ?_)
  rw [checkedAdd, if_pos fits]
  refine Method.wp_modify.mpr (done _ ⟨notFailed, sameDedup, chunks, holds.frontier, ?_, ?_, ?_, ?_,
    holds.reservation, holds.descriptors, holds.directory⟩ ⟨rfl, rfl, rfl⟩ rfl ?_)
  · simp only [holds.rows, List.map_append, List.append_assoc]
    rw [← holds.rows, ← holds.nextRow]
    rfl
  · simp [holds.nextRow]
  · simp [holds.ordinals, List.range_succ]
  · simp
  · simp

/-- A push stores the row, or rejects it. -/
theorem wp_pushWithSize_tidy {key : Key} {value : Value} {estimatedBytes : UInt64}
    (quiet : Quiet issue)
    (tolerates : ∀ session, session.failed = true → Tolerates codec initial issue err session)
    (replaces : ∀ session, session.failed = true → Replaces codec issue session)
    (rejects : ∀ session world, session.Usable codec dedup accepted world →
      session.Tidy initial world → ∀ error, err (.error error) session world)
    (usable : session.Usable codec dedup accepted world) (tidy : session.Tidy initial world) :
    (SortSession.pushWithSize key value estimatedBytes).wp (sessionSemantics codec) issue
      (fun _ session' world' =>
        session'.Usable codec dedup (accepted ++ [(key, value, accepted.length)]) world' ∧
          session'.Tidy initial world')
      err session world := by
  unfold SortSession.pushWithSize
  refine Method.wp_bind.mpr (wp_ensureUsable usable ?_)
  refine Method.wp_bind.mpr (wp_reserveMetadata quiet usable (rejects _ _ usable tidy)
    fun session usable same _ _ => ?_)
  replace tidy := same.tidy tidy
  refine Method.wp_bind.mpr (wp_reserve (quiet _ _ _ rfl) (rejects _ _ usable tidy) ?_)
  have small : max estimatedBytes.toNat (Layout.rowSize Key Value) ≤ usizeMax := by
    have bounded := estimatedBytes.toNat_lt
    have row := @Layout.rowSize_le Key Value _
    unfold usizeMax u64Max at *
    omega
  -- whichever way the check goes, the row fits afterwards
  have store : ∀ (session : SortSession Key Value) world,
      session.Usable codec dedup accepted world → session.Tidy initial world →
      session.bufferBytes + max estimatedBytes.toNat (Layout.rowSize Key Value) ≤ usizeMax →
      (do
        SortSession.growBuffer
        SortSession.storeRow key value (max estimatedBytes.toNat (Layout.rowSize Key Value))
          ⟨max estimatedBytes.toNat (Layout.rowSize Key Value)⟩
        (if (← get).bufferBytes ≥ (← SortSession.bufferLimit) then SortSession.spill
          else pure ()) : Async Key Value (SortSession Key Value) Unit).wp
        (sessionSemantics codec) issue
        (fun _ session' world' =>
          session'.Usable codec dedup (accepted ++ [(key, value, accepted.length)]) world' ∧
            session'.Tidy initial world')
        err session world := by
    intro session world usable tidy fits
    refine Method.wp_bind.mpr (wp_growBuffer quiet usable (rejects _ _ usable tidy)
      fun grown usable same counts _ => ?_)
    replace tidy := same.tidy tidy
    have bytes : grown.bufferBytes = session.bufferBytes :=
      congrArg (fun counts => counts.2.2) counts
    refine Method.wp_bind.mpr (wp_storeRow usable (rejects _ _ usable tidy) (bytes ▸ fits)
      fun stored usable same _ nonempty => ?_)
    replace tidy := same.tidy tidy
    refine Method.wp_bind.mpr (Method.wp_get.mpr ?_)
    refine Method.wp_bind.mpr (wp_bufferLimit quiet fun limit => ?_)
    refine Method.wp_ite.mpr ⟨fun _ => ?_, fun _ => ⟨usable, tidy⟩⟩
    exact wp_spill_usable tolerates replaces usable tidy nonempty
      fun _ _ usable tidy _ _ => ⟨usable, tidy⟩
  refine Method.wp_bind.mpr (wp_overflowsBuffer quiet (fun nonempty => ?_) fun fits => ?_)
  · refine Method.wp_bind.mpr (wp_spill_usable tolerates replaces usable tidy nonempty
      fun session' world' usable tidy counts _ => ?_)
    have bytes : session'.bufferBytes = 0 := congrArg (fun counts => counts.2.2) counts
    exact store session' world' usable tidy (by omega)
  · refine Method.wp_bind.mpr (store session world usable tidy ?_)
    obtain empty | fits := fits
    · obtain ⟨chunks, holds⟩ := usable.holds
      rw [holds.emptyBytes empty]
      omega
    · exact fits

theorem wp_pushWithSize {key : Key} {value : Value} {estimatedBytes : UInt64}
    (usable : session.Usable codec dedup accepted world) :
    (SortSession.pushWithSize key value estimatedBytes).wp (sessionSemantics codec) SuspendsFailed
      (fun _ session' world' =>
        session'.Usable codec dedup (accepted ++ [(key, value, accepted.length)]) world')
      (Rejects codec dedup accepted) session world := by
  refine Method.wp_post (wp_pushWithSize_tidy quiet_suspendsFailed
    (fun _ failed => tolerates_of_failed failed) (fun _ failed _ _ _ _ _ _ _ => failed)
    (fun _ _ usable _ => rejects_of_usable usable) usable tidy_self) ?_
      fun _ _ _ rejected => rejected
  exact fun _ _ _ reached => reached.1

end Push

end SortGovernor.Engine
