import SortGovernor.Engine.CoveredMerge

/-!
# Charges of sessions and streams

The row vector of a session is charged by its capacity, and a spill gives rows
and charge up together.  A stream takes over what the session had.
-/

namespace SortGovernor.Engine

open SortGovernor.Resumption SortGovernor.Sorting

variable {Key Value State : Type} [LinearOrder Key] [Layout Key Value]

section Compaction

variable {good : State → Prop} {capacity : Nat}

theorem covers_nextMerged :
    Covers (fun merge => ∃ last, merge.Covered capacity last)
      (fun row : Option (RunRow Key Value) =>
      ∀ head, row = some head → head.IsCovered)
      (MergeState.nextRow : Async Key Value (MergeState Key Value) _) := by
  rintro merge _ ⟨last, covered⟩
  apply Method.wp_mono (MergeState.wp_nextRow covered)
  · exact fun _ _ _ issued => ⟨issued.1, last, issued.2⟩
  · exact fun _ _ _ given => ⟨⟨_, given.1⟩, given.2⟩
  · exact fun _ _ _ stayed => ⟨last, stayed⟩

theorem covers_drainInto (turns : Nat) (merge : MergeState Key Value) (writer : RunWriter)
    (covered : ∃ last, merge.Covered capacity last) :
    Covers good (fun _ => True) (drainInto turns merge writer :
      Async Key Value State RunWriter) := by
  induction turns generalizing merge writer with
  | zero => exact Method.gives_throw
  | succ turns inductionHypothesis =>
      refine Method.gives_bind (Method.gives_call covers_nextMerged covered) ?_
      rintro ⟨_ | row, merge⟩ ⟨covered, -⟩
      · exact Method.gives_pure trivial
      · refine Method.gives_bind (covers_writeRow writer row) fun writer _ => ?_
        exact inductionHypothesis merge writer covered

omit [LinearOrder Key] [Layout Key Value] in
theorem covers_removeInputs (paths : List ScratchPath) :
    Covers good (fun _ => True) (removeInputs paths : Async Key Value State Unit) := by
  induction paths with
  | nil => exact Method.gives_pure trivial
  | cons path paths inductionHypothesis =>
      exact Method.gives_bind (covers_awaitDirect _) fun _ _ => inductionHypothesis

theorem covers_mergeGroupToFile (paths : List ScratchPath) (out : ScratchPath) (dedup : Bool)
    (io : ScopeId) : Covers good (fun _ => True)
      (mergeGroupToFile paths out dedup io : Async Key Value State ScratchPath) := by
  refine Method.gives_bind (covers_openMerge paths dedup io) fun merge covered => ?_
  refine Method.gives_bind (covers_create out io) fun writer _ => ?_
  refine Method.gives_bind (covers_drainInto _ merge writer ⟨none, covered⟩) fun writer _ => ?_
  refine Method.gives_bind (covers_finishRun writer) fun merged _ => ?_
  exact Method.gives_bind (covers_removeInputs paths) fun _ _ => Method.gives_pure trivial

theorem covers_mergeGroup (dir : ScratchDir) (io : ScopeId) (pass group : Nat)
    (paths : List ScratchPath) : Covers good (fun _ => True)
      (mergeGroup dir io pass group paths : Async Key Value State ScratchPath) := by
  unfold mergeGroup
  split
  · exact Method.gives_pure trivial
  · exact covers_mergeGroupToFile _ _ _ _

theorem covers_mergeGroups (dir : ScratchDir) (io : ScopeId) (pass group : Nat)
    (groups : List (List ScratchPath)) : Covers good (fun _ => True)
      (mergeGroups dir io pass group groups : Async Key Value State (List ScratchPath)) := by
  induction groups generalizing group with
  | nil => exact Method.gives_pure trivial
  | cons paths groups inductionHypothesis =>
      refine Method.gives_bind (covers_mergeGroup dir io pass group paths) fun path _ => ?_
      exact Method.gives_bind (inductionHypothesis _) fun next _ => Method.gives_pure trivial

theorem covers_cascade (dir : ScratchDir) (io : ScopeId) (fanIn turns pass : Nat)
    (runs : List ScratchPath) : Covers good (fun _ => True)
      (cascade dir io fanIn turns pass runs : Async Key Value State (List ScratchPath)) := by
  induction turns generalizing pass runs with
  | zero => exact Method.gives_throw
  | succ turns inductionHypothesis =>
      refine Method.gives_ite (fun _ => ?_) fun _ => Method.gives_pure trivial
      exact Method.gives_bind (covers_mergeGroups _ _ _ _ _) fun runs _ =>
        inductionHypothesis _ runs

end Compaction

/-- A vector of `capacity` rows is charged, unless it was never allocated. -/
def Allocated (Key Value : Type) [Layout Key Value] (capacity : Nat)
    (charge : Option MemoryCharge) :
    Prop :=
  capacity = 0 ∨ charge = some ⟨capacity * Layout.rowSize Key Value⟩

structure SortSession.Covered (session : SortSession Key Value) : Prop where
  rows : ∀ row ∈ session.buffer, row.IsCovered
  room : session.buffer.length ≤ session.bufferCapacity
  vector : Allocated Key Value session.bufferCapacity session.bufferCharge

namespace SortSession

omit [LinearOrder Key] in
theorem Covered.congr {session session' : SortSession Key Value} (covered : session.Covered)
    (buffer : session'.buffer = session.buffer)
    (capacity : session'.bufferCapacity = session.bufferCapacity)
    (charge : session'.bufferCharge = session.bufferCharge) : session'.Covered := by
  constructor
  · rw [buffer]
    exact covered.rows
  · rw [buffer, capacity]
    exact covered.room
  · rw [capacity, charge]
    exact covered.vector

theorem Covered.sorted {session : SortSession Key Value} (covered : session.Covered) :
    Covered { session with buffer := sortBuffer session.buffer } := by
  have permutation : (sortBuffer session.buffer).Perm session.buffer :=
    List.perm_insertionSort RowLe session.buffer
  constructor
  · exact fun row member => covered.rows row (permutation.mem_iff.mp member)
  · exact permutation.length_eq.le.trans covered.room
  · exact covered.vector

omit [LinearOrder Key] in
theorem covered_emptied (session : SortSession Key Value) :
    ({ session with buffer := [], bufferCapacity := 0, bufferCharge := none, bufferBytes := 0 } :
      SortSession Key Value).Covered where
  rows := by simp
  room := Nat.le_refl _
  vector := .inl rfl

omit [LinearOrder Key] in
theorem covers_ensureUsable :
    Covers Covered (fun _ => True) (ensureUsable : Async Key Value (SortSession Key Value) Unit) :=
  Method.gives_bind Method.gives_get fun _ _ =>
    Method.gives_ite (fun _ => Method.gives_throw) fun _ => Method.gives_pure trivial

omit [LinearOrder Key] in
theorem covers_reserveMetadata :
    Covers Covered (fun _ => True)
      (reserveMetadata : Async Key Value (SortSession Key Value) Unit) := by
  refine Method.gives_bind Method.gives_get fun session _ => ?_
  refine Method.gives_ite (fun _ => Method.gives_pure trivial) fun _ => ?_
  refine Method.gives_bind covers_orError fun pathBytes _ => ?_
  refine Method.gives_bind covers_orError fun bytes _ => ?_
  refine Method.gives_bind (covers_reserve bytes) fun charge _ => ?_
  refine Method.gives_bind (Method.gives_ofExcept fun _ found => found) fun cleanup _ => ?_
  refine Method.gives_bind (Method.gives_modify ?_) fun _ _ => Method.gives_modify ?_
  · exact fun session covered => covered.congr rfl rfl rfl
  · exact fun session covered => covered.congr rfl rfl rfl

omit [LinearOrder Key] in
theorem covers_bufferLimit :
    Covers Covered (fun _ => True) (bufferLimit : Async Key Value (SortSession Key Value) Nat) := by
  refine Method.gives_bind (covers_any trivial) fun limit _ => ?_
  refine Method.gives_bind Method.gives_get fun session _ => ?_
  split
  · exact Method.gives_pure trivial
  · exact Method.gives_pure trivial

omit [LinearOrder Key] in
theorem covers_overflowsBuffer (bytes : Nat) :
    Covers Covered (fun _ => True)
      (overflowsBuffer bytes : Async Key Value (SortSession Key Value) Bool) := by
  refine Method.gives_bind Method.gives_get fun session _ => ?_
  refine Method.gives_ite (fun _ => Method.gives_pure trivial) fun _ => ?_
  split
  · exact Method.gives_pure trivial
  · exact Method.gives_bind covers_bufferLimit fun _ _ => Method.gives_pure trivial

omit [LinearOrder Key] in
theorem covers_writeRows (rows : List (RunRow Key Value)) (writer : RunWriter) :
    Covers Covered (fun _ => True)
      (writeRows rows writer : Async Key Value (SortSession Key Value) RunWriter) := by
  induction rows generalizing writer with
  | nil => exact Method.gives_pure trivial
  | cons row rows inductionHypothesis =>
      exact Method.gives_bind (covers_writeRow writer row) fun writer _ =>
        inductionHypothesis writer

theorem covers_carry (ordinal level : Nat) (before slots : List (Option ScratchPath))
    (run : ScratchPath) : Covers Covered (fun _ => True)
      (carry ordinal level before slots run : Async Key Value (SortSession Key Value) Unit) := by
  induction slots generalizing level before run with
  | nil => exact Method.gives_throw
  | cons slot after inductionHypothesis =>
      cases slot with
      | none =>
          refine Method.gives_bind (Method.gives_modify ?_) fun _ _ => Method.gives_modify ?_
          · exact fun session covered => covered.congr rfl rfl rfl
          · exact fun session covered => covered.congr rfl rfl rfl
      | some older =>
          refine Method.gives_bind (Method.gives_modify ?_) fun _ _ => ?_
          · exact fun session covered => covered.congr rfl rfl rfl
          refine Method.gives_bind Method.gives_get fun session _ => ?_
          refine Method.gives_bind (covers_mergeGroupToFile _ _ _ _) fun run _ => ?_
          exact inductionHypothesis (level + 1) (before ++ [none]) run

theorem covers_spill :
    Covers Covered (fun _ => True) (spill : Async Key Value (SortSession Key Value) Unit) := by
  refine Method.gives_bind Method.gives_get fun session _ => ?_
  refine Method.gives_ite (fun _ => Method.gives_pure trivial) fun _ => ?_
  refine Method.gives_bind (Method.gives_modify ?_) fun _ _ => ?_
  · exact fun session covered => covered.congr rfl rfl rfl
  refine Method.gives_bind Method.gives_get fun session _ => ?_
  refine Method.gives_bind covers_orError fun nextRun _ => ?_
  refine Method.gives_bind (Method.gives_modify ?_) fun _ _ => ?_
  · exact fun session covered => covered.congr rfl rfl rfl
  refine Method.gives_bind (Method.gives_modify fun session covered => covered.sorted) fun _ _ => ?_
  refine Method.gives_bind (Method.gives_modify ?_) fun _ _ => ?_
  · exact fun session covered => covered.congr rfl rfl rfl
  refine Method.gives_bind Method.gives_get fun session _ => ?_
  refine Method.gives_bind (covers_perform (.ensureDir session.dir) trivial) fun _ _ => ?_
  refine Method.gives_bind (covers_create _ _) fun writer _ => ?_
  refine Method.gives_bind (covers_writeRows _ writer) fun writer _ => ?_
  refine Method.gives_bind (covers_finishRun writer) fun run _ => ?_
  refine Method.gives_bind (Method.gives_modify fun session _ => covered_emptied session)
    fun _ _ => ?_
  exact Method.gives_bind Method.gives_get fun session _ => covers_carry _ _ _ _ _

omit [LinearOrder Key] in
theorem wp_growBuffer {session : SortSession Key Value} (covered : session.Covered) :
    growBuffer.wp (charging Key Value) (fun session op _ => op.Backed ∧ session.Covered)
      (fun _ session _ => session.Covered ∧ session.buffer.length < session.bufferCapacity)
      (fun _ session _ => session.Covered) session () := by
  refine Method.wp_bind.mpr
    (Method.wp_get.mpr (Method.wp_ite.mpr ⟨fun fits => ⟨covered, fits⟩, fun full => ?_⟩))
  refine Method.wp_bind.mpr (Method.wp_okOr.mpr ?_)
  cases doubled : checkedMul usizeMax (max session.bufferCapacity 1) 2 with
  | none => exact covered
  | some capacity =>
      refine Method.wp_bind.mpr (Method.wp_okOr.mpr ?_)
      cases sized : checkedMul usizeMax capacity (Layout.rowSize Key Value) with
      | none => exact covered
      | some bytes =>
          obtain ⟨-, grown⟩ := checkedMul_eq_some.mp doubled
          obtain ⟨-, rfl⟩ := checkedMul_eq_some.mp sized
          have reserved : Covers (fun other => session = other) _
              (reserve (capacity * Layout.rowSize Key Value) :
                Async Key Value (SortSession Key Value) MemoryCharge) := covers_reserve _
          refine Method.wp_bind.mpr (Method.wp_mono (reserved session () rfl) ?_ ?_ ?_)
          · rintro _ op _ ⟨backed, rfl⟩
            exact ⟨backed, covered⟩
          · rintro ⟨size⟩ _ _ ⟨rfl, admitted⟩
            obtain rfl : size = _ := admitted
            have fits : session.buffer.length < capacity := by
              have room := covered.room
              omega
            exact ⟨⟨covered.rows, fits.le, .inr rfl⟩, fits⟩
          · rintro _ _ _ rfl
            exact covered

omit [LinearOrder Key] in
theorem wp_storeRow {session : SortSession Key Value} (covered : session.Covered)
    (fits : session.buffer.length < session.bufferCapacity) (key : Key) (value : Value)
    {bytes : Nat} {charge : MemoryCharge} (size : charge.bytes = bytes)
    (inline : Layout.rowSize Key Value ≤ bytes) :
    (storeRow key value bytes charge).wp (charging Key Value)
      (fun session op _ => op.Backed ∧ session.Covered) (fun _ session _ => session.Covered)
      (fun _ session _ => session.Covered) session () := by
  refine Method.wp_bind.mpr (Method.wp_get.mpr (Method.wp_bind.mpr (Method.wp_okOr.mpr ?_)))
  cases checkedAdd u64Max session.nextRow 1 with
  | none => exact covered
  | some nextRow =>
      have stored : Covered { session with
          nextRow, buffer := session.buffer ++
            [{ key, value, ordinal := session.nextRow, retainedBytes := bytes, charge :=
              some charge }] } := by
        constructor
        · intro row member
          obtain member | member := List.mem_append.mp member
          · exact covered.rows row member
          · rw [List.mem_singleton.mp member]
            exact ⟨charge, rfl, size.ge, size ▸ inline⟩
        · rw [List.length_append, List.length_singleton]
          exact fits
        · exact covered.vector
      refine Method.wp_bind.mpr (Method.wp_modify.mpr ?_)
      refine Method.wp_bind.mpr (Method.wp_modify.mpr ?_)
      refine Method.wp_bind.mpr (Method.wp_get.mpr (Method.wp_bind.mpr (Method.wp_okOr.mpr ?_)))
      split
      · exact stored.congr rfl rfl rfl
      · exact stored

theorem covers_pushWithSize (key : Key) (value : Value) (bytes : UInt64) :
    Covers Covered (fun _ => True)
      (pushWithSize key value bytes : Async Key Value (SortSession Key Value) Unit) := by
  have spills : ∀ full : Bool, Covers Covered (fun _ => True)
      (if full then spill else pure () : Async Key Value (SortSession Key Value) Unit) :=
    fun _ => Method.gives_ite (fun _ => covers_spill) fun _ => Method.gives_pure trivial
  refine Method.gives_bind covers_ensureUsable fun _ _ => ?_
  refine Method.gives_bind covers_reserveMetadata fun _ _ => ?_
  refine Method.gives_bind (covers_reserve _) fun charge size => ?_
  refine Method.gives_bind (covers_overflowsBuffer _) fun overflows _ => ?_
  refine Method.gives_bind (spills overflows) fun _ _ => ?_
  intro session _ covered
  refine Method.wp_bind.mpr (Method.wp_post (wp_growBuffer covered) ?_ fun _ _ _ stayed => stayed)
  rintro _ session _ ⟨covered, fits⟩
  refine Method.wp_bind.mpr (Method.wp_post
    (wp_storeRow covered fits key value size (Nat.le_max_right ..)) ?_ fun _ _ _ stayed => stayed)
  intro _ session _ covered
  refine Method.gives_bind Method.gives_get (fun session _ => ?_) session () covered
  refine Method.gives_bind covers_bufferLimit fun limit _ => ?_
  exact Method.gives_ite (fun _ => covers_spill) fun _ => Method.gives_pure trivial

end SortSession

namespace ValueStream

/-- What a stream retains is covered.  The last key of a sorted buffer keeps the
charge of its row. -/
def Covered : ValueStream Key Value → Prop
  | inMemory _ rows last _ allocation _ =>
      (∀ row ∈ rows, row.IsCovered) ∧
        (∃ capacity, rows.length ≤ capacity ∧ Allocated Key Value capacity allocation) ∧
        ∀ key charge, last = some (key, charge) →
          ∃ row : RunRow Key Value, row.IsCovered ∧ row.key = key ∧ row.charge = charge
  | merging (some merge) _ _ => ∃ capacity last, merge.Covered capacity last
  | _ => True

theorem covered_nextInMemory {dedup : Bool} {rows rows' : List (RunRow Key Value)}
    {last last' : Option (Key × Option MemoryCharge)} {value : Value} {hold : Option Resource}
    {allocation metadata : Option MemoryCharge}
    (covered : Covered (inMemory dedup rows last hold allocation metadata))
    (next : nextInMemory dedup rows last = some (value, rows', last')) :
    Covered (inMemory dedup rows' last' hold allocation metadata) := by
  induction rows with
  | nil => cases next
  | cons row rows inductionHypothesis =>
      obtain ⟨known, ⟨capacity, room, vector⟩, remembered⟩ := covered
      rw [List.length_cons] at room
      have rest : ∀ row ∈ rows, row.IsCovered :=
        fun other member => known other (List.mem_cons_of_mem _ member)
      unfold nextInMemory at next
      split at next
      · exact inductionHypothesis ⟨rest, ⟨capacity, by omega, vector⟩, remembered⟩ next
      · cases next
        refine ⟨rest, ⟨capacity, by omega, vector⟩, ?_⟩
        by_cases deduplicates : dedup = true
        · rw [if_pos deduplicates]
          rintro key charge ⟨⟩
          exact ⟨row, known row List.mem_cons_self, rfl, rfl⟩
        · rw [if_neg deduplicates]
          exact remembered

end ValueStream

section Streams

variable {good : State → Prop}

omit [LinearOrder Key] [Layout Key Value] in
theorem covers_scopeIdle (io : ScopeId) :
    Covers good (fun _ => True) (scopeIdle io : Async Key Value State Unit) :=
  covers_any trivial

omit [LinearOrder Key] [Layout Key Value] in
theorem covers_removal (io : ScopeId) (held : List MemoryCharge) (dir : ScratchDir) :
    Covers good (fun _ => True)
      (performReserved io held (.removeDirAll dir) : Async Key Value State Unit) :=
  Method.gives_bind (covers_any trivial) fun _ _ => covers_propagate.weaken fun _ _ => trivial

omit [LinearOrder Key] [Layout Key Value] in
theorem covers_cleanup :
    Covers (fun _ => True) (fun _ => True)
      (AsyncCleanupGuard.cleanup : Async Key Value AsyncCleanupGuard Unit) := by
  refine Method.gives_bind Method.gives_get fun guard _ => ?_
  split
  · exact Method.gives_pure trivial
  · refine Method.gives_bind (covers_scopeIdle _) fun _ _ => ?_
    split
    · exact Method.gives_throw
    · exact Method.gives_bind (covers_removal _ _ _) fun _ _ =>
        Method.gives_modify fun _ _ => trivial

omit [LinearOrder Key] [Layout Key Value] in
theorem covers_dropTask (guard : AsyncCleanupGuard) :
    Covers (fun _ => True) (fun _ => True) (guard.dropTask : Async Key Value Unit Unit) := by
  unfold AsyncCleanupGuard.dropTask
  split
  · exact Method.gives_pure trivial
  · split
    · exact Method.gives_throw
    · refine Method.gives_bind (covers_scopeIdle _) fun _ _ => ?_
      exact Method.gives_bind (covers_any trivial) fun _ _ => Method.gives_pure trivial

namespace ValueStream

omit [LinearOrder Key] in
theorem covers_finishCleanup (hold : StreamHold) :
    Covers Covered (fun _ => True)
      (finishCleanup hold : Async Key Value (ValueStream Key Value) _) := by
  refine Method.gives_bind (Method.gives_attempt covers_cleanup trivial) ?_
  rintro ⟨(_ | _ | _) | _, scratch⟩ -
  · exact Method.gives_bind (Method.gives_set trivial) fun _ _ => Method.gives_pure trivial
  · exact Method.gives_throw
  · exact Method.gives_throw
  · exact Method.gives_bind (Method.gives_set trivial) fun _ _ => Method.gives_pure trivial

theorem covers_next :
    Covers Covered (fun _ => True) (next : Async Key Value (ValueStream Key Value) _) := by
  refine Method.gives_bind Method.gives_get fun stream covered => ?_
  match stream, covered with
  | .inMemory dedup rows last hold allocation metadata, covered =>
      dsimp only
      split
      · rename_i value rows' last' found
        refine Method.gives_bind (Method.gives_set ?_) fun _ _ => Method.gives_pure trivial
        exact covered_nextInMemory covered found
      · exact Method.gives_bind (Method.gives_set trivial) fun _ _ => Method.gives_pure trivial
  | .merging none hold reported, _ =>
      refine Method.gives_ite (fun _ => ?_) fun _ => covers_finishCleanup hold
      exact Method.gives_bind (Method.gives_set trivial) fun _ _ => Method.gives_pure trivial
  | .merging (some merge) hold reported, ⟨capacity, covered⟩ =>
      refine Method.gives_bind (Method.gives_attempt covers_nextMerged covered) ?_
      rintro ⟨(error | text | _) | (_ | row), merge'⟩ ⟨covered', -⟩
      · exact Method.gives_bind (Method.gives_set trivial) fun _ _ => Method.gives_pure trivial
      · exact Method.gives_throw
      · exact Method.gives_throw
      · exact covers_finishCleanup hold
      · refine Method.gives_bind (Method.gives_set ?_) fun _ _ => Method.gives_pure trivial
        exact ⟨capacity, covered'⟩
  | .ended scratch, _ => exact Method.gives_throw

end ValueStream

theorem covers_cascadeAndStream (runs : List ScratchPath) (fanIn : Nat) (dir : ScratchDir)
    (dedup : Bool) (hold : Option Resource) :
    Covers (fun _ => True) ValueStream.Covered (cascadeAndStream runs fanIn dir dedup hold :
      Async Key Value AsyncCleanupGuard (ValueStream Key Value)) := by
  refine Method.gives_bind Method.gives_get fun guard _ => ?_
  refine Method.gives_bind (covers_cascade _ _ _ _ _ _) fun runs _ => ?_
  refine Method.gives_bind (covers_openMerge runs dedup _) fun merge covered => ?_
  refine Method.gives_bind Method.gives_get fun guard _ => ?_
  refine Method.gives_bind (Method.gives_set trivial) fun _ _ => ?_
  exact Method.gives_pure ⟨runs.length, none, covered⟩

namespace SortSession

theorem covers_mergeStream (fanIn : Nat) :
    Covers Covered ValueStream.Covered
      (mergeStream fanIn : Async Key Value (SortSession Key Value) _) := by
  refine Method.gives_bind Method.gives_get fun session _ => ?_
  refine Method.gives_bind
    (Method.gives_ite (fun _ => Method.gives_pure trivial) fun _ => covers_spill) fun _ _ => ?_
  refine Method.gives_bind Method.gives_get fun session _ => ?_
  refine Method.gives_bind (Method.gives_modify ?_) fun _ _ => ?_
  · exact fun session covered => covered.congr rfl rfl rfl
  refine Method.gives_bind Method.gives_get fun session _ => ?_
  refine Method.gives_bind (Method.gives_modify ?_) fun _ _ => ?_
  · exact fun session covered => covered.congr rfl rfl rfl
  refine Method.gives_bind Method.gives_get fun session _ => ?_
  apply Method.gives_within (covers_cascadeAndStream _ _ _ _ _) trivial
  exact fun cleanup session _ covered => covered.congr rfl rfl rfl

/-- A stream that `finish` returns is covered by what the session was charged. -/
theorem wp_finish_covered {session : SortSession Key Value} (covered : session.Covered) :
    finish.wp (charging Key Value) (fun _ op _ => op.Backed) (fun stream _ _ => stream.Covered)
      (fun _ _ _ => True) session () := by
  have merges : ∀ fanIn, (mergeStream fanIn).wp (charging Key Value) (fun _ op _ => op.Backed)
      (fun stream _ _ => stream.Covered) (fun _ _ _ => True)
      { session with buffer := sortBuffer session.buffer } () := by
    intro fanIn
    apply Method.wp_mono (covers_mergeStream fanIn _ () covered.sorted)
    · exact fun _ _ _ issued => issued.1
    · exact fun _ _ _ given => given.2
    · exact fun _ _ _ _ => trivial
  have sorted := covered.sorted
  have inMemory : inMemoryStream.wp (charging Key Value) (fun _ op _ => op.Backed)
      (fun stream _ _ => stream.Covered) (fun _ _ _ => True)
      { session with buffer := sortBuffer session.buffer } () :=
    ⟨sorted.rows, ⟨session.bufferCapacity, sorted.room, sorted.vector⟩, by simp⟩
  refine Method.wp_bind.mpr (Method.wp_bind.mpr (Method.wp_get.mpr ?_))
  refine Method.wp_ite.mpr ⟨fun _ => trivial, fun _ => ?_⟩
  refine Method.wp_bind.mpr (Method.wp_modify.mpr (Method.wp_bind.mpr (Method.wp_get.mpr ?_)))
  split
  · exact Method.wp_ite.mpr ⟨fun _ => inMemory, fun _ => merges 2⟩
  · exact Method.wp_ite.mpr ⟨fun _ => inMemory, fun _ => merges _⟩

end SortSession

end Streams

end SortGovernor.Engine
