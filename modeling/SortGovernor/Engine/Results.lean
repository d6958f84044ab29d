import SortGovernor.Engine.Ingest

/-!
# Finishing a sort and consuming its stream

`finish` hands over a stream that still has the whole reference output to
emit.  Every poll emits the next row of it, or reports an error, after which
only the cleanup of the scratch directory can report another one.
-/

namespace SortGovernor.Engine

open SortGovernor.Resumption SortGovernor.Sorting

variable {Key Value : Type} [LinearOrder Key] {codec : Codec Key Value}

/-- The requests a stream or a finishing session may make anywhere. -/
def AnyRequest {State : Type} (_ : State) (_ : Request Key Value) (_ : World) : Prop := True

/-- An error reported to the caller, no panic and no unbounded loop. -/
def Reports {State : Type} (abort : Abort) (_ : State) (_ : World) : Prop :=
  ∃ error, abort = .error error

omit [LinearOrder Key] in
theorem tolerates_reports {State : Type} {initial : World} (state : State) :
    Tolerates codec initial AnyRequest Reports state :=
  ⟨fun _ _ _ => trivial, fun error _ => ⟨error, rfl⟩⟩

omit [LinearOrder Key] in
theorem replaces_anyRequest {State : Type} (state : State) :
    Replaces codec AnyRequest state :=
  fun _ _ _ _ _ _ => trivial

namespace AsyncCleanupGuard

def Equipped (guard : AsyncCleanupGuard) : Prop := guard.dir ≠ none → guard.fds = some .shared

variable {initial : World} {issue : AsyncCleanupGuard → Request Key Value → World → Prop}
  {err : Abort → AsyncCleanupGuard → World → Prop} {guard : AsyncCleanupGuard} {world : World}

omit [LinearOrder Key] in
theorem wp_cleanup {ok : Unit → AsyncCleanupGuard → World → Prop}
    (tolerates : ∀ guard', guard'.Equipped → Tolerates codec initial issue err guard')
    (equipped : guard.Equipped) (done : ∀ guard' world', guard'.Equipped → ok () guard' world') :
    (cleanup : Async Key Value AsyncCleanupGuard Unit).wp (sessionSemantics codec) issue ok err
      guard world := by
  unfold cleanup
  refine Method.wp_bind.mpr (Method.wp_get.mpr ?_)
  split
  · exact done guard world equipped
  · rename_i dir armed
    refine Method.wp_bind.mpr (wp_scopeIdle ((tolerates guard equipped).issue _ _ trivial) ?_)
    rw [equipped (by simp [armed])]
    refine Method.wp_bind.mpr (wp_performReserved (.removeDirAll dir) (tolerates guard equipped)
      trivial ?_)
    intro _ fs _
    exact Method.wp_modify.mpr (done _ _ fun absent => absurd rfl absent)

end AsyncCleanupGuard

namespace ValueStream

/-- A stream that has `rows` still to emit and has reported no error. -/
def Live (codec : Codec Key Value) (world : World) (rows : List (Record Key Value)) :
    ValueStream Key Value → Prop
  | inMemory dedup buffered last _ _ _ =>
      rows = if dedup then collapse Record.key (last.map Prod.fst) (buffered.map RunRow.record)
        else buffered.map RunRow.record
  | merging (some state) hold _ =>
      hold.scratch.Equipped ∧ ∃ view, world.Shows view ∧ state.Emits codec view rows
  | _ => False

/-- A stream that reported an error; `cleaned` once the cleanup reported its own. -/
def Failed (cleaned : Bool) (stream : ValueStream Key Value) : Prop :=
  ∃ hold, stream = merging none hold cleaned ∧ hold.scratch.Equipped

variable {world : World}

/-- Reading the sorted buffer gives the next row of the reference. -/
theorem nextInMemory_eq {dedup : Bool} {buffered : List (RunRow Key Value)}
    {last : Option (Key × Option MemoryCharge)} {rows : List (Record Key Value)}
    (live : rows = if dedup then
        collapse Record.key (last.map Prod.fst) (buffered.map RunRow.record)
      else buffered.map RunRow.record) :
    (nextInMemory dedup buffered last = none ∧ rows = []) ∨
      ∃ record rest buffered' last', rows = record :: rest ∧
        nextInMemory dedup buffered last = some (record.2.1, buffered', last') ∧
        rest = if dedup then
            collapse Record.key (last'.map Prod.fst) (buffered'.map RunRow.record)
          else buffered'.map RunRow.record := by
  induction buffered with
  | nil =>
      refine .inl ⟨rfl, ?_⟩
      rw [live]
      split <;> rfl
  | cons row buffered inductionHypothesis =>
      unfold nextInMemory
      cases dedup with
      | false =>
          rw [if_neg (by simp)] at live
          refine .inr ⟨_, _, buffered, last, live, ?_, rfl⟩
          simp [RunRow.record]
      | true =>
          rw [if_pos rfl, List.map_cons] at live
          have isLast : (last.any fun last => last.1 = row.key) = true ↔
              last.map Prod.fst = some (Record.key row.record) := by
            cases last <;> simp
          by_cases repeated : last.map Prod.fst = some (Record.key row.record)
          · rw [collapse_cons_of_eq _ _ repeated] at live
            rw [if_pos (by simpa using isLast.mpr repeated)]
            exact inductionHypothesis (by rw [if_pos rfl]; exact live)
          · rw [collapse_cons_of_ne _ _ repeated] at live
            rw [if_neg (by simpa using fun same => repeated (isLast.mp same))]
            exact .inr ⟨_, _, buffered, some (row.key, row.charge), live, rfl, rfl⟩

omit [LinearOrder Key] in
theorem wp_finishCleanup {hold : StreamHold} {stream : ValueStream Key Value}
    {issue : ValueStream Key Value → Request Key Value → World → Prop}
    {err : Abort → ValueStream Key Value → World → Prop}
    {ok : Option (Except SorterError Value) → ValueStream Key Value → World → Prop}
    (issued : ∀ op world, issue stream op world) (equipped : hold.scratch.Equipped)
    (ended : ∀ stream' world', ok none stream' world')
    (reported : ∀ error stream' world', stream'.Failed true →
      ok (some (.error error)) stream' world') :
    (finishCleanup hold).wp (sessionSemantics codec) issue ok err stream world := by
  refine Method.wp_bind.mpr (Method.wp_attempt.mpr ?_)
  refine @AsyncCleanupGuard.wp_cleanup _ _ _ world _ _ _ _ _ ?_ equipped ?_
  · intro guard equipped'
    refine ⟨fun op world' _ => issued op world', fun error world' => ?_⟩
    refine Method.wp_bind.mpr (Method.wp_set.mpr ?_)
    exact reported error _ world' ⟨_, rfl, equipped'⟩
  · intro guard world' _
    refine Method.wp_bind.mpr (Method.wp_set.mpr ?_)
    exact ended _ world'

variable [Layout Key Value]

/-- A poll of a live stream emits its next row, ends it, or reports an error. -/
theorem wp_next_live {rows : List (Record Key Value)} {stream : ValueStream Key Value}
    {ok : Option (Except SorterError Value) → ValueStream Key Value → World → Prop}
    {err : Abort → ValueStream Key Value → World → Prop} (live : stream.Live codec world rows)
    (emitted : ∀ record rest stream' world', rows = record :: rest →
      stream'.Live codec world' rest → ok (some (.ok record.2.1)) stream' world')
    (ended : ∀ stream' world', rows = [] → ok none stream' world')
    (failed : ∀ error stream' world', stream'.Failed false →
      ok (some (.error error)) stream' world')
    (uncleaned : ∀ error stream' world', rows = [] → stream'.Failed true →
      ok (some (.error error)) stream' world') :
    next.wp (sessionSemantics codec) AnyRequest ok err stream world := by
  unfold next
  refine Method.wp_bind.mpr (Method.wp_get.mpr ?_)
  cases stream with
  | inMemory dedup buffered last hold allocation metadata =>
      rcases nextInMemory_eq live with
        ⟨found, rfl⟩ | ⟨record, rest, buffered', last', rfl, found, live'⟩
      · simp only [found]
        exact Method.wp_bind.mpr (Method.wp_set.mpr (ended _ world rfl))
      · simp only [found]
        exact Method.wp_bind.mpr (Method.wp_set.mpr (emitted record rest _ world rfl live'))
  | merging state hold cleaned =>
      cases state with
      | none => cases live
      | some state =>
          rcases live with ⟨equipped, view, visible, emits⟩
          refine Method.wp_bind.mpr (Method.wp_attempt.mpr ?_)
          refine wp_nextRow (fun _ => show Tolerates codec world _ _ _ from
            ⟨fun _ _ _ => trivial, fun error world' => ?_⟩) visible emits ?_ ?_
          · refine Method.wp_bind.mpr (Method.wp_set.mpr ?_)
            exact failed error _ world' ⟨hold, rfl, equipped⟩
          · intro state' world' none _ _
            exact wp_finishCleanup (fun _ _ => trivial) equipped (fun stream' world'' =>
              ended stream' world'' none) fun error stream' world'' => uncleaned error
                stream' world'' none
          · intro row rest state' world' split emits' _ reads
            refine Method.wp_bind.mpr (Method.wp_set.mpr ?_)
            exact emitted _ rest _ world' split ⟨equipped, view, visible.after_reads reads, emits'⟩
  | ended scratch => cases live

theorem wp_next_failed {cleaned : Bool} {stream : ValueStream Key Value}
    {ok : Option (Except SorterError Value) → ValueStream Key Value → World → Prop}
    {err : Abort → ValueStream Key Value → World → Prop} (failed : stream.Failed cleaned)
    (ended : ∀ stream' world', ok none stream' world')
    (uncleaned : ∀ error stream' world', cleaned = false → stream'.Failed true →
      ok (some (.error error)) stream' world') :
    next.wp (sessionSemantics codec) AnyRequest ok err stream world := by
  rcases failed with ⟨hold, rfl, equipped⟩
  unfold next
  refine Method.wp_bind.mpr (Method.wp_get.mpr (Method.wp_ite.mpr ⟨fun _ => ?_, fun fresh => ?_⟩))
  · exact Method.wp_bind.mpr (Method.wp_set.mpr (ended _ world))
  · exact wp_finishCleanup (fun _ _ => trivial) equipped ended fun error stream' world' =>
      uncleaned error stream' world' (Bool.eq_false_iff.mpr fresh)

end ValueStream

theorem RunsOf.of_blocks {files : Contents} {paths : List ScratchPath}
    {blocks : List (List (Chunk Key Value))}
    (each : List.Forall₂ (HoldsBlock codec files) paths blocks) :
    RunsOf codec files blocks.flatten.flatten paths := by
  induction each with
  | nil => exact .nil
  | cons block _ inductionHypothesis =>
      rcases block with ⟨sorted, full, run, sort⟩
      rw [List.flatten_cons, List.flatten_append]
      exact (RunsOf.of_run full run sort).append inductionHypothesis

theorem Spilled.not_laterMerge {dir dir' : ScratchDir} {ordinal pass group : Nat}
    {path : ScratchPath} (spilled : Spilled dir ordinal path) :
    ¬LaterMerge dir' pass group path := by
  rintro ⟨pass', group', rfl, -⟩
  rcases spilled with ⟨-, n, -, named | ⟨level, named⟩⟩ <;> cases named

namespace SortSession

variable [Layout Key Value] {dedup : Bool} {accepted : List (Record Key Value)}
  {session : SortSession Key Value} {initial world : World}
  {issue : SortSession Key Value → Request Key Value → World → Prop}
  {err : Abort → SortSession Key Value → World → Prop}
  {ok : ValueStream Key Value → SortSession Key Value → World → Prop}

omit [LinearOrder Key] [Layout Key Value] in
theorem unused_laterMerge {path : ScratchPath} (tidy : session.Tidy initial world)
    (named : ∀ path ∈ session.spills.filterMap id, Spilled session.dir session.nextRun path)
    (later : LaterMerge session.dir 0 0 path) : initial.Unused world path := by
  constructor
  · intro created
    exact (tidy.created path created).resolve_right fun spilled => spilled.not_laterMerge later
  · intro present
    exact (tidy.present path present fun member => (named path member).not_laterMerge later).1

/-- The frontier of a finished session, oldest block first, streams its rows. -/
theorem wp_cascade_frontier {fanIn : Nat} {guard : AsyncCleanupGuard}
    {issue : AsyncCleanupGuard → Request Key Value → World → Prop}
    {err : Abort → AsyncCleanupGuard → World → Prop} {chunks : List (Chunk Key Value)}
    {ok : ValueStream Key Value → AsyncCleanupGuard → World → Prop}
    (tolerates : Tolerates codec initial issue err guard) (replaces : Replaces codec issue guard)
    (frontier : session.Frontier codec world chunks) (tidy : session.Tidy initial world)
    (equipped : guard.Equipped)
    (done : ∀ stream guard' world',
      stream.Live codec world' (reference Record.key dedup chunks.flatten) →
      ok stream guard' world') :
    (cascadeAndStream (session.spills.reverse.filterMap id) (max fanIn 2) session.dir dedup
      session.hold).wp (sessionSemantics codec) issue ok err guard world := by
  obtain ⟨blocks, each, rows⟩ := frontier.slots.exists_blocks
  rw [← List.filterMap_reverse] at each
  have runs := RunsOf.of_blocks each
  rw [rows] at runs
  unfold cascadeAndStream
  refine Method.wp_bind.mpr (Method.wp_get.mpr ?_)
  refine Method.wp_bind.mpr (wp_cascade tolerates replaces (Nat.le_max_right ..)
    (Nat.lt_succ_self _) runs ?_ ?_ ?_ ?_)
  · rw [List.filterMap_reverse]
    exact List.nodup_reverse.mpr frontier.distinct
  · intro path member
    rw [List.filterMap_reverse] at member
    exact (frontier.named path (List.mem_reverse.mp member)).not_laterMerge
  · exact fun path later => unused_laterMerge tidy frontier.named later
  · rintro next world' ⟨lists, files, sorted, same⟩
    refine Method.wp_bind.mpr (wp_open tolerates
      (opens_of_full tolerates world'.shows_self files fun run member => (sorted run member).1)
      world'.shows_self files (fun run member => (sorted run member).2) ?_)
    intro merge world'' emits _ reads
    refine Method.wp_bind.mpr (Method.wp_get.mpr (Method.wp_bind.mpr (Method.wp_set.mpr ?_)))
    refine done _ _ world'' ⟨equipped, _, world'.shows_self.after_reads reads, ?_⟩
    rwa [reference_congr _ same] at emits

theorem wp_mergeStream (rest : Chunk Key Value) {fanIn : Nat} {chunks : List (Chunk Key Value)}
    (tolerates : ∀ session, Tolerates codec initial issue err session)
    (replaces : ∀ session, Replaces codec issue session)
    (frontier : session.Frontier codec world chunks) (tidy : session.Tidy initial world)
    (equipped : session.cleanup.fds = some .shared) (sameDedup : session.dedup = dedup)
    (sort : StableSortOf Record.key rest ((sortBuffer session.buffer).map RunRow.record))
    (done : ∀ stream session' world',
      stream.Live codec world' (reference Record.key dedup (chunks.flatten ++ rest)) →
      ok stream session' world') :
    (mergeStream fanIn).wp (sessionSemantics codec) issue ok err session world := by
  have stream : ∀ (session : SortSession Key Value) (world : World) chunks',
      session.Frontier codec world chunks' → session.Tidy initial world →
      session.cleanup.fds = some .shared →
      session.dedup = dedup → chunks'.flatten = chunks.flatten ++ rest →
      (do
        let hold := (← get).hold
        modify fun session => { session with hold := none }
        let spills := (← get).spills.reverse.filterMap id
        modify fun session => { session with spills := session.spills.map fun _ => none }
        let session ← get
        Method.within session.cleanup (fun cleanup session => { session with cleanup })
          (cascadeAndStream spills (max fanIn 2) session.dir session.dedup hold) :
        Async Key Value (SortSession Key Value) _).wp (sessionSemantics codec) issue ok err
          session world := by
    intro session world chunks' frontier tidy equipped sameDedup rows
    refine Method.wp_bind.mpr (Method.wp_get.mpr (Method.wp_bind.mpr (Method.wp_modify.mpr ?_)))
    refine Method.wp_bind.mpr (Method.wp_get.mpr (Method.wp_bind.mpr (Method.wp_modify.mpr ?_)))
    refine Method.wp_bind.mpr (Method.wp_get.mpr (Method.wp_within.mpr ?_))
    refine wp_cascade_frontier ⟨(tolerates _).issue, fun error => (tolerates _).err error⟩
      (replaces _) frontier tidy (fun _ => equipped) ?_
    intro stream guard' world' live
    rw [sameDedup, rows] at live
    exact done stream _ world' live
  refine Method.wp_bind.mpr (Method.wp_get.mpr (Method.wp_bind.mpr (Method.wp_ite.mpr ⟨?_, ?_⟩)))
  · intro empty
    have noRest : rest = [] := by
      rw [List.isEmpty_iff.mp empty] at sort
      exact sort.perm.nil_eq.symm
    exact stream session world chunks frontier tidy equipped sameDedup
      (by rw [noRest, List.append_nil])
  · intro nonempty
    refine wp_spill (fun session _ => tolerates session) (fun session _ => replaces session)
      (unused_of_tidy tidy frontier) frontier
      (fun empty => nonempty (List.isEmpty_iff.mpr empty)) sort ?_
    intro spills world' frontier' advances
    exact stream _ world' _ frontier' (tidy_spilled tidy advances) equipped sameDedup (by simp)

omit [Layout Key Value] in
theorem wp_inMemoryStream (sameDedup : session.dedup = dedup)
    (sort : StableSortOf Record.key accepted (session.buffer.map RunRow.record))
    (done : ∀ stream session' world', stream.Live codec world'
      (reference Record.key dedup accepted) →
      ok stream session' world') :
    inMemoryStream.wp (sessionSemantics codec) issue ok err session world := by
  refine Method.wp_bind.mpr (Method.wp_get.mpr (Method.wp_bind.mpr (Method.wp_modify.mpr ?_)))
  refine Method.wp_bind.mpr (Method.wp_modify.mpr ?_)
  refine done _ _ world ?_
  show reference Record.key dedup accepted = _
  rw [reference_eq _ sort, sameDedup]
  rfl

/-- `finish` of a usable session streams the reference output of what it accepted. -/
theorem wp_finish_tidy (tolerates : ∀ session, Tolerates codec initial issue err session)
    (replaces : ∀ session, Replaces codec issue session)
    (usable : session.Usable codec dedup accepted world) (tidy : session.Tidy initial world)
    (done : ∀ stream session' world', stream.Live codec world'
      (reference Record.key dedup accepted) →
      ok stream session' world') :
    finish.wp (sessionSemantics codec) issue ok err session world := by
  obtain ⟨notFailed, sameDedup, chunks, holds⟩ := usable
  have sort := stableSortOf_sortBuffer holds.increasing
  have again : sortBuffer (sortBuffer session.buffer) = sortBuffer session.buffer :=
    (List.pairwise_insertionSort RowLe session.buffer).insertionSort_eq
  unfold finish
  refine Method.wp_bind.mpr (Method.wp_bind.mpr (Method.wp_get.mpr (Method.wp_ite.mpr
    ⟨fun failed => ?_, fun _ => ?_⟩)))
  · rw [notFailed] at failed
    cases failed
  refine Method.wp_bind.mpr (Method.wp_modify.mpr (Method.wp_bind.mpr (Method.wp_get.mpr ?_)))
  -- both plans stream from memory when nothing was spilled and merge otherwise
  have stream : ∀ fanIn, (if session.nextRun = 0 then inMemoryStream else mergeStream fanIn :
      Async Key Value (SortSession Key Value) _).wp (sessionSemantics codec) issue ok err
        { session with buffer := sortBuffer session.buffer } world := by
    intro fanIn
    refine Method.wp_ite.mpr ⟨fun unspilled => ?_, fun _ => ?_⟩
    · have none : chunks = [] := by
        apply List.eq_nil_of_length_eq_zero
        rw [← holds.frontier.count, unspilled]
      refine wp_inMemoryStream sameDedup ?_ done
      rw [holds.rows, none]
      exact sort
    · have rows := holds.rows
      refine wp_mergeStream (session.buffer.map RunRow.record) tolerates replaces
        holds.frontier tidy
        holds.descriptors sameDedup ?_ ?_
      · simp only [again]
        exact sort
      · rw [← rows]
        exact done
  split
  · exact stream 2
  · exact stream _

theorem wp_finish (usable : session.Usable codec dedup accepted world)
    (done : ∀ stream session' world', stream.Live codec world'
      (reference Record.key dedup accepted) →
      ok stream session' world') :
    finish.wp (sessionSemantics codec) AnyRequest ok Reports session world :=
  wp_finish_tidy tolerates_reports replaces_anyRequest usable tidy_self done

end SortSession

end SortGovernor.Engine
