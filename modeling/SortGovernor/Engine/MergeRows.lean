import SortGovernor.Engine.Merge
import SortGovernor.Engine.RunFile
import SortGovernor.Sorting.Merge

/-!
# What a merge emits

The heap holds the head of every source that has one, so popping it takes the
next row of the abstract merge.  A merge over finished runs therefore emits the
stable sort of their concatenation, and with `dedup` the first row of each key.
-/

namespace SortGovernor.Engine

open SortGovernor.Resumption SortGovernor.Sorting

variable {Key Value State : Type}

def Record.key (record : Record Key Value) : Key := record.1

@[simp]
theorem RunRow.key_record (row : RunRow Key Value) : Record.key row.record = row.key := rfl

/-- The rows a source has still to give are `records`. -/
def MergeSource.Pends (codec : Codec Key Value) (view : Contents)
    (source : MergeSource Key Value) (records : List (Record Key Value)) : Prop :=
  match source.head with
  | none => records = [] ∧ source.reader.Pends codec view []
  | some row => ∃ rest, records = row.record :: rest ∧ source.reader.Pends codec view rest

namespace MergeSource

variable {codec : Codec Key Value} {view : Contents} {source : MergeSource Key Value}
  {records : List (Record Key Value)}

theorem pends_of_none (head : source.head = none) :
    source.Pends codec view records ↔ records = [] ∧ source.reader.Pends codec view [] := by
  unfold Pends
  rw [head]

theorem pends_of_some {row : RunRow Key Value} (head : source.head = some row) :
    source.Pends codec view records ↔
      ∃ rest, records = row.record :: rest ∧ source.reader.Pends codec view rest := by
  unfold Pends
  rw [head]

theorem Pends.rowsLeft (pends : source.Pends codec view records) :
    source.head.toList.length + source.reader.remaining = records.length := by
  cases head : source.head with
  | none =>
      rcases (pends_of_none head).mp pends with ⟨rfl, reader⟩
      simp [reader.remaining]
  | some row =>
      rcases (pends_of_some head).mp pends with ⟨rest, rfl, reader⟩
      simp [reader.remaining, Nat.add_comm]

theorem Pends.exists_head {record : Record Key Value} {rest : List (Record Key Value)}
    (pends : source.Pends codec view (record :: rest)) :
    ∃ row, source.head = some row ∧ record = row.record ∧ source.reader.Pends codec view rest := by
  cases head : source.head with
  | none => cases ((pends_of_none head).mp pends).1
  | some row =>
      rcases (pends_of_some head).mp pends with ⟨rest', same, reader⟩
      cases same
      exact ⟨row, rfl, rfl, reader⟩

end MergeSource

/-- The sources hold the runs `pending`, and the heap their heads. -/
structure MergeState.Pends (codec : Codec Key Value) (view : Contents)
    (state : MergeState Key Value) (pending : List (List (Record Key Value))) : Prop where
  sources : List.Forall₂ (MergeSource.Pends codec view) state.sources pending
  heap : (state.heap.map fun entry => (entry.key, entry.idx)).Perm (heads Record.key 0 pending)

variable {codec : Codec Key Value} {view : Contents}

theorem MergeState.Pends.rowsLeft {state : MergeState Key Value}
    {pending : List (List (Record Key Value))} (pends : state.Pends codec view pending) :
    state.rowsLeft = pending.flatten.length := by
  have sum : ∀ sources : List (MergeSource Key Value), ∀ pending,
      List.Forall₂ (MergeSource.Pends codec view) sources pending →
      (sources.map fun source => source.head.toList.length + source.reader.remaining).sum =
        pending.flatten.length := by
    intro sources pending each
    induction each with
    | nil => rfl
    | cons source _ inductionHypothesis =>
        simp [source.rowsLeft, inductionHypothesis]
  exact sum _ _ pends.sources

/-- The rows still to be emitted are `rows`. -/
def MergeState.Emits [LinearOrder Key] (codec : Codec Key Value) (view : Contents)
    (state : MergeState Key Value) (rows : List (Record Key Value)) : Prop :=
  ∃ pending output, state.Pends codec view pending ∧ MergesTo Record.key pending output ∧
    rows = if state.dedup then collapse Record.key (state.lastKey.map Prod.fst) output else output

section Steps

variable [Layout Key Value] {initial : World}

theorem wp_takeHead {issue : MergeSource Key Value → Request Key Value → World → Prop}
    {err : Abort → MergeSource Key Value → World → Prop} {source : MergeSource Key Value}
    {world : World} {row : RunRow Key Value} {rest : List (Record Key Value)}
    {ok : RunRow Key Value → MergeSource Key Value → World → Prop}
    (tolerates : ∀ source, Tolerates codec initial issue err source) (visible : world.Shows view)
    (head : source.head = some row)
    (pends : source.reader.Pends codec view rest)
    (taken : ∀ source' world', source'.Pends codec view rest → world.Reads world' →
      ok row source' world') :
    MergeSource.takeHead.wp (sessionSemantics codec) issue ok err source world := by
  unfold MergeSource.takeHead
  refine Method.wp_bind.mpr (Method.wp_get.mpr ?_)
  rw [head]
  refine Method.wp_bind.mpr (Method.wp_modify.mpr ?_)
  refine Method.wp_bind.mpr (Method.wp_get.mpr ?_)
  refine Method.wp_bind.mpr (Method.wp_within.mpr ?_)
  refine RunReader.wp_nextRow (fun reader => ⟨fun op world => (tolerates _).issue op world,
    fun error world => (tolerates _).err error world⟩) visible pends ?_ ?_
  · rintro rfl
    refine taken _ _ ?_ (World.Follows.refl world)
    exact (MergeSource.pends_of_none rfl).mpr ⟨rfl, pends⟩
  · rintro next rest' reader' world' rfl pends' reads
    refine taken _ _ ?_ reads
    exact (MergeSource.pends_of_some rfl).mpr ⟨rest', rfl, pends'⟩

section State

variable {issue : MergeState Key Value → Request Key Value → World → Prop}
  {err : Abort → MergeState Key Value → World → Prop} {state : MergeState Key Value}
  {world : World}

omit [Layout Key Value] in
theorem wp_source {idx : Nat} {source : MergeSource Key Value}
    {ok : MergeSource Key Value → MergeState Key Value → World → Prop}
    (found : state.sources[idx]? = some source) (done : ok source state world) :
    (MergeState.source idx).wp (sessionSemantics codec) issue ok err state world := by
  unfold MergeState.source
  refine Method.wp_bind.mpr (Method.wp_get.mpr ?_)
  rw [found]
  exact done

omit [Layout Key Value] in
/-- The refilled source keeps its rows and gets its head back on the heap. -/
theorem wp_refill (before after : List (MergeSource Key Value)) {source : MergeSource Key Value}
    {records : List (Record Key Value)} {ok : Unit → MergeState Key Value → World → Prop}
    (tolerates : ∀ state, Tolerates codec initial issue err state)
    (sources : state.sources = before ++ source :: after)
    (pends : source.Pends codec view records)
    (done : ∀ source' heap', source'.Pends codec view records →
      heap'.map (fun entry => (entry.key, entry.idx)) =
        heads Record.key before.length [records] ++
          state.heap.map (fun entry => (entry.key, entry.idx)) →
      ok () { state with sources := before ++ source' :: after, heap := heap' } world) :
    (MergeState.refill before.length).wp (sessionSemantics codec) issue ok err state world := by
  unfold MergeState.refill
  have found : state.sources[before.length]? = some source := by simp [sources]
  refine Method.wp_bind.mpr (wp_source found ?_)
  cases head : source.head with
  | none =>
      have unchanged := done source state.heap pends ?_
      · rw [← sources] at unchanged
        exact unchanged
      · rw [((MergeSource.pends_of_none head).mp pends).1]
        rfl
  | some row =>
      rcases (MergeSource.pends_of_some head).mp pends with ⟨rest, rfl, reader⟩
      refine Method.wp_bind.mpr
        (wp_reserve ((tolerates _).issue _ _ trivial) (fun _ => (tolerates _).err _ _) ?_)
      refine Method.wp_bind.mpr (Method.wp_modify.mpr ?_)
      refine Method.wp_modify.mpr ?_
      have changed := done { source with keyCharge := some ⟨row.retainedBytes⟩ }
        ({ key := row.key, idx := before.length } :: state.heap)
        ((MergeSource.pends_of_some head).mpr ⟨rest, rfl, reader⟩) rfl
      simpa [MergeState.setSource, sources, head] using changed

end State

end Steps

theorem forall₂_split {Alpha Beta : Type} {related : Alpha → Beta → Prop} {items : List Alpha}
    {before after : List Beta} {b : Beta}
    (each : List.Forall₂ related items (before ++ b :: after)) :
    ∃ before' a after', items = before' ++ a :: after' ∧ List.Forall₂ related before' before ∧
      related a b ∧ List.Forall₂ related after' after := by
  induction before generalizing items with
  | nil =>
      rcases List.forall₂_cons_right_iff.mp each with ⟨a, after', head, tail, rfl⟩
      exact ⟨[], a, after', rfl, .nil, head, tail⟩
  | cons c before inductionHypothesis =>
      rcases List.forall₂_cons_right_iff.mp each with ⟨first, others, head, tail, rfl⟩
      rcases inductionHypothesis tail with ⟨before', a, after', rfl, left, middle, right⟩
      exact ⟨first :: before', a, after', rfl, .cons head left, middle, right⟩

section Takes

variable [LinearOrder Key]

theorem MergeState.Pends.popped {state : MergeState Key Value}
    {pending : List (List (Record Key Value))} {entry : HeapEntry Key}
    {others : List (HeapEntry Key)} (pends : state.Pends codec view pending)
    (popped : popMin HeapEntry.rank state.heap = some (entry, others)) :
    ∃ before record tail after, pending = before ++ (record :: tail) :: after ∧
      entry.idx = before.length ∧
      Takes Record.key record pending (before ++ tail :: after) ∧
      (others.map fun entry => (entry.key, entry.idx)).Perm
        (heads Record.key 0 before ++ heads Record.key (before.length + 1) after) := by
  have permutation := (popMin_perm _ popped).map fun entry => (entry.key, entry.idx)
  have queue := permutation.symm.trans pends.heap
  have least := popMin_le _ popped
  rcases exists_of_mem_heads (queue.subset (List.mem_cons_self ..)) with
    ⟨before, record, tail, after, rfl, named⟩
  rw [Nat.zero_add, Prod.mk.injEq] at named
  rcases named with ⟨entryKey, entryIdx⟩
  refine ⟨before, record, tail, after, rfl, entryIdx, .of_least fun other member => ?_, ?_⟩
  · rcases List.mem_map.mp (pends.heap.symm.subset member) with ⟨entry', inHeap, rfl⟩
    rw [← entryKey, ← entryIdx]
    exact least entry' inHeap
  · rw [heads_append, Nat.zero_add] at queue
    have split := queue.trans List.perm_middle
    rw [List.map_cons, entryKey, entryIdx] at split
    exact split.cons_inv

variable [Layout Key Value] {issue : MergeState Key Value → Request Key Value → World → Prop}
  {err : Abort → MergeState Key Value → World → Prop} {state : MergeState Key Value}
  {world : World}

/-- One turn of `next_row` takes the next row of the merge. -/
theorem wp_takeNext {pending : List (List (Record Key Value))}
    {ok : Option (RunRow Key Value) → MergeState Key Value → World → Prop}
    (tolerates : ∀ state, Tolerates codec initial issue err state) (visible : world.Shows view)
    (pends : state.Pends codec view pending)
    (ended : (∀ run ∈ pending, run = []) → ok none state world)
    (taken : ∀ (row : RunRow Key Value) rest state' world',
      Takes Record.key row.record pending rest → state'.Pends codec view rest →
      state'.dedup = state.dedup → state'.lastKey = state.lastKey → world.Reads world' →
      ok (some row) state' world') :
    MergeState.takeNext.wp (sessionSemantics codec) issue ok err state world := by
  unfold MergeState.takeNext
  refine Method.wp_bind.mpr (Method.wp_get.mpr ?_)
  cases popped : popMin HeapEntry.rank state.heap with
  | none =>
      have empty := pends.heap
      rw [(popMin_eq_none _).mp popped] at empty
      exact ended (heads_eq_nil empty.symm.eq_nil)
  | some popped' =>
      rcases popped' with ⟨entry, others⟩
      rcases pends.popped popped with ⟨before, record, tail, after, rfl, entryIdx, takes, heap⟩
      rcases forall₂_split pends.sources with
        ⟨before', source, after', sources, left, middle, right⟩
      rw [← left.length_eq] at entryIdx
      have found : state.sources[entry.idx]? = some source := by
        simp [sources, entryIdx]
      refine Method.wp_bind.mpr (Method.wp_modify.mpr ?_)
      refine Method.wp_bind.mpr (wp_source found ?_)
      refine Method.wp_bind.mpr (Method.wp_modify.mpr ?_)
      rcases middle.exists_head with ⟨row, head, rfl, reader⟩
      refine Method.wp_bind.mpr (Method.wp_within.mpr ?_)
      refine wp_takeHead (fun _ => ⟨fun op world => (tolerates _).issue op world,
        fun error world => (tolerates _).err error world⟩) visible head reader ?_
      intro source' world' pends' reads
      refine Method.wp_bind.mpr ?_
      rw [entryIdx]
      refine wp_refill before' after' tolerates ?_ pends' ?_
      · simp [MergeState.setSource, sources]
      · intro source'' heap' pends'' entries
        refine taken row _ _ world' takes ⟨?_, ?_⟩ rfl rfl reads
        · exact List.rel_append left (.cons pends'' right)
        · have later : heads Record.key before.length (tail :: after) = _ :=
            heads_append before.length [tail] after
          rw [left.length_eq] at entries
          rw [heads_append, Nat.zero_add]
          refine (List.Perm.of_eq entries).trans ((heap.append_left _).trans ?_)
          exact (List.perm_append_comm_assoc _ _ _).trans
            (List.Perm.of_eq (congrArg _ later.symm))

theorem wp_nextRowLoop {turns : Nat} {pending : List (List (Record Key Value))}
    {output rows : List (Record Key Value)}
    {ok : Option (RunRow Key Value) → MergeState Key Value → World → Prop}
    (tolerates : ∀ state, Tolerates codec initial issue err state) (visible : world.Shows view)
    (pends : state.Pends codec view pending)
    (merges : MergesTo Record.key pending output) (enough : pending.flatten.length < turns)
    (emits : rows =
      if state.dedup then collapse Record.key (state.lastKey.map Prod.fst) output else output)
    (ended : ∀ state' world', rows = [] → state'.Emits codec view [] → world.Reads world' →
      ok none state' world')
    (emitted : ∀ (row : RunRow Key Value) rest state' world', rows = row.record :: rest →
      state'.Emits codec view rest → state'.dedup = state.dedup →
      world.Reads world' → ok (some row) state' world') :
    (MergeState.nextRowLoop turns).wp (sessionSemantics codec) issue ok err state world := by
  induction turns generalizing state world pending output with
  | zero => omega
  | succ turns inductionHypothesis =>
      unfold MergeState.nextRowLoop
      refine Method.wp_bind.mpr (wp_takeNext tolerates visible pends ?_ ?_)
      · intro empty
        have none : rows = [] := by
          rw [emits, merges.eq_nil empty]
          split <;> rfl
        exact ended state world none ⟨pending, output, pends, merges, none ▸ emits⟩
          (World.Follows.refl world)
      · intro row pending' state' world' takes pends' sameDedup sameLast reads
        rcases merges.of_takes takes with ⟨output', rfl, merges'⟩
        have shorter := takes.length
        refine Method.wp_bind.mpr (Method.wp_get.mpr (Method.wp_ite.mpr ⟨?_, ?_⟩))
        · intro dedup
          rw [← sameDedup, if_pos dedup, ← sameLast] at emits
          have isLast : (state'.lastKey.any fun last => last.1 = row.key) = true ↔
              state'.lastKey.map Prod.fst = some (Record.key row.record) := by
            cases state'.lastKey <;> simp
          refine Method.wp_bind.mpr (Method.wp_get.mpr (Method.wp_ite.mpr ⟨?_, ?_⟩))
          · intro repeated
            rw [collapse_cons_of_eq _ _ (isLast.mp repeated)] at emits
            refine inductionHypothesis (visible.after_reads reads) pends' merges' (by omega)
              (by rw [if_pos dedup]; exact emits) ?_ ?_
            · intro state'' world'' none emits' reads'
              exact ended state'' world'' none emits' (reads.trans reads')
            · intro next rest state'' world'' split emits' kept reads'
              exact emitted next rest state'' world'' split emits' (kept.trans sameDedup)
                (reads.trans reads')
          · intro fresh
            rw [collapse_cons_of_ne _ _ fun same => fresh (isLast.mpr same)] at emits
            refine Method.wp_bind.mpr
              (wp_reserve ((tolerates _).issue _ _ trivial) (fun _ => (tolerates _).err _ _) ?_)
            refine Method.wp_bind.mpr (Method.wp_modify.mpr ?_)
            refine emitted row _ _ world' emits ?_ sameDedup reads
            refine ⟨pending', output', ⟨pends'.sources, pends'.heap⟩, merges', ?_⟩
            rw [if_pos dedup]
            rfl
        · intro plain
          rw [← sameDedup, if_neg plain] at emits
          refine emitted row output' state' world' emits ?_ sameDedup reads
          exact ⟨pending', output', pends', merges', by rw [if_neg plain]⟩

/-- `next_row` emits the next row, or ends when nothing is left. -/
theorem wp_nextRow {rows : List (Record Key Value)}
    {ok : Option (RunRow Key Value) → MergeState Key Value → World → Prop}
    (tolerates : ∀ state, Tolerates codec initial issue err state) (visible : world.Shows view)
    (emits : state.Emits codec view rows)
    (ended : ∀ state' world', rows = [] → state'.Emits codec view [] → world.Reads world' →
      ok none state' world')
    (emitted : ∀ (row : RunRow Key Value) rest state' world', rows = row.record :: rest →
      state'.Emits codec view rest → state'.dedup = state.dedup →
      world.Reads world' → ok (some row) state' world') :
    MergeState.nextRow.wp (sessionSemantics codec) issue ok err state world := by
  rcases emits with ⟨pending, output, pends, merges, emits⟩
  refine Method.wp_bind.mpr (Method.wp_get.mpr ?_)
  refine wp_nextRowLoop tolerates visible pends merges ?_ emits ended emitted
  rw [pends.rowsLeft]
  exact Nat.lt_succ_self _

end Takes

section Open

variable [Layout Key Value] {issue : State → Request Key Value → World → Prop}
  {err : Abort → State → World → Prop} {state : State} {world : World}

theorem wp_openSource {path : ScratchPath} {io : ScopeId} {records : List (Record Key Value)}
    {ok : Option (MergeSource Key Value) → State → World → Prop}
    (tolerates : Tolerates codec initial issue err state)
    (issued : ∀ held, issue state (.perform io held (.readCount path)) world)
    (visible : world.Shows view) (run : RunFile codec view path records)
    (empty : ∀ world', records = [] → world.Reads world' → ok none state world')
    (opened : ∀ source world', records ≠ [] → source.Pends codec view records →
      world.Reads world' → ok (some source) state world') :
    (MergeSource.open path io : Async Key Value State _).wp (sessionSemantics codec)
        issue ok err state world := by
  refine Method.wp_bind.mpr (RunReader.wp_open tolerates issued visible run ?_)
  intro reader world' pends reads
  refine Method.wp_bind.mpr (Method.wp_call.mpr ?_)
  refine RunReader.wp_nextRow (fun _ => tolerates.inner _) (visible.after_reads reads) pends ?_ ?_
  · exact fun none => empty world' none reads
  · rintro row rest reader' world'' rfl pends' reads'
    exact opened _ world'' (List.cons_ne_nil _ _)
      ((MergeSource.pends_of_some rfl).mpr ⟨rest, rfl, pends'⟩) (reads.trans reads')

omit [Layout Key Value] in
theorem wp_pushSource {merge : MergeState Key Value} {source : MergeSource Key Value}
    {pending : List (List (Record Key Value))} {records : List (Record Key Value)}
    {ok : MergeState Key Value → State → World → Prop}
    (tolerates : Tolerates codec initial issue err state)
    (pends : merge.Pends codec view pending)
    (head : source.Pends codec view records)
    (pushed : ∀ merge', merge'.Pends codec view (pending ++ [records]) →
      merge'.dedup = merge.dedup → merge'.lastKey = merge.lastKey → ok merge' state world) :
    (merge.pushSource source : Async Key Value State _).wp (sessionSemantics codec)
        issue ok err state world := by
  have length := pends.sources.length_eq
  unfold MergeState.pushSource
  cases first : source.head with
  | none =>
      refine pushed _ ⟨List.rel_append pends.sources (.cons head .nil), ?_⟩ rfl rfl
      rw [heads_append, ((MergeSource.pends_of_none first).mp head).1]
      exact pends.heap.trans (List.Perm.of_eq (List.append_nil _).symm)
  | some row =>
      refine Method.wp_bind.mpr (wp_reserve (tolerates.issue _ _ trivial)
        (fun _ => tolerates.err _ _) ?_)
      refine pushed _ ⟨List.rel_append pends.sources (.cons ?_ .nil), ?_⟩ rfl rfl
      · rcases (MergeSource.pends_of_some first).mp head with ⟨rest, rfl, reader⟩
        exact (MergeSource.pends_of_some rfl).mpr ⟨rest, rfl, reader⟩
      · rcases (MergeSource.pends_of_some first).mp head with ⟨rest, rfl, -⟩
        rw [heads_append, Nat.zero_add, ← length]
        exact (pends.heap.cons _).trans (List.perm_append_singleton _ _).symm

def Opens (issue : State → Request Key Value → World → Prop) (state : State) (io : ScopeId)
    (paths : List ScratchPath) (world : World) : Prop :=
  ∀ path ∈ paths, ∀ held world', world.Reads world' →
    issue state (.perform io held (.readCount path)) world'

theorem wp_openSources {io : ScopeId} {paths : List ScratchPath}
    {runs : List (List (Record Key Value))} {merge : MergeState Key Value}
    (pending : List (List (Record Key Value)))
    {ok : MergeState Key Value → State → World → Prop}
    (tolerates : Tolerates codec initial issue err state)
    (opens : Opens issue state io paths world) (visible : world.Shows view)
    (files : List.Forall₂ (RunFile codec view) paths runs)
    (pends : merge.Pends codec view pending)
    (opened : ∀ merge' world',
      merge'.Pends codec view (pending ++ runs.filter (!·.isEmpty)) →
      merge'.dedup = merge.dedup → merge'.lastKey = merge.lastKey → world.Reads world' →
      ok merge' state world') :
    (MergeState.openSources io paths merge : Async Key Value State _).wp
        (sessionSemantics codec) issue ok err state world := by
  induction paths generalizing runs pending merge world with
  | nil =>
      cases files
      refine opened merge world ?_ rfl rfl (World.Follows.refl world)
      simpa using pends
  | cons path paths inductionHypothesis =>
      rcases files with _ | ⟨run, files⟩
      rename_i records runs
      have later : ∀ {world'}, world.Reads world' → Opens issue state io paths world' :=
        fun reads other member held world'' reads' =>
          opens other (List.mem_cons_of_mem _ member) held world'' (reads.trans reads')
      refine Method.wp_bind.mpr (wp_openSource tolerates ?_ visible run ?_ ?_)
      · exact fun held => opens path (List.mem_cons_self ..) held world (World.Follows.refl world)
      · rintro world' rfl reads
        refine inductionHypothesis _ (later reads) (visible.after_reads reads) files pends ?_
        intro merge' world'' pends' sameDedup sameLast reads'
        exact opened merge' world'' pends' sameDedup sameLast (reads.trans reads')
      · intro source world' full head reads
        refine Method.wp_bind.mpr (wp_pushSource tolerates pends head ?_)
        intro merge' pends' sameDedup sameLast
        refine inductionHypothesis _ (later reads) (visible.after_reads reads) files pends' ?_
        intro merge'' world'' pends'' sameDedup' sameLast' reads'
        refine opened merge'' world'' ?_ (sameDedup'.trans sameDedup) (sameLast'.trans sameLast)
          (reads.trans reads')
        rw [List.filter_cons_of_pos (by simpa using full)]
        rwa [List.append_assoc] at pends''

omit [Layout Key Value] in
theorem opens_of_full {io : ScopeId} {paths : List ScratchPath}
    {runs : List (List (Record Key Value))} (tolerates : Tolerates codec initial issue err state)
    (visible : world.Shows view) (files : List.Forall₂ (RunFile codec view) paths runs)
    (full : ∀ run ∈ runs, run ≠ []) : Opens issue state io paths world := by
  induction files with
  | nil => exact fun _ member => absurd member List.not_mem_nil
  | @cons path records paths runs run files inductionHypothesis =>
      obtain ⟨first, others⟩ := List.forall_mem_cons.mp full
      intro other member held world' reads
      obtain rfl | member := List.mem_cons.mp member
      · exact tolerates.issue _ _ ⟨records, first, run.of_shows (visible.after_reads reads)⟩
      · exact inductionHypothesis others other member held world' reads

theorem wp_open_pends {io : ScopeId} {paths : List ScratchPath} {dedup : Bool}
    {runs : List (List (Record Key Value))} {ok : MergeState Key Value → State → World → Prop}
    (tolerates : Tolerates codec initial issue err state)
    (opens : Opens issue state io paths world) (visible : world.Shows view)
    (files : List.Forall₂ (RunFile codec view) paths runs)
    (opened : ∀ merge world', merge.Pends codec view (runs.filter (!·.isEmpty)) →
      merge.dedup = dedup → merge.lastKey = none → world.Reads world' → ok merge state world') :
    (MergeState.open paths dedup io : Async Key Value State _).wp (sessionSemantics codec)
        issue ok err state world := by
  unfold MergeState.open MergeState.new
  simp only [bind_assoc, pure_bind]
  refine Method.wp_bind.mpr (wp_orError_of (tolerates.err _ _) fun _ _ => ?_)
  refine Method.wp_bind.mpr (wp_orError_of (tolerates.err _ _) fun _ _ => ?_)
  refine Method.wp_bind.mpr (wp_orError_of (tolerates.err _ _) fun _ _ => ?_)
  refine Method.wp_bind.mpr (wp_reserve (tolerates.issue _ _ trivial)
    (fun _ => tolerates.err _ _) ?_)
  refine wp_openSources [] tolerates opens visible files ⟨.nil, .nil⟩ ?_
  intro merge world' pends sameDedup sameLast reads
  exact opened merge world' pends sameDedup sameLast reads

variable [LinearOrder Key]

theorem wp_open {io : ScopeId} {paths : List ScratchPath} {dedup : Bool}
    {runs : List (List (Record Key Value))} {ok : MergeState Key Value → State → World → Prop}
    (tolerates : Tolerates codec initial issue err state)
    (opens : Opens issue state io paths world) (visible : world.Shows view)
    (files : List.Forall₂ (RunFile codec view) paths runs)
    (sorted : ∀ run ∈ runs, run.Pairwise fun a b => Record.key a ≤ Record.key b)
    (opened : ∀ merge world',
      merge.Emits codec view (reference Record.key dedup runs.flatten) →
      merge.dedup = dedup → world.Reads world' → ok merge state world') :
    (MergeState.open paths dedup io : Async Key Value State _).wp (sessionSemantics codec)
        issue ok err state world := by
  refine wp_open_pends tolerates opens visible files ?_
  intro merge world' pends sameDedup noLast reads
  refine opened merge world' ?_ sameDedup reads
  obtain ⟨output, merges⟩ := exists_mergesTo Record.key (runs.filter (!·.isEmpty))
  refine ⟨_, output, pends, merges, ?_⟩
  have sort := merges.stableSortOf fun run member => sorted run (List.mem_of_mem_filter member)
  rw [List.flatten_filter_not_isEmpty] at sort
  rw [reference_eq _ sort, sameDedup, noLast]
  rfl

end Open

end SortGovernor.Engine
