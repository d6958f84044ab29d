import SortGovernor.Engine.SessionState

/-!
# Spilling keeps the frontier

A spill writes the sorted buffer to a fresh run and carries it through the
occupied slots.  While it runs the session is marked failed, so whatever stops
it leaves a session that refuses every later call.
-/

namespace SortGovernor.Engine

open SortGovernor.Resumption SortGovernor.Sorting

variable {Key Value : Type} [LinearOrder Key] [Layout Key Value] {codec : Codec Key Value}
  {initial : World} {issue : SortSession Key Value → Request Key Value → World → Prop}
  {err : Abort → SortSession Key Value → World → Prop} {session : SortSession Key Value}
  {world : World}

omit [LinearOrder Key] in
theorem wp_writeRows {rows : List (RunRow Key Value)} {before : List UInt8} {writer : RunWriter}
    {records : List (Record Key Value)} {ok : RunWriter → SortSession Key Value → World → Prop}
    (tolerates : Tolerates codec initial issue err session)
    (holds : writer.Holds codec before world records)
    (written : ∀ writer' world', writer'.path = writer.path →
      writer'.Holds codec before world' (records ++ rows.map RunRow.record) →
      world.Follows (fun _ => False) (· = writer.path) world' → ok writer' session world') :
    (SortSession.writeRows rows writer).wp (sessionSemantics codec) issue ok err session world := by
  induction rows generalizing writer records world with
  | nil =>
      refine written writer world rfl ?_ (World.Follows.refl world)
      rwa [List.map_nil, List.append_nil]
  | cons row rows inductionHypothesis =>
      refine Method.wp_bind.mpr (RunWriter.wp_writeRow tolerates holds ?_)
      intro writer' world' samePath holds' follows
      refine inductionHypothesis holds' ?_
      intro writer'' world'' samePath' holds'' follows'
      refine written writer'' world'' (samePath'.trans samePath) ?_ ?_
      · rwa [List.append_assoc, List.singleton_append] at holds''
      · rw [samePath] at follows'
        exact follows.trans follows'

def CarryFile (dir : ScratchDir) (ordinal : Nat) (path : ScratchPath) : Prop :=
  ∃ level, path = ⟨dir, .carry ordinal level⟩

def SpillFile (dir : ScratchDir) (ordinal : Nat) (path : ScratchPath) : Prop :=
  path = ⟨dir, .run ordinal⟩ ∨ CarryFile dir ordinal path

theorem Spilled.ne {dir : ScratchDir} {ordinal : Nat} {path : ScratchPath}
    (spilled : Spilled dir ordinal path) :
    path ≠ ⟨dir, .run ordinal⟩ ∧ ∀ level, path ≠ ⟨dir, .carry ordinal level⟩ := by
  rcases spilled with ⟨-, n, less, named⟩
  refine ⟨?_, fun level => ?_⟩
  all_goals
    rintro rfl
    rcases named with same | ⟨level, same⟩ <;> cases same
    exact absurd less (Nat.lt_irrefl _)

theorem Spilled.mono {dir : ScratchDir} {ordinal ordinal' : Nat} {path : ScratchPath}
    (spilled : Spilled dir ordinal path) (le : ordinal ≤ ordinal') : Spilled dir ordinal' path := by
  rcases spilled with ⟨inDir, n, less, named⟩
  exact ⟨inDir, n, Nat.lt_of_lt_of_le less le, named⟩

/-- The carry loop finds a free slot and stores the block there, merged with
every block it passed. -/
theorem wp_carry {ordinal level size : Nat} {before slots : List (Option ScratchPath)}
    {run : ScratchPath} {older newer : List (Chunk Key Value)}
    {ok : Unit → SortSession Key Value → World → Prop}
    (tolerates : ∀ session, session.failed = true → Tolerates codec initial issue err session)
    (replaces : ∀ session, session.failed = true → Replaces codec issue session)
    (failed : session.failed = true)
    (unused : ∀ higher, level ≤ higher →
      initial.Unused world ⟨session.dir, .carry ordinal higher⟩)
    (filled : Slots (HoldsBlock codec world.fs.files) size slots older)
    (block : HoldsBlock codec world.fs.files run newer) (length : newer.length = size)
    (room : older.length + size < size * 2 ^ slots.length)
    (named : ∀ path ∈ slots.filterMap id, Spilled session.dir ordinal path)
    (distinct : (slots.filterMap id).Nodup)
    (runNamed : run = ⟨session.dir, .run ordinal⟩ ∨
      ∃ lower, lower < level ∧ run = ⟨session.dir, .carry ordinal lower⟩)
    (carried : ∀ slots' world',
      Slots (HoldsBlock codec world'.fs.files) size slots' (older ++ newer) →
      slots'.length = slots.length →
      (∀ path ∈ slots'.filterMap id, Spilled session.dir (ordinal + 1) path) →
      (slots'.filterMap id).Nodup →
      world.Follows (fun _ => True) (CarryFile session.dir ordinal) world' →
      world.Advances (CarryFile session.dir ordinal) (run :: slots.filterMap id)
        (slots'.filterMap id) world' →
      ok () { session with spills := before ++ slots', failed := false } world') :
    (SortSession.carry ordinal level before slots run).wp (sessionSemantics codec) issue ok err
        session world := by
  induction slots generalizing level size before run older newer session world with
  | nil =>
      cases filled
      simp at room
  | cons slot slots inductionHypothesis =>
      have runSpilled : Spilled session.dir (ordinal + 1) run := by
        rcases runNamed with rfl | ⟨lower, -, rfl⟩
        · exact ⟨rfl, ordinal, Nat.lt_succ_self _, .inl rfl⟩
        · exact ⟨rfl, ordinal, Nat.lt_succ_self _, .inr ⟨lower, rfl⟩⟩
      have runFresh : ∀ path, Spilled session.dir ordinal path → path ≠ run := by
        intro path spilled
        rcases runNamed with rfl | ⟨lower, -, rfl⟩
        · exact spilled.ne.1
        · exact spilled.ne.2 lower
      cases slot with
      | none =>
          unfold SortSession.carry
          refine Method.wp_bind.mpr (Method.wp_modify.mpr (Method.wp_modify.mpr ?_))
          refine carried (some run :: slots) world
            ⟨older, newer, rfl, length, block, filled⟩ rfl ?_ ?_
            (World.Follows.refl world) (World.Advances.refl world)
          · intro path member
            rcases List.mem_cons.mp (show path ∈ run :: slots.filterMap id from member) with
              rfl | inRest
            · exact runSpilled
            · exact (named path inRest).mono (Nat.le_succ ordinal)
          · exact List.nodup_cons.mpr ⟨fun member => runFresh run (named run member) rfl, distinct⟩
      | some path =>
          have spilled : Spilled session.dir ordinal path := named path (List.mem_cons_self ..)
          rcases filled with
            ⟨older, between, rfl, betweenLength, ⟨sorted, full, pathRun, sort⟩, rest⟩
          rcases block with ⟨sorted', full', runRun, sort'⟩
          rcases List.nodup_cons.mp (show (path :: slots.filterMap id).Nodup from distinct) with
            ⟨notAfter, distinctAfter⟩
          unfold SortSession.carry
          refine Method.wp_bind.mpr (Method.wp_modify.mpr ?_)
          refine Method.wp_bind.mpr (Method.wp_get.mpr ?_)
          have pathOther : path ≠ ⟨session.dir, .carry ordinal level⟩ := spilled.ne.2 level
          have runOther : run ≠ ⟨session.dir, .carry ordinal level⟩ := by
            rintro rfl
            obtain same | ⟨lower, less, same⟩ := runNamed
            · cases same
            · cases same
              exact absurd less (Nat.lt_irrefl _)
          have both := List.Forall₂.cons pathRun (.cons runRun .nil)
          refine Method.wp_bind.mpr (wp_mergeGroupToFile (tolerates _ failed)
            (opens_of_full (tolerates _ failed) world.shows_self both ?_) both ?_ ?_
            (unused level (Nat.le_refl _)) ?_ ?_)
          · exact List.forall_mem_cons.mpr ⟨full, List.forall_mem_singleton.mpr full'⟩
          · exact List.forall_mem_cons.mpr
              ⟨sort.sorted, List.forall_mem_singleton.mpr sort'.sorted⟩
          · intro member
            obtain same | inRest := List.mem_cons.mp member
            · exact pathOther same.symm
            · exact runOther (List.mem_singleton.mp inRest).symm
          · intro input member world' records run
            refine replaces { session with spills := before ++ none :: slots } failed input _ world'
              records ?_ run
            obtain rfl | inRest := List.mem_cons.mp member
            · exact pathOther
            · exact List.mem_singleton.mp inRest ▸ runOther
          · intro world' merged _ advances follows
            -- the slots still to come keep their files
            have kept : ∀ other ∈ slots.filterMap id,
                world'.fs.files other = world.fs.files other := by
              intro other member
              have older := named other (List.mem_cons_of_mem _ member)
              refine follows.files other (fun removed => ?_) (older.ne.2 level)
              rcases List.mem_cons.mp removed with rfl | inRest
              · exact notAfter member
              · exact runFresh other older (List.mem_singleton.mp inRest)
            refine inductionHypothesis failed ?_
              (rest.imp fun other member _ block => block.congr (kept other member))
              (.merge full sort sort' merged) ?_ ?_ ?_ distinctAfter ?_ ?_
            · intro higher le
              refine (unused higher (Nat.le_of_succ_le le)).trans (follows.unused _ ?_)
              intro same
              cases same
              exact absurd le (Nat.not_succ_le_self _)
            · rw [List.length_append, betweenLength, length, Nat.two_mul]
            · simp only [List.length_append, List.length_cons, pow_succ, betweenLength] at room
              have twice : 2 * size * 2 ^ slots.length = size * (2 ^ slots.length * 2) := by ring
              omega
            · exact fun other member => named other (List.mem_cons_of_mem _ member)
            · exact .inr ⟨level, Nat.lt_succ_self _, rfl⟩
            · intro slots' world'' filled' width named' distinct' follows' advances'
              have ownWritten : ∀ other, other = ⟨session.dir, .carry ordinal level⟩ →
                  CarryFile session.dir ordinal other := by
                rintro _ rfl
                exact ⟨level, rfl⟩
              have done := carried (none :: slots') world'' ?_ ?_ named' distinct' ?_ ?_
              · simpa using done
              · rw [List.append_assoc]
                exact filled'
              · rw [List.length_cons, List.length_cons, width]
              · exact (follows.mono (fun _ _ => trivial) ownWritten).trans follows'
              · have whole := (advances.mono ownWritten (List.Subset.refl _)
                  (List.Subset.refl _)).trans advances' fun other member =>
                    .inl (List.mem_cons.mpr (.inl (List.mem_singleton.mp member)))
                refine whole.mono (fun _ => id) ?_ (List.Subset.refl _)
                intro other member
                have inputs : other = run ∨ other = path ∨ other ∈ slots.filterMap id := by
                  simpa using member
                simp only [List.mem_append, List.mem_cons]
                tauto

omit [LinearOrder Key] [Layout Key Value] in
/-- The session a successful spill leaves, with `spills` as its new frontier. -/
def SortSession.spilled (session : SortSession Key Value) (spills : List (Option ScratchPath)) :
    SortSession Key Value :=
  { session with
    failed := false, nextRun := session.nextRun + 1, buffer := [], bufferCapacity := 0
    bufferCharge := none, bufferBytes := 0, cleanup := session.cleanup.arm session.dir, spills }

/-- A spill turns the buffer into one more chunk of the frontier. -/
theorem wp_spill {chunks : List (Chunk Key Value)} {chunk : Chunk Key Value}
    {ok : Unit → SortSession Key Value → World → Prop}
    (tolerates : ∀ session, session.failed = true → Tolerates codec initial issue err session)
    (replaces : ∀ session, session.failed = true → Replaces codec issue session)
    (unused : ∀ path, SpillFile session.dir session.nextRun path → initial.Unused world path)
    (frontier : session.Frontier codec world chunks) (nonempty : session.buffer ≠ [])
    (sort : StableSortOf Record.key chunk
      ((SortSession.sortBuffer session.buffer).map RunRow.record))
    (spilled : ∀ spills world', (session.spilled spills).Frontier codec world' (chunks ++ [chunk]) →
      world.Advances (SpillFile session.dir session.nextRun) (session.spills.filterMap id)
        (spills.filterMap id) world' →
      ok () (session.spilled spills) world') :
    SortSession.spill.wp (sessionSemantics codec) issue ok err session world := by
  have target : ∀ path ∈ session.spills.filterMap id, path ≠ ⟨session.dir, .run session.nextRun⟩ :=
    fun path member => (frontier.named path member).ne.1
  unfold SortSession.spill
  refine Method.wp_bind.mpr (Method.wp_get.mpr (Method.wp_ite.mpr ⟨?_, fun _ => ?_⟩))
  · intro empty
    exact absurd (List.isEmpty_iff.mp empty) nonempty
  refine Method.wp_bind.mpr (Method.wp_modify.mpr ?_)
  refine Method.wp_bind.mpr (Method.wp_get.mpr ?_)
  refine Method.wp_bind.mpr (wp_orError_of ((tolerates _ rfl).err _ _) ?_)
  intro nextRun nextRunEq
  rcases checkedAdd_eq_some.mp nextRunEq with ⟨fits, rfl⟩
  have bounded : session.nextRun + 1 ≤ u64Max := fits
  refine Method.wp_bind.mpr (Method.wp_modify.mpr ?_)
  refine Method.wp_bind.mpr (Method.wp_modify.mpr ?_)
  refine Method.wp_bind.mpr (Method.wp_modify.mpr ?_)
  refine Method.wp_bind.mpr (Method.wp_get.mpr ?_)
  refine Method.wp_bind.mpr (wp_perform (.ensureDir session.dir) (tolerates _ rfl)
    (fun _ => trivial) ?_)
  intro _ fs completes
  have reads := World.reads_of_completes completes (fun _ => not_false) (fun _ => rfl)
  refine Method.wp_bind.mpr (RunWriter.wp_create (tolerates _ rfl)
    ((unused _ (.inl rfl)).trans (reads.unused _ not_false)) ?_)
  rintro writer created samePath holds follows
  rw [reads.appended _ not_false, frontier.unwritten _ (Nat.le_refl _)] at holds
  refine Method.wp_bind.mpr (wp_writeRows (tolerates _ rfl) holds ?_)
  intro writer' written samePath' holds' follows'
  refine Method.wp_bind.mpr (RunWriter.wp_finish (tolerates _ rfl) holds' ?_)
  rw [samePath', samePath]
  intro finished run follows'' sameAppended
  refine Method.wp_bind.mpr (Method.wp_modify.mpr (Method.wp_bind.mpr (Method.wp_get.mpr ?_)))
  rw [samePath] at follows'
  -- up to here only the new run was written
  have alone : world.Follows (fun _ => False) (· = ⟨session.dir, .run session.nextRun⟩) finished :=
    (World.Follows.of_reads reads).trans (follows.trans (follows'.trans follows''))
  have kept := frontier.slots.imp fun path member _ (block : HoldsBlock codec _ path _) =>
    block.congr (alone.files path not_false (target path member))
  have full : (SortSession.sortBuffer session.buffer).map RunRow.record ≠ [] := by
    have permuted : (SortSession.sortBuffer session.buffer).Perm session.buffer :=
      List.perm_insertionSort SortSession.RowLe session.buffer
    exact fun empty => nonempty (List.nil_perm.mp (List.map_eq_nil_iff.mp empty ▸ permuted))
  refine wp_carry (fun session => tolerates session) (fun session => replaces session) rfl ?_ kept
    ⟨_, full, run, ?_⟩ (List.length_singleton (a := chunk)) ?_ frontier.named
      frontier.distinct (.inl rfl) ?_
  · intro higher _
    refine (unused _ (.inr ⟨higher, rfl⟩)).trans (alone.unused _ ?_)
    intro same
    cases same
  · simpa using sort
  · rw [frontier.width, ← frontier.count]
    unfold u64Max at bounded
    unfold frontierSlots
    omega
  · intro spills last filled width named distinct carries advances
    refine spilled spills last
      ⟨filled, width.trans frontier.width, ?_, named, distinct, ?_, ?_⟩ ?_
    · simp [SortSession.spilled, frontier.count]
    · intro n chunk' found
      have unappended : last.appended ⟨session.dir, .run n⟩ =
          finished.appended ⟨session.dir, .run n⟩ :=
        carries.appended _ (by rintro ⟨level, same⟩; cases same)
      rcases Nat.lt_or_ge n chunks.length with less | ge
      · rw [List.getElem?_append_left less] at found
        rcases frontier.original n chunk' found with ⟨sorted, sort', frames⟩
        refine ⟨sorted, sort', ?_⟩
        change Frames codec sorted (last.appended ⟨session.dir, .run n⟩)
        rw [unappended, alone.appended _ fun same => ?_]
        · exact frames
        · cases same
          exact absurd less (frontier.count ▸ Nat.lt_irrefl _)
      · rcases holds'.frames with ⟨bytes, -, appended, frames⟩
        rw [samePath', samePath] at appended
        rw [List.getElem?_append_right ge] at found
        have last_ : n = session.nextRun ∧ chunk' = chunk := by
          rw [List.getElem?_singleton] at found
          split at found
          · rw [frontier.count]
            exact ⟨by omega, (Option.some.inj found).symm⟩
          · cases found
        rcases last_ with ⟨rfl, rfl⟩
        refine ⟨_, sort, ?_⟩
        change Frames codec _ (last.appended ⟨session.dir, .run session.nextRun⟩)
        rw [unappended, sameAppended, appended]
        exact frames
    · intro n ge
      have later : session.nextRun + 1 ≤ n := ge
      have unappended := frontier.unwritten n (by omega)
      rw [← alone.appended _ fun same => ?_, ← carries.appended _ ?_] at unappended
      · exact unappended
      · rintro ⟨level, same⟩
        cases same
      · cases same
        omega
    · have first : world.Advances (SpillFile session.dir session.nextRun) []
          [⟨session.dir, .run session.nextRun⟩] finished := by
        refine (alone.advances (fun path same => List.mem_singleton.mpr same) ?_).mono
          (fun _ same => .inl same) (List.Subset.refl _) (List.Subset.refl _)
        simp
      have second : finished.Advances (SpillFile session.dir session.nextRun) _
          (spills.filterMap id) last :=
        advances.mono (fun _ wrote => .inr wrote) (List.Subset.refl _) (List.Subset.refl _)
      refine (first.trans second ?_).mono (fun _ => id) (List.subset_cons_self ..)
        (List.Subset.refl _)
      exact fun path member => .inl (List.mem_cons.mpr (.inl (List.mem_singleton.mp member)))

end SortGovernor.Engine
