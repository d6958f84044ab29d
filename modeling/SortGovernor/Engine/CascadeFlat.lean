import SortGovernor.Engine.MergeOutput
import SortGovernor.Engine.Output

/-!
# The cascade and one flat merge

Folding sorted runs down to the fan-in and streaming the last merge gives the
rows that one merge over all the runs would give, in as many passes as the
number of runs has digits to the base of the fan-in.
-/

namespace SortGovernor.Engine

open SortGovernor.Resumption SortGovernor.Sorting MergeState

variable {Key Value : Type} [LinearOrder Key] [Layout Key Value] {codec : Codec Key Value}
  {dedup : Bool} {world world' : World}

theorem emits_of_open {State : Type} {state state' : State} {io : ScopeId}
    {paths : List ScratchPath}
    {runs : List (List (Record Key Value))} {merge : MergeState Key Value}
    (files : List.Forall₂ (RunFile codec world.fs.files) paths runs)
    (sorted : ∀ run ∈ runs, run.Pairwise fun a b => Record.key a ≤ Record.key b)
    (opened : Runs (sessionSemantics codec) (MergeState.open paths dedup io state) world
      (.returned (.ok merge, state')) world') :
    world'.Shows (Contents.only paths world.fs.files) ∧
      merge.Emits codec (Contents.only paths world.fs.files)
        (reference Record.key dedup runs.flatten) := by
  have call : (MergeState.open paths dedup io : Async Key Value State _).wp
      (sessionSemantics codec) AnyRequest (fun merge _ world' =>
        world'.Shows (Contents.only paths world.fs.files) ∧
          merge.Emits codec (Contents.only paths world.fs.files)
            (reference Record.key dedup runs.flatten))
      Reports state world := by
    have tolerates : Tolerates codec world AnyRequest Reports state := tolerates_reports state
    apply wp_open tolerates (fun _ _ _ _ _ => trivial) (world.shows_only paths)
      (RunFile.only files) sorted
    exact fun merge world' emits _ reads => ⟨(world.shows_only paths).after_reads reads, emits⟩
  exact Method.wp_returned call opened

/-- A stream of a cascade: the passes before it, and the merge it drives over the
sorted runs they left, which hold the rows of `input`. -/
def Streams (codec : Codec Key Value) (dir : ScratchDir) (fanIn : Nat) (dedup : Bool)
    (hold : Option Resource) (input : List (Record Key Value)) (paths : List ScratchPath)
    (guard : AsyncCleanupGuard) (world : World) (stream : ValueStream Key Value) (world' : World) :
    Prop :=
  ∃ passes last middle merge lists,
    Passes codec dir guard.scope fanIn input guard 0 passes paths world last middle ∧
    passes ≤ Nat.clog fanIn paths.length ∧
    SortedRuns codec False middle.fs.files lists last ∧
    (∀ k, group Record.key k lists.flatten = group Record.key k input) ∧
    Runs (sessionSemantics codec) (MergeState.open last dedup guard.scope guard) middle
      (.returned (.ok merge, guard)) world' ∧
    stream = valueStream merge guard hold

theorem wp_cascadeAndStream {fanIn : Nat} {paths : List ScratchPath} {dir : ScratchDir}
    (dedup : Bool)
    (hold : Option Resource) (guard : AsyncCleanupGuard) {runs : List (List (Record Key Value))}
    (fanIn_ge : 2 ≤ fanIn) (files : SortedRuns codec False world.fs.files runs paths)
    (distinct : paths.Nodup) (fresh : ∀ path ∈ paths, ¬LaterMerge dir 0 0 path) :
    (cascadeAndStream paths fanIn dir dedup hold).wp (sessionSemantics codec) AnyRequest
      (fun stream _ world' =>
        Streams codec dir fanIn dedup hold runs.flatten paths guard world stream world')
      Reports guard world := by
  have tolerates : Tolerates codec world AnyRequest Reports guard := tolerates_reports guard
  unfold cascadeAndStream
  refine Method.wp_bind.mpr (Method.wp_get.mpr (Method.wp_bind.mpr (wp_cascade_of tolerates
    (replaces_anyRequest guard) (fun _ _ _ _ _ _ _ _ _ => trivial) fanIn_ge
    (Nat.lt_succ_self _) files
    (fun _ => rfl) distinct fresh (fun _ _ => ⟨id, id⟩) ?_)))
  intro last lists passes middle left same taken bound
  have opens : (MergeState.open last dedup guard.scope : Async Key Value AsyncCleanupGuard _).wp
      (sessionSemantics codec) AnyRequest (fun _ guard' _ => guard' = guard) Reports guard middle :=
    wp_open tolerates (fun _ _ _ _ _ => trivial) middle.shows_self left.each left.sorted
      fun _ _ _ _ _ => rfl
  refine Method.wp_bind.mpr (Method.wp_mono (Method.wp_runs opens) (fun _ _ _ => id) ?_
    fun _ _ _ => id)
  rintro merge _ world' ⟨rfl, opened⟩
  refine Method.wp_bind.mpr (Method.wp_get.mpr (Method.wp_bind.mpr (Method.wp_set.mpr ?_)))
  exact ⟨passes, last, middle, merge, lists, taken, bound, left, same, opened, rfl⟩

/-- The cascade of sorted runs streams what one merge over all of them gives. -/
theorem cascade_eq_flat_merge {fanIn : Nat} {paths : List ScratchPath} {dir : ScratchDir}
    {hold : Option Resource} {guard : AsyncCleanupGuard} {runs : List (List (Record Key Value))}
    (fanIn_ge : 2 ≤ fanIn) (files : List.Forall₂ (RunFile codec world.fs.files) paths runs)
    (sorted : ∀ run ∈ runs, run.Pairwise fun a b => Record.key a ≤ Record.key b)
    (distinct : paths.Nodup) (fresh : ∀ path ∈ paths, ∀ pass group, path ≠ ⟨dir, .merge pass group⟩)
    (equipped : guard.Equipped) :
    (∀ abort guard' last, Runs (sessionSemantics codec)
        (cascadeAndStream paths fanIn dir dedup hold guard) world
        (.returned (.error abort, guard')) last → ∃ error, abort = .error error) ∧
    ∃ rows : List (Record Key Value),
      (∀ io flat guard' middle, Runs (sessionSemantics codec)
          (MergeState.open paths dedup io guard) world (.returned (.ok flat, guard')) middle →
        ∀ pulled flat' last, Pulls codec paths flat middle pulled flat' last →
        ∀ (i : Nat) (item : Option (RunRow Key Value)), pulled[i]? = some item →
          item.map RunRow.record = rows[i]?) ∧
      ∀ stream guard' world', Runs (sessionSemantics codec)
          (cascadeAndStream paths fanIn dir dedup hold guard) world
          (.returned (.ok stream, guard')) world' →
        ∃ passes last middle merge,
          Passes codec dir guard.scope fanIn runs.flatten guard 0 passes paths world last middle ∧
          passes ≤ Nat.clog fanIn paths.length ∧ last.length ≤ fanIn ∧
          Runs (sessionSemantics codec) (MergeState.open last dedup guard.scope guard) middle
            (.returned (.ok merge, guard)) world' ∧
          stream = valueStream merge guard hold ∧
          (∀ pulled merge' world'', Pulls codec last merge world' pulled merge' world'' →
            ∀ (i : Nat) (item : Option (RunRow Key Value)), pulled[i]? = some item →
              item.map RunRow.record = rows[i]?) ∧
          ∀ (items : List (Except SorterError Value)) stream' world'',
            Polls codec stream world' items stream' world'' →
            (∀ (i : Nat) (value : Value), items[i]? = some (.ok value) →
              rows[i]?.map (fun row => row.2.1) = some value) ∧
            (Ends codec stream' world'' → (∀ item ∈ items, ∃ value, item = .ok value) →
              items.length = rows.length) := by
  have fresh' : ∀ path ∈ paths, ¬LaterMerge dir 0 0 path := by
    rintro path member ⟨pass, number, same, -⟩
    exact fresh path member pass number same
  have cascades := wp_cascadeAndStream dedup hold guard fanIn_ge
    ⟨files, sorted, False.elim⟩ distinct fresh'
  refine ⟨fun abort guard' last run => Method.wp_returned cascades run,
    reference Record.key dedup runs.flatten, ?_, ?_⟩
  · intro io flat guard' middle opened pulled flat' last pulls
    obtain ⟨visible, emits⟩ := emits_of_open files sorted opened
    exact (pulls.emits visible emits).2.2
  · intro stream guard' world' run
    obtain ⟨passes, last, middle, merge, lists, taken, bound, left, same, opened, rfl⟩ :=
      Method.wp_returned cascades run
    obtain ⟨visible, emits⟩ := emits_of_open left.each left.sorted opened
    rw [reference_congr _ same] at emits
    refine ⟨passes, last, middle, merge, taken, bound, taken.length_le, opened, rfl, ?_, ?_⟩
    · exact fun pulled merge' world'' pulls => (pulls.emits visible emits).2.2
    · intro items stream' world'' polls
      have live : (valueStream merge guard hold).Live codec world'
          (reference Record.key dedup runs.flatten) := ⟨equipped, _, visible, emits⟩
      obtain ⟨before, rest, errors, split, given, stands⟩ := polls.stands live
      rw [split]
      constructor
      · intro i value found
        rw [given, List.getElem?_append] at found
        split at found
        · rename_i inside
          rw [List.length_map] at inside
          rw [List.getElem?_map] at found
          rw [List.getElem?_append_left inside]
          obtain ⟨row, isRow, same⟩ := Option.map_eq_some_iff.mp found
          rw [isRow, Option.map_some, Except.ok.inj same]
        · rw [List.getElem?_map] at found
          obtain ⟨error, -, same⟩ := Option.map_eq_some_iff.mp found
          cases same
      · rintro ⟨final, world₃, ended⟩ clean
        have noErrors : errors = [] := by
          cases errors with
          | nil => rfl
          | cons error errors =>
              obtain ⟨value, same⟩ := clean (.error error) (by simp [given])
              cases same
        have all := Method.wp_returned stands.wp_next ended noErrors
        rw [given, noErrors, all]
        simp

def cascadeAndPoll (runs : List (List (Record Nat Nat))) (fanIn : Nat) (dedup : Bool) :
    Option (List (Except SorterError Nat)) :=
  match (cascadeAndStream (runPaths runs) fanIn 0 dedup none : Async Nat Nat _ _).follow
      byteRows.policy (.disarmed 0) (.holding runs) with
  | some ((.ok stream, _), world) => pollAll byteRows.policy (runs.flatten.length + 1) stream world
  | _ => none

theorem exists_of_cascadeAndPoll {runs : List (List (Record Nat Nat))} {fanIn : Nat}
    {items : List (Except SorterError Nat)}
    (polled : cascadeAndPoll runs fanIn dedup = some items) :
    ∃ stream guard world stream' world',
      Runs (sessionSemantics byteRows.codec)
        ((cascadeAndStream (runPaths runs) fanIn 0 dedup none : Async Nat Nat _ _) (.disarmed 0))
        (.holding runs) (.returned (.ok stream, guard)) world ∧
      Polls byteRows.codec stream world items stream' world' ∧
      Ends byteRows.codec stream' world' := by
  unfold cascadeAndPoll at polled
  split at polled
  · rename_i stream guard world followed
    obtain ⟨stream', world', polls, ends⟩ := polls_of_pollAll byteRows.policy_allowed .none polled
    exact ⟨stream, guard, world, stream', world',
      Program.runs_of_follow byteRows.policy_allowed followed, polls, ends⟩
  · cases polled

/-- Three runs and a fan-in of two take a pass before the final merge; polled to its
end, the stream has given the values of the rows that one merge of the three gives. -/
theorem cascade_eq_flat_merge_three :
    ∃ stream guard world stream' world' passes last middle,
      Runs (sessionSemantics byteRows.codec)
        (cascadeAndStream (runPaths threeRuns) 2 0 true none (.disarmed 0)) (.holding threeRuns)
        (.returned (.ok stream, guard)) world ∧
      Passes byteRows.codec 0 0 2 threeRuns.flatten (AsyncCleanupGuard.disarmed 0) 0 passes
        (runPaths threeRuns) (.holding threeRuns) last middle ∧
      passes ≤ Nat.clog 2 3 ∧ last.length ≤ 2 ∧
      Polls byteRows.codec stream world [.ok 7, .ok 8] stream' world' ∧
      Ends byteRows.codec stream' world' ∧
      ∃ rows : List (Record Nat Nat), rows = [(1, 7, 0), (3, 8, 1)] ∧
        ∀ (i : Nat) (value : Nat), ([.ok 7, .ok 8] : List (Except SorterError Nat))[i]? =
          some (.ok value) → rows[i]?.map (fun row => row.2.1) = some value := by
  have files := @runFiles_holding threeRuns (by decide) (by decide)
  have polled : cascadeAndPoll threeRuns 2 true = some [.ok 7, .ok 8] := by
    decide +kernel
  have pulled : mergeAndPull (AsyncCleanupGuard.disarmed 0) threeRuns true 3 =
      some [some (1, 7, 0), some (3, 8, 1), none] := by
    decide +kernel
  obtain ⟨stream, guard, world, stream', world', run, polls, ends⟩ :=
    exists_of_cascadeAndPoll polled
  obtain ⟨flat, _, _, items, flat', last', opened, pulls, records⟩ := exists_pulls pulled
  have merged : ∀ path ∈ runPaths threeRuns, ∀ pass group, path ≠ ⟨0, .merge pass group⟩ := by
    simp [runPaths]
  obtain ⟨-, rows, flatRows, each⟩ := @cascade_eq_flat_merge _ _ _ _ byteRows.codec true _ 2 _ 0
    none (.disarmed 0) _ (Nat.le_refl 2) files (by decide) (by decide) merged
    fun armed => absurd rfl armed
  have first : rows = [(1, 7, 0), (3, 8, 1)] :=
    rows_eq_of_pulled (flatRows 0 flat _ _ opened items flat' last' pulls) records
  obtain ⟨passes, last, middle, merge, taken, bound, few, -, -, -, gives⟩ :=
    each stream guard world run
  exact ⟨stream, guard, world, stream', world', passes, last, middle, run, taken, bound, few,
    polls, ends, rows, first, (gives _ _ _ polls).1⟩

end SortGovernor.Engine
