import SortGovernor.Engine.Execute
import SortGovernor.Engine.Faultless
import SortGovernor.Engine.HeapHeads
import SortGovernor.Sorting.Interleave

/-!
# A merge from its opening to its end

Opening a merge and pulling its rows one after another gives an interleaving of
the runs, for sorted runs the stable one, and with `dedup` the first row of each
key.  No history of calls, failed and dropped ones included, makes it panic, and
where no request fails no call does.
-/

namespace SortGovernor.Engine

open SortGovernor.Resumption SortGovernor.Sorting SortGovernor.Bytes

variable {Key Value State : Type} {codec : Codec Key Value}

namespace MergeState

theorem Corresponds.push {merge : MergeState Key Value} (corresponds : merge.Corresponds)
    (source : MergeSource Key Value) {heap : List (HeapEntry Key)}
    (pushed : heap = (source.head.toList.map fun head => ⟨head.key, merge.sources.length⟩) ++
      merge.heap) :
    Corresponds { merge with heap, sources := merge.sources ++ [source] } := by
  intro idx
  have outside : merge.headKeys merge.sources.length = [] := by
    simp [headKeys]
  have earlier := corresponds idx
  by_cases own : idx = merge.sources.length
  · subst own
    rw [outside, entryKeys, List.map_eq_nil_iff] at earlier
    cases first : source.head with
    | none => simp [entryKeys, headKeys, pushed, first, earlier]
    | some head => simp [entryKeys, headKeys, pushed, first, earlier]
  · have heads : headKeys { merge with heap, sources := merge.sources ++ [source] } idx =
        merge.headKeys idx := by
      simp only [headKeys]
      by_cases inside : idx < merge.sources.length
      · rw [List.getElem?_append_left inside]
      · rw [List.getElem?_eq_none (by simp; omega), List.getElem?_eq_none (by omega)]
    rw [heads, ← earlier, entryKeys, entryKeys, pushed]
    cases first : source.head with
    | none => rfl
    | some head => simp [Ne.symm own]

variable [Layout Key Value] {state : State} {world : World}

/-- Whatever the files hold, an opened merge has one entry for each head. -/
theorem wp_open_corresponds (paths : List ScratchPath) (dedup : Bool) (io : ScopeId) :
    (MergeState.open paths dedup io : Async Key Value State (MergeState Key Value)).wp
      (sessionSemantics codec) AnyRequest
        (fun merge _ _ => merge.Corresponds) Reports state world := by
  have sources : ∀ (paths : List ScratchPath) (merge : MergeState Key Value) (world : World),
      merge.Corresponds →
      (openSources io paths merge : Async Key Value State (MergeState Key Value)).wp
        (sessionSemantics codec) AnyRequest
          (fun merge _ _ => merge.Corresponds) Reports state world := by
    intro paths
    induction paths with
    | nil => exact fun merge world corresponds => corresponds
    | cons path paths inductionHypothesis =>
        intro merge world corresponds
        unfold openSources MergeSource.open RunReader.open
        refine Method.wp_bind.mpr (Method.wp_bind.mpr (Method.wp_bind.mpr (wp_perform_of _
          (fun _ => trivial) (fun _ => trivial) (fun error _ => ⟨error, rfl⟩) ?_)))
        intro remaining fs _
        refine Method.wp_bind.mpr (Method.wp_call.mpr ?_)
        refine RunReader.wp_nextRow_counted (fun _ _ _ => trivial)
          (fun error _ _ => ⟨error, rfl⟩) ?_ ?_
        · exact inductionHypothesis merge _ corresponds
        · intro head reader world' _
          refine Method.wp_bind.mpr ?_
          unfold pushSource
          refine Method.wp_bind.mpr (wp_reserve trivial (fun error => ⟨error, rfl⟩) ?_)
          exact inductionHypothesis _ _ (corresponds.push _ rfl)
  unfold MergeState.open MergeState.new
  simp only [bind_assoc, pure_bind]
  refine Method.wp_bind.mpr (wp_orError_of ⟨_, rfl⟩ fun _ _ => ?_)
  refine Method.wp_bind.mpr (wp_orError_of ⟨_, rfl⟩ fun _ _ => ?_)
  refine Method.wp_bind.mpr (wp_orError_of ⟨_, rfl⟩ fun _ _ => ?_)
  refine Method.wp_bind.mpr (wp_reserve trivial (fun error => ⟨error, rfl⟩) ?_)
  exact sources paths _ _ fun _ => rfl

variable [LinearOrder Key]

/-- The states of a merge after calls of `next_row`, whatever became of them and
of the files in between. -/
inductive Visits (codec : Codec Key Value) (merge : MergeState Key Value) :
    MergeState Key Value → Prop where
  | start : Visits codec merge merge
  | returned {merge' outcome merge'' world world'} : Visits codec merge merge' →
      Runs (sessionSemantics codec) (nextRow merge') world (.returned (outcome, merge'')) world' →
      Visits codec merge merge''
  | dropped {merge' merge'' world world'} : Visits codec merge merge' →
      Runs (sessionSemantics codec) (nextRow merge') world (.dropped merge'') world' →
      Visits codec merge merge''

/-- No call from this state panics or runs forever. -/
def Safe (codec : Codec Key Value) (merge : MergeState Key Value) : Prop :=
  ∀ world abort merge' world', Runs (sessionSemantics codec) (nextRow merge) world
    (.returned (.error abort, merge')) world' → ∃ error, abort = .error error

theorem Sound.orderly_nextRow {merge : MergeState Key Value} (sound : merge.Sound) (world : World) :
    Orderly codec List.Sublist nextRow (fun _ merge' _ => merge'.Sound) merge world :=
  MergeState.orderly_nextRow (fun _ _ => id) List.Sublist.refl sound

theorem Sound.safe {merge : MergeState Key Value} (sound : merge.Sound) : merge.Safe codec :=
  fun world _ _ _ run => (Method.wp_returned (sound.orderly_nextRow world) run).1

omit [LinearOrder Key] in
theorem succeeds_open (fits : Layout.Fits Key Value) {paths : List ScratchPath}
    (sized : Sized Key Value paths.length) {dedup : Bool} {io : ScopeId} {state' : State}
    {last : World} (addressable : world.Addressable)
    {outcome : Except Abort (MergeState Key Value)}
    (run : Runs (faultless codec) (MergeState.open paths dedup io state) world
      (.returned (outcome, state')) last) : ∃ merge, outcome = .ok merge := by
  apply (faultless_open fits sized dedup io).succeeds ?_ addressable run
  rintro abort rfl
  exact Method.wp_returned (wp_open_corresponds paths dedup io) run.of_restrict

/-- What a call from this state returns if no request of it fails. -/
def Returns (codec : Codec Key Value) (merge : MergeState Key Value) (world : World)
    (expected : Option (Record Key Value)) : Prop :=
  ∀ outcome merge' last,
    Runs (faultless codec) (nextRow merge) world (.returned (outcome, merge')) last →
      ∃ item, outcome = .ok item ∧ item.map RunRow.record = expected

theorem Sound.succeeds {merge merge' : MergeState Key Value} (sound : merge.Sound)
    (fits : Layout.Fits Key Value) {world last : World} (addressable : world.Addressable)
    {outcome : Except Abort (Option (RunRow Key Value))}
    (run : Runs (faultless codec) (nextRow merge) world (.returned (outcome, merge')) last) :
    ∃ item, outcome = .ok item := by
  apply (faultless_nextRow fits).succeeds ?_ addressable run
  rintro abort rfl
  exact sound.safe world abort merge' last run.of_restrict

theorem Visits.sound {merge merge' : MergeState Key Value} (visits : Visits codec merge merge')
    (sound : merge.Sound) : merge'.Sound := by
  induction visits with
  | start => exact sound
  | @returned merge' outcome merge'' world world' _ run inductionHypothesis =>
      have reached := Method.wp_returned (inductionHypothesis.orderly_nextRow world) run
      cases outcome with
      | ok row => exact reached
      | error abort => exact reached.2
  | @dropped merge' merge'' world world' _ run inductionHypothesis =>
      obtain ⟨op, middle, ⟨still, -⟩, -⟩ :=
        Method.wp_dropped (inductionHypothesis.orderly_nextRow world) run
      exact still

omit [Layout Key Value] [LinearOrder Key] in
theorem Corresponds.sound {merge : MergeState Key Value} (corresponds : merge.Corresponds) :
    merge.Sound :=
  fun idx => corresponds idx ▸ List.Sublist.refl _

theorem Corresponds.orderly_nextRow {merge : MergeState Key Value} (corresponds : merge.Corresponds)
    (world : World) :
    Orderly codec Eq nextRow (fun _ merge' _ => merge'.Corresponds) merge world :=
  MergeState.orderly_nextRow (fun _ _ same => same ▸ List.Sublist.refl _) (fun _ => rfl) corresponds

/-- Successive calls of `next_row` that all succeed, with what they returned.
In between anything may happen to files that are not merged here. -/
inductive Pulls (codec : Codec Key Value) (paths : List ScratchPath) (merge : MergeState Key Value)
    (world : World) :
    List (Option (RunRow Key Value)) → MergeState Key Value → World → Prop where
  | start : Pulls codec paths merge world [] merge world
  | elsewhere {pulled merge' world'} (world'' : World) :
      Pulls codec paths merge world pulled merge' world' →
      (∀ path ∈ paths, world''.fs.files path = world'.fs.files path) →
      Pulls codec paths merge world pulled merge' world''
  | next {pulled merge' world' item merge'' world''} :
      Pulls codec paths merge world pulled merge' world' →
      Runs (sessionSemantics codec) (nextRow merge') world'
        (.returned (.ok item, merge'')) world'' →
      Pulls codec paths merge world (pulled ++ [item]) merge'' world''

theorem Pulls.corresponds {paths : List ScratchPath} {merge merge' : MergeState Key Value}
    {world world' : World} {pulled : List (Option (RunRow Key Value))}
    (pulls : Pulls codec paths merge world pulled merge' world') (corresponds : merge.Corresponds) :
    merge'.Corresponds := by
  induction pulls with
  | start => exact corresponds
  | elsewhere _ _ _ inductionHypothesis => exact inductionHypothesis
  | @next pulled merge' world' item merge'' world'' _ run inductionHypothesis =>
      exact Method.wp_returned (inductionHypothesis.orderly_nextRow world') run

/-- What is pulled from a merge are the rows it emits, one after another. -/
theorem Pulls.emits {paths : List ScratchPath} {merge merge' : MergeState Key Value}
    {world world' : World} {pulled : List (Option (RunRow Key Value))}
    {files : Contents} {rows : List (Record Key Value)}
    (pulls : Pulls codec paths merge world pulled merge' world')
    (visible : world.Shows (files.only paths)) (emits : merge.Emits codec (files.only paths) rows) :
    world'.Shows (files.only paths) ∧
      merge'.Emits codec (files.only paths) (rows.drop pulled.length) ∧
      ∀ (i : Nat) (item : Option (RunRow Key Value)), pulled[i]? = some item →
        item.map RunRow.record = rows[i]? := by
  induction pulls with
  | start => exact ⟨visible, emits, nofun⟩
  | @elsewhere pulled merge' world' world'' _ same inductionHypothesis =>
      obtain ⟨visible', rest⟩ := inductionHypothesis
      refine ⟨fun path bytes content => ?_, rest⟩
      have merged : path ∈ paths := by
        by_contra other
        rw [Contents.only, if_neg other] at content
        cases content
      rw [same path merged]
      exact visible' path bytes content
  | @next pulled merge' world' item merge'' world'' _ run inductionHypothesis =>
      obtain ⟨visible', emits', before⟩ := inductionHypothesis
      have reached : world''.Shows (files.only paths) ∧
          item.map RunRow.record = rows[pulled.length]? ∧
          merge''.Emits codec (files.only paths) (rows.drop (pulled.length + 1)) := by
        have call : nextRow.wp (sessionSemantics codec) AnyRequest (fun item merge'' world'' =>
            world''.Shows (files.only paths) ∧ item.map RunRow.record = rows[pulled.length]? ∧
              merge''.Emits codec (files.only paths) (rows.drop (pulled.length + 1)))
            Reports merge' world' := by
          have tolerates : ∀ merge : MergeState Key Value,
              Tolerates codec world' AnyRequest Reports merge := tolerates_reports
          apply wp_nextRow tolerates visible' emits'
          · intro last world'' ended emits'' reads
            refine ⟨visible'.after_reads reads, ?_, ?_⟩
            · rw [List.getElem?_eq_none (List.drop_eq_nil_iff.mp ended)]
              rfl
            · rwa [← List.tail_drop, ended]
          · intro row rest next world'' split emits'' _ reads
            refine ⟨visible'.after_reads reads, ?_, ?_⟩
            · rw [← List.head?_drop, split]
              rfl
            · rwa [← List.tail_drop, split]
        exact Method.wp_returned call run
      refine ⟨reached.1, ?_, ?_⟩
      · rw [List.length_append, List.length_singleton]
        exact reached.2.2
      · intro i item' found
        rw [List.getElem?_append] at found
        split at found
        · exact before i item' found
        · have last : i = pulled.length := by
            have inside := (List.getElem?_eq_some_iff.mp found).1
            rw [List.length_singleton] at inside
            omega
          subst last
          rw [Nat.sub_self] at found
          cases found
          exact reached.2.1

/-- Call `next_row` so many times under a policy. -/
def pullAll (pure : PureCodec Key Value) : Nat → MergeState Key Value → World →
    Option (List (Option (RunRow Key Value)) × MergeState Key Value × World)
  | 0, merge, world => some ([], merge, world)
  | calls + 1, merge, world =>
      match nextRow.follow pure.policy merge world with
      | some ((.ok item, merge), world) =>
          (pullAll pure calls merge world).map fun (items, last) => (item :: items, last)
      | _ => none

theorem pulls_of_pullAll {pure : PureCodec Key Value} {paths : List ScratchPath} {calls : Nat}
    {merge merge' merge'' : MergeState Key Value} {world world' world'' : World}
    {before items : List (Option (RunRow Key Value))}
    (earlier : Pulls pure.codec paths merge world before merge' world')
    (pulled : pullAll pure calls merge' world' = some (items, merge'', world'')) :
    Pulls pure.codec paths merge world (before ++ items) merge'' world'' := by
  induction calls generalizing before merge' world' items with
  | zero =>
      cases pulled
      rwa [List.append_nil]
  | succ calls inductionHypothesis =>
      unfold pullAll at pulled
      split at pulled
      · rename_i item merge₁ world₁ followed
        obtain ⟨⟨rest, last⟩, pulled', same⟩ := Option.map_eq_some_iff.mp pulled
        cases same
        have run := Program.runs_of_follow pure.policy_allowed followed
        have more := inductionHypothesis (.next earlier run) pulled'
        rwa [List.append_assoc] at more
      · cases pulled

end MergeState

variable [Layout Key Value] [LinearOrder Key]

open MergeState

/-- Opening runs of any content and calling `next_row` as long as it succeeds
gives their merge, and a call succeeds when every request of it does. -/
theorem k_way_merge {paths : List ScratchPath} {runs : List (List (Record Key Value))}
    {dedup : Bool} {io : ScopeId} {state : State} {world : World}
    (files : List.Forall₂ (RunFile codec world.fs.files) paths runs) :
    (Layout.Fits Key Value → Sized Key Value paths.length → world.Addressable →
      ∀ outcome state' last,
        Runs (faultless codec) (MergeState.open paths dedup io state) world
          (.returned (outcome, state')) last →
        ∃ merge, outcome = .ok merge) ∧
    ∀ merge state' world',
      Runs (sessionSemantics codec) (MergeState.open paths dedup io state) world
        (.returned (.ok merge, state')) world' →
      ∃ output rows, Interleaves runs output ∧ (dedup = false → rows = output) ∧
        ((∀ run ∈ runs, run.Pairwise fun a b => Record.key a ≤ Record.key b) →
          StableSortOf Record.key runs.flatten output ∧
            (dedup = true → FirstOfGroups Record.key output rows)) ∧
        (∀ pulled merge' world'', Pulls codec paths merge world' pulled merge' world'' →
          (∀ (i : Nat) (item : Option (RunRow Key Value)), pulled[i]? = some item →
            item.map RunRow.record = rows[i]?) ∧
          (Layout.Fits Key Value → world''.Addressable →
            merge'.Returns codec world'' rows[pulled.length]?) ∧
          merge'.Corresponds ∧
          ∀ paused op last,
            Pauses (sessionSemantics codec) (MergeState.nextRow merge') world'' paused op last →
            op.awaits = true → paused.Corresponds) ∧
        ∀ merge', Visits codec merge merge' → merge'.Safe codec := by
  refine ⟨fun fits sized addressable outcome state' last run =>
    succeeds_open fits sized addressable run, ?_⟩
  intro merge state' world' opened
  obtain ⟨output, merges⟩ := exists_mergesTo Record.key runs
  have corresponds : merge.Corresponds :=
    Method.wp_returned (wp_open_corresponds paths dedup io) opened
  have emits : world'.Shows (Contents.only paths world.fs.files) ∧
      merge.Emits codec (Contents.only paths world.fs.files)
        (if dedup then collapse Record.key none output else output) := by
    have call : (MergeState.open paths dedup io : Async Key Value State _).wp
        (sessionSemantics codec) AnyRequest (fun merge _ world' =>
          world'.Shows (Contents.only paths world.fs.files) ∧
            merge.Emits codec (Contents.only paths world.fs.files)
              (if dedup then collapse Record.key none output else output))
        Reports state world := by
      have tolerates : Tolerates codec world AnyRequest Reports state := tolerates_reports state
      apply wp_open_pends tolerates (fun _ _ _ _ _ => trivial) (world.shows_only paths)
        (RunFile.only files)
      intro merge world' pends sameDedup noLast reads
      refine ⟨(world.shows_only paths).after_reads reads, _, output, pends, ?_, ?_⟩
      · exact merges.of_filter (List.filter_filter.trans (by simp))
      · rw [sameDedup, noLast]
        rfl
    exact Method.wp_returned call opened
  refine ⟨output, if dedup then collapse Record.key none output else output, merges.interleaves, ?_,
    ?_, ?_, ?_⟩
  · intro plain
    rw [if_neg (by simp [plain])]
  · intro sorted
    have sort := merges.stableSortOf sorted
    refine ⟨sort, fun distinct => ?_⟩
    rw [if_pos distinct]
    exact FirstOfGroups.of_sort Record.key ⟨sort.sorted, fun _ => rfl⟩
  · intro pulled merge' world'' pulls
    have corresponds' := pulls.corresponds corresponds
    refine ⟨(pulls.emits emits.1 emits.2).2.2, ?_, corresponds', ?_⟩
    · intro fits addressable outcome merge'' last run
      obtain ⟨item, rfl⟩ := corresponds'.sound.succeeds fits addressable run
      have further := (pulls.next run.of_restrict).emits emits.1 emits.2
      exact ⟨item, rfl, further.2.2 pulled.length item (by simp)⟩
    · intro paused op last pauses awaits
      exact (Program.wp_pauses (corresponds'.orderly_nextRow world'') pauses).2 awaits
  · intro merge' visits
    exact (visits.sound corresponds.sound).safe

def byteRun (rows : List (Record Nat Nat)) : List UInt8 :=
  toLittleEndian 8 rows.length ++ rows.flatMap fun (key, value, ordinal) =>
    frameBytes 1 [.ofNat key, .ofNat value, .ofNat ordinal]

/-- The runs of the witnesses, numbered, and nothing else. -/
def World.holding (runs : List (List (Record Nat Nat))) : World where
  fs :=
    { dirs := fun _ => true
      files := fun path => match path.file with
        | .run ordinal => runs[ordinal]?.map byteRun
        | _ => none }
  log := []

theorem frames_byteRun {rows : List (Record Nat Nat)}
    (small : ∀ row ∈ rows, row.1 < 256 ∧ row.2.1 < 256 ∧ row.2.2 < 256) :
    Frames byteRows.codec rows (rows.flatMap fun (key, value, ordinal) =>
      frameBytes 1 [.ofNat key, .ofNat value, .ofNat ordinal]) := by
  induction rows with
  | nil => exact .nil
  | cons row rows inductionHypothesis =>
      obtain ⟨bytes, others⟩ := List.forall_mem_cons.mp small
      obtain ⟨key, value, ordinal⟩ := row
      rw [List.flatMap_cons]
      refine .cons ?_ (Nat.le_of_ble_eq_true rfl) (inductionHypothesis others)
      refine ⟨⟨key, value, ordinal, 1, none⟩, byteRows.encode
        ⟨key, value, ordinal, 1, none⟩, rfl, ?_⟩
      simp [byteRows, Serialization.bytes, RunRow.record, bytes]

/-- The paths of the runs that such a world holds. -/
def runPaths (runs : List (List (Record Nat Nat))) : List ScratchPath :=
  (List.range runs.length).map fun ordinal => ⟨0, .run ordinal⟩

theorem runFiles_holding {runs : List (List (Record Nat Nat))}
    (short : ∀ rows ∈ runs, rows.length ≤ u64Max)
    (small : ∀ rows ∈ runs, ∀ row ∈ rows, row.1 < 256 ∧ row.2.1 < 256 ∧ row.2.2 < 256) :
    List.Forall₂ (RunFile byteRows.codec (World.holding runs).fs.files) (runPaths runs) runs := by
  refine List.forall₂_iff_get.mpr ⟨by simp [runPaths], ?_⟩
  intro ordinal _ inside
  have member : runs.get ⟨ordinal, inside⟩ ∈ runs := List.get_mem ..
  refine ⟨short _ member, _, ?_, frames_byteRun (small _ member)⟩
  simp [World.holding, runPaths, inside, byteRun]

def mergeAndPull (state : State) (runs : List (List (Record Nat Nat))) (dedup : Bool)
    (calls : Nat) : Option (List (Option (Record Nat Nat))) :=
  match (MergeState.open (runPaths runs) dedup 0 : Async Nat Nat State _).follow byteRows.policy
      state (.holding runs) with
  | some ((.ok merge, _), world) =>
      (pullAll byteRows calls merge world).map fun (items, _) =>
        items.map (Option.map RunRow.record)
  | _ => none

omit [Layout Key Value] [LinearOrder Key] in
theorem exists_pulls {state : State} {runs : List (List (Record Nat Nat))} {dedup : Bool}
    {calls : Nat} {records : List (Option (Record Nat Nat))}
    (pulled : mergeAndPull state runs dedup calls = some records) :
    ∃ merge state' world items merge' world',
      Runs (sessionSemantics byteRows.codec)
        ((MergeState.open (runPaths runs) dedup 0 : Async Nat Nat State _) state) (.holding runs)
        (.returned (.ok merge, state')) world ∧
      Pulls byteRows.codec (runPaths runs) merge world items merge' world' ∧
      items.map (Option.map RunRow.record) = records := by
  unfold mergeAndPull at pulled
  split at pulled
  · rename_i merge state' world followed
    obtain ⟨⟨items, merge', world'⟩, calls', same⟩ := Option.map_eq_some_iff.mp pulled
    exact ⟨merge, state', world, items, merge', world',
      Program.runs_of_follow byteRows.policy_allowed followed, pulls_of_pullAll .start calls', same⟩
  · cases pulled

omit [Layout Key Value] [LinearOrder Key] in
theorem rows_eq_of_pulled {items : List (Option (RunRow Key Value))}
    {rows records : List (Record Key Value)}
    (gives : ∀ (i : Nat) (item : Option (RunRow Key Value)), items[i]? = some item →
      item.map RunRow.record = rows[i]?)
    (pulled : items.map (Option.map RunRow.record) = records.map some ++ [none]) :
      rows = records := by
  have given : ∀ i ≤ records.length, rows[i]? = records[i]? := by
    intro i short
    have length := congrArg List.length pulled
    simp only [List.length_map, List.length_append, List.length_singleton] at length
    have inside : i < items.length := by omega
    have found := congrArg (fun list => list[i]?) pulled
    simp only [List.getElem?_map, List.getElem?_eq_getElem inside, Option.map_some] at found
    rw [← gives i _ (List.getElem?_eq_getElem inside)]
    obtain before | rfl := Nat.lt_or_eq_of_le short
    · rw [List.getElem?_append_left (by simpa using before), List.getElem?_map] at found
      rw [List.getElem?_eq_getElem before] at found ⊢
      exact Option.some.inj found
    · rw [List.getElem?_append_right (by simp), List.length_map, Nat.sub_self] at found
      rw [List.getElem?_eq_none (Nat.le_refl _)]
      exact Option.some.inj found
  have ends := given records.length (Nat.le_refl _)
  rw [List.getElem?_eq_none (Nat.le_refl _), List.getElem?_eq_none_iff] at ends
  refine List.ext_getElem? fun i => ?_
  by_cases inside : i ≤ records.length
  · exact given i inside
  · rw [List.getElem?_eq_none (by omega), List.getElem?_eq_none (by omega)]

/-- Three runs, one of them empty, that share a key. -/
def threeRuns : List (List (Record Nat Nat)) := [[(1, 7, 0), (3, 8, 1)], [], [(1, 9, 2)]]

/-- Pulled to the end, a merge of the three gives all their rows, and with `dedup`
the first row of each key. -/
theorem k_way_merge_three :
    (∃ merge world items merge' world',
      Runs (sessionSemantics byteRows.codec)
        ((MergeState.open (runPaths threeRuns) false 0 : Async Nat Nat Unit _) ())
        (.holding threeRuns) (.returned (.ok merge, ())) world ∧
      Pulls byteRows.codec (runPaths threeRuns) merge world items merge' world' ∧
      items.map (Option.map RunRow.record) =
        [some (1, 7, 0), some (1, 9, 2), some (3, 8, 1), none] ∧
      StableSortOf Record.key threeRuns.flatten [(1, 7, 0), (1, 9, 2), (3, 8, 1)]) ∧
    ∃ merge world items merge' world' output,
      Runs (sessionSemantics byteRows.codec)
        ((MergeState.open (runPaths threeRuns) true 0 : Async Nat Nat Unit _) ())
        (.holding threeRuns) (.returned (.ok merge, ())) world ∧
      Pulls byteRows.codec (runPaths threeRuns) merge world items merge' world' ∧
      items.map (Option.map RunRow.record) = [some (1, 7, 0), some (3, 8, 1), none] ∧
      StableSortOf Record.key threeRuns.flatten output ∧
      FirstOfGroups Record.key output [(1, 7, 0), (3, 8, 1)] := by
  have files := @runFiles_holding threeRuns (by decide) (by decide)
  have plain : mergeAndPull () threeRuns false 4 =
      some [some (1, 7, 0), some (1, 9, 2), some (3, 8, 1), none] := by
    decide +kernel
  have distinct : mergeAndPull () threeRuns true 3 =
      some [some (1, 7, 0), some (3, 8, 1), none] := by
    decide +kernel
  constructor
  · obtain ⟨merge, _, world, items, merge', world', opened, pulls, records⟩ := exists_pulls plain
    obtain ⟨output, rows, -, whole, sorts, gives, -⟩ := (k_way_merge files).2 _ _ _ opened
    have all : rows = [(1, 7, 0), (1, 9, 2), (3, 8, 1)] :=
      rows_eq_of_pulled (gives items merge' world' pulls).1 records
    refine ⟨merge, world, items, merge', world', opened, pulls, records, ?_⟩
    rw [← all, whole rfl]
    exact (sorts (by decide)).1
  · obtain ⟨merge, _, world, items, merge', world', opened, pulls, records⟩ := exists_pulls distinct
    obtain ⟨output, rows, -, -, sorts, gives, -⟩ := (k_way_merge files).2 _ _ _ opened
    have first : rows = [(1, 7, 0), (3, 8, 1)] :=
      rows_eq_of_pulled (gives items merge' world' pulls).1 records
    refine ⟨merge, world, items, merge', world', output, opened, pulls, records, ?_⟩
    rw [← first]
    exact ⟨(sorts (by decide)).1, (sorts (by decide)).2 rfl⟩

end SortGovernor.Engine
