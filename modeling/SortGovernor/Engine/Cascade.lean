import SortGovernor.Engine.MergeFiles
import Mathlib.Data.List.Perm.Subperm
import Mathlib.Data.Nat.Log

/-!
# The cascade

The cascade groups neighbouring runs, so after any number of passes the
remaining runs still concatenate to the same rows key by key, in the same
order.  A pass writes a row at most once, and there are no more passes than the
number of runs has digits to the base of the fan-in.
-/

namespace SortGovernor.Engine

open SortGovernor.Resumption SortGovernor.Sorting

variable {Key Value State : Type} [LinearOrder Key] [Layout Key Value] {codec : Codec Key Value}
  {initial : World} {issue : State → Request Key Value → World → Prop}
  {err : Abort → State → World → Prop}
  {state : State} {world : World}

section Chunks

variable {Item : Type}

theorem flatten_chunks (size : Nat) (positive : 0 < size) (items : List Item) :
    (chunks size items).flatten = items := by
  have loop : ∀ fuel (items : List Item), items.length ≤ fuel →
      (chunks.go size fuel items).flatten = items := by
    intro fuel
    induction fuel with
    | zero =>
        intro items short
        rw [List.eq_nil_of_length_eq_zero (Nat.le_zero.mp short)]
        rfl
    | succ fuel inductionHypothesis =>
        intro items short
        cases items with
        | nil => rfl
        | cons item items =>
            have rest : ((item :: items).drop size).length ≤ fuel := by
              rw [List.length_drop]
              omega
            rw [chunks.go, List.flatten_cons, inductionHypothesis _ rest, List.take_append_drop]
            simp
  exact loop items.length items (Nat.le_refl _)

theorem length_chunks (size : Nat) (positive : 0 < size) (items : List Item) :
    (chunks size items).length = (items.length + size - 1) / size := by
  have loop : ∀ fuel (items : List Item), items.length ≤ fuel →
      (chunks.go size fuel items).length = (items.length + size - 1) / size := by
    intro fuel
    induction fuel with
    | zero =>
        intro items short
        rw [List.eq_nil_of_length_eq_zero (Nat.le_zero.mp short), List.length_nil, Nat.zero_add,
          Nat.div_eq_of_lt (Nat.sub_lt positive Nat.one_pos)]
        rfl
    | succ fuel inductionHypothesis =>
        intro items short
        cases items with
        | nil =>
            rw [List.length_nil, Nat.zero_add, Nat.div_eq_of_lt (Nat.sub_lt positive Nat.one_pos)]
            rfl
        | cons item items =>
            have rest : ((item :: items).drop size).length ≤ fuel := by
              rw [List.length_drop]
              omega
            rw [chunks.go, List.length_cons, inductionHypothesis _ rest, List.length_drop]
            · rw [← Nat.add_div_right _ positive]
              by_cases short : (item :: items).length ≤ size
              · rw [Nat.sub_eq_zero_of_le short, List.length_cons]
                simp only [List.length_cons] at short
                rw [show 0 + size - 1 + size = size - 1 + size by
                  omega, Nat.add_div_right _ positive,
                  Nat.div_eq_of_lt (by omega), show items.length + 1 + size - 1 = items.length +
                    size by omega,
                  Nat.add_div_right _ positive, Nat.div_eq_of_lt (by omega)]
              · congr 1
                omega
            · simp
  exact loop items.length items (Nat.le_refl _)

theorem length_chunks_lt (size : Nat) (size_ge : 2 ≤ size) (items : List Item)
    (more : size < items.length) : (chunks size items).length < items.length := by
  rw [length_chunks size (by omega), Nat.div_lt_iff_lt_mul (by omega)]
  have twice : items.length * 2 ≤ items.length * size := Nat.mul_le_mul_left _ size_ge
  omega

theorem length_le_of_mem_chunks {size : Nat} (items : List Item) :
    ∀ chunk ∈ chunks size items, chunk.length ≤ size := by
  have loop : ∀ fuel (items : List Item), ∀ chunk ∈ chunks.go size fuel items,
      chunk.length ≤ size := by
    intro fuel
    induction fuel with
    | zero => exact fun _ _ member => absurd member List.not_mem_nil
    | succ fuel inductionHypothesis =>
        intro items chunk member
        cases items with
        | nil => exact absurd member List.not_mem_nil
        | cons item items =>
            obtain rfl | member := List.mem_cons.mp member
            · exact (List.length_take_le ..)
            · exact inductionHypothesis _ chunk member
  exact loop items.length items

theorem ne_nil_of_mem_chunks {size : Nat} (positive : 0 < size) (items : List Item) :
    ∀ chunk ∈ chunks size items, chunk ≠ [] := by
  have loop : ∀ fuel (items : List Item), ∀ chunk ∈ chunks.go size fuel items, chunk ≠ [] := by
    intro fuel
    induction fuel with
    | zero => exact fun _ _ member => absurd member List.not_mem_nil
    | succ fuel inductionHypothesis =>
        intro items chunk member
        cases items with
        | nil => exact absurd member List.not_mem_nil
        | cons item items =>
            obtain rfl | member := List.mem_cons.mp member
            · simp [positive.ne']
            · exact inductionHypothesis _ chunk member
  exact loop items.length items

end Chunks

/-- Finished runs `lists` at `paths`, each sorted, and not empty where `full`. -/
structure SortedRuns (codec : Codec Key Value) (full : Prop) (files : Contents)
    (lists : List (List (Record Key Value))) (paths : List ScratchPath) : Prop where
  each : List.Forall₂ (RunFile codec files) paths lists
  sorted : ∀ run ∈ lists, run.Pairwise fun a b => Record.key a ≤ Record.key b
  nonempty : full → ∀ run ∈ lists, run ≠ []

namespace SortedRuns

omit [Layout Key Value]

variable {full : Prop} {files files' : Contents} {lists lists' : List (List (Record Key Value))}
  {paths paths' : List ScratchPath}

theorem split (runs : SortedRuns codec full files lists (paths ++ paths')) :
    ∃ first rest, lists = first ++ rest ∧ SortedRuns codec full files first paths ∧
      SortedRuns codec full files rest paths' := by
  obtain ⟨each, sorted, nonempty⟩ := runs
  have flipped : List.Forall₂ (flip (RunFile codec files)) lists (paths ++ paths') := each.flip
  have left := (List.forall₂_take_append lists paths paths' flipped).flip
  have right := (List.forall₂_drop_append lists paths paths' flipped).flip
  refine ⟨lists.take paths.length, lists.drop paths.length, (List.take_append_drop ..).symm,
    ⟨left, ?_, ?_⟩, ⟨right, ?_, ?_⟩⟩
  · exact fun run member => sorted run (List.mem_of_mem_take member)
  · exact fun isFull run member => nonempty isFull run (List.mem_of_mem_take member)
  · exact fun run member => sorted run (List.mem_of_mem_drop member)
  · exact fun isFull run member => nonempty isFull run (List.mem_of_mem_drop member)

theorem cons {path : ScratchPath} {rows : List (Record Key Value)}
    (run : RunFile codec files path rows)
    (sorted : rows.Pairwise fun a b => Record.key a ≤ Record.key b)
    (nonempty : full → rows ≠ []) (runs : SortedRuns codec full files lists paths) :
    SortedRuns codec full files (rows :: lists) (path :: paths) :=
  ⟨.cons run runs.each, List.forall_mem_cons.mpr ⟨sorted, runs.sorted⟩,
    fun isFull => List.forall_mem_cons.mpr ⟨nonempty isFull, runs.nonempty isFull⟩⟩

theorem transport (runs : SortedRuns codec full files lists paths)
    (same : ∀ path ∈ paths, files' path = files path) :
      SortedRuns codec full files' lists paths := by
  obtain ⟨each, sorted, nonempty⟩ := runs
  refine ⟨?_, sorted, nonempty⟩
  clear sorted nonempty
  induction each with
  | nil => exact .nil
  | cons run _ inductionHypothesis =>
      obtain ⟨bounded, bytes, content, frames⟩ := run
      refine .cons ⟨bounded, bytes, ?_, frames⟩
        (inductionHypothesis fun path member => same path (List.mem_cons_of_mem _ member))
      rw [same _ (List.mem_cons_self ..), content]

theorem flatten_ne_nil (runs : SortedRuns codec full files lists paths) (some : paths ≠ [])
    (isFull : full) : lists.flatten ≠ [] := by
  obtain ⟨each, -, nonempty⟩ := runs
  cases each with
  | nil => exact absurd rfl some
  | cons _ _ =>
      have first := nonempty isFull _ (List.mem_cons_self ..)
      exact fun empty => first (List.append_eq_nil_iff.mp empty).1

end SortedRuns

/-- The files at `paths` are finished sorted runs, none empty, that concatenate to
`input`, as far as the order of rows with one key goes. -/
def RunsOf (codec : Codec Key Value) (files : Contents) (input : List (Record Key Value))
    (paths : List ScratchPath) : Prop :=
  ∃ runs, List.Forall₂ (RunFile codec files) paths runs ∧
    (∀ run ∈ runs, run ≠ [] ∧ run.Pairwise fun a b => Record.key a ≤ Record.key b) ∧
    ∀ k, group Record.key k runs.flatten = group Record.key k input

namespace RunsOf

omit [Layout Key Value]

variable {files files' : Contents} {input input' : List (Record Key Value)}
  {paths paths' : List ScratchPath}

theorem nil : RunsOf codec files [] [] :=
  ⟨[], .nil, fun _ member => absurd member List.not_mem_nil, fun _ => rfl⟩

theorem append (left : RunsOf codec files input paths)
    (right : RunsOf codec files input' paths') :
    RunsOf codec files (input ++ input') (paths ++ paths') := by
  rcases left with ⟨runs, each, sorted, same⟩
  rcases right with ⟨runs', each', sorted', same'⟩
  refine ⟨runs ++ runs', List.rel_append each each', ?_, ?_⟩
  · intro run member
    rcases List.mem_append.mp member with inFirst | inSecond
    · exact sorted run inFirst
    · exact sorted' run inSecond
  · intro k
    rw [List.flatten_append, group_append, group_append, same, same']

theorem split (whole : RunsOf codec files input (paths ++ paths')) :
    ∃ first second, RunsOf codec files first paths ∧ RunsOf codec files second paths' ∧
      ∀ k, group Record.key k (first ++ second) = group Record.key k input := by
  rcases whole with ⟨runs, each, sorted, same⟩
  have flipped : List.Forall₂ (flip (RunFile codec files)) runs (paths ++ paths') := each.flip
  have left := (List.forall₂_take_append runs paths paths' flipped).flip
  have right := (List.forall₂_drop_append runs paths paths' flipped).flip
  refine ⟨_, _, ⟨runs.take paths.length, left, ?_, fun _ => rfl⟩,
    ⟨runs.drop paths.length, right, ?_, fun _ => rfl⟩, ?_⟩
  · exact fun run member => sorted run (List.mem_of_mem_take member)
  · exact fun run member => sorted run (List.mem_of_mem_drop member)
  · intro k
    rw [← List.flatten_append, List.take_append_drop, same]

theorem congr (runs : RunsOf codec files input paths)
    (same : ∀ k, group Record.key k input = group Record.key k input') :
    RunsOf codec files input' paths := by
  rcases runs with ⟨runs, each, sorted, grouped⟩
  exact ⟨runs, each, sorted, fun k => (grouped k).trans (same k)⟩

theorem transport (runs : RunsOf codec files input paths)
    (same : ∀ path ∈ paths, files' path = files path) : RunsOf codec files' input paths := by
  rcases runs with ⟨runs, each, rest⟩
  refine ⟨runs, ?_, rest⟩
  clear rest
  induction each with
  | nil => exact .nil
  | cons run _ inductionHypothesis =>
      rcases run with ⟨bounded, bytes, content, frames⟩
      refine .cons ⟨bounded, bytes, ?_, frames⟩
        (inductionHypothesis fun path member => same path (List.mem_cons_of_mem _ member))
      rw [same _ (List.mem_cons_self ..), content]

theorem of_run {path : ScratchPath} {sorted : List (Record Key Value)}
    (full : sorted ≠ []) (run : RunFile codec files path sorted)
    (sort : StableSortOf Record.key input sorted) : RunsOf codec files input [path] := by
  refine ⟨[sorted], .cons run .nil, ?_, ?_⟩
  · intro run member
    rw [List.mem_singleton.mp member]
    exact ⟨full, sort.sorted⟩
  · intro k
    rw [List.flatten_singleton, sort.stable k]

end RunsOf

/-- A file a later pass or a later group of this pass writes. -/
def LaterMerge (dir : ScratchDir) (pass group : Nat) (path : ScratchPath) : Prop :=
  ∃ pass' group', path = { dir, file := .merge pass' group' } ∧
    (pass < pass' ∨ pass = pass' ∧ group ≤ group')

theorem LaterMerge.mono {dir : ScratchDir} {pass group group' : Nat} {path : ScratchPath}
    (later : LaterMerge dir pass group' path) (le : group ≤ group') :
    LaterMerge dir pass group path := by
  rcases later with ⟨pass', group'', rfl, order⟩
  exact ⟨pass', group'', rfl, by omega⟩

/-- A file group `number` or a later one of this pass writes. -/
def PassMerge (dir : ScratchDir) (pass number : Nat) (path : ScratchPath) : Prop :=
  ∃ number', number ≤ number' ∧ path = { dir, file := .merge pass number' }

theorem PassMerge.later {dir : ScratchDir} {pass number : Nat} {path : ScratchPath}
    (merge : PassMerge dir pass number path) : LaterMerge dir pass number path := by
  obtain ⟨number', le, rfl⟩ := merge
  exact ⟨pass, number', rfl, .inr ⟨rfl, le⟩⟩

theorem PassMerge.mono {dir : ScratchDir} {pass number number' : Nat} {path : ScratchPath}
    (merge : PassMerge dir pass number' path) (le : number ≤ number') :
    PassMerge dir pass number path := by
  obtain ⟨number'', le', rfl⟩ := merge
  exact ⟨number'', le.trans le', rfl⟩

/-- A file may be removed once another one is a finished run. -/
def Replaces (codec : Codec Key Value) (issue : State → Request Key Value → World → Prop)
    (state : State) : Prop :=
  ∀ path out world records, path ≠ out → RunFile codec world.fs.files out records →
    issue state (.direct (.removeIfExists path)) world

def OpensRuns (codec : Codec Key Value) (full : Prop)
    (issue : State → Request Key Value → World → Prop) (state : State) (io : ScopeId) : Prop :=
  ∀ lists paths world, SortedRuns codec full world.fs.files lists paths →
    Opens issue state io paths world

omit [Layout Key Value] in
theorem opensRuns_of_tolerates {io : ScopeId}
    (tolerates : Tolerates codec initial issue err state) :
    OpensRuns codec True issue state io :=
  fun _ _ world runs => opens_of_full tolerates world.shows_self runs.each (runs.nonempty trivial)

namespace World

/-- What was appended between two worlds: for each file of `written` the frames
of its rows, and nothing to other files. -/
structure Wrote (codec : Codec Key Value) (world world' : World)
    (written : List (ScratchPath × List (Record Key Value))) : Prop where
  distinct : (written.map Prod.fst).Nodup
  framed : ∀ file ∈ written, world.Framed codec world' file.1 file.2
  others : ∀ path ∉ written.map Prod.fst, world'.appended path = world.appended path

omit [LinearOrder Key] [Layout Key Value]

theorem Wrote.refl (world : World) : world.Wrote codec world [] :=
  ⟨List.nodup_nil, fun _ member => absurd member List.not_mem_nil, fun _ _ => rfl⟩

theorem Wrote.trans {first second third : World}
    {written written' : List (ScratchPath × List (Record Key Value))}
    (left : first.Wrote codec second written) (right : second.Wrote codec third written')
    (apart : ∀ path ∈ written.map Prod.fst, path ∉ written'.map Prod.fst) :
    first.Wrote codec third (written ++ written') := by
  constructor
  · rw [List.map_append]
    exact List.nodup_append.mpr ⟨left.distinct, right.distinct,
      fun path member path' member' same => apart path member (same ▸ member')⟩
  · intro file member
    obtain inFirst | inSecond := List.mem_append.mp member
    · obtain ⟨bytes, appended, frames⟩ := left.framed file inFirst
      refine ⟨bytes, ?_, frames⟩
      rw [right.others _ (apart _ (List.mem_map_of_mem inFirst)), appended]
    · obtain ⟨bytes, appended, frames⟩ := right.framed file inSecond
      refine ⟨bytes, ?_, frames⟩
      rw [appended, left.others]
      exact fun inFirst => apart _ inFirst (List.mem_map_of_mem inSecond)
  · intro path absent
    rw [List.map_append, List.mem_append, not_or] at absent
    rw [right.others path absent.2, left.others path absent.1]

end World

section Groups

variable {full : Prop}

/-- A group becomes one run over its rows, which is written at most once. -/
theorem wp_mergeGroup_of {dir : ScratchDir} {io : ScopeId} {pass number : Nat}
    {paths : List ScratchPath} {lists : List (List (Record Key Value))}
    {ok : ScratchPath → State → World → Prop} (tolerates : Tolerates codec initial issue err state)
    (replaces : Replaces codec issue state) (opens : OpensRuns codec full issue state io)
    (some : paths ≠ []) (runs : SortedRuns codec full world.fs.files lists paths)
    (fresh : ⟨dir, .merge pass number⟩ ∉ paths)
    (unused : initial.Unused world ⟨dir, .merge pass number⟩)
    (merged : ∀ path rows written world', RunFile codec world'.fs.files path rows →
      StableSortOf Record.key lists.flatten rows →
      (written = [] ∨ written = [(⟨dir, .merge pass number⟩, rows)]) →
      world.Wrote codec world' written →
      (path ∈ paths ∨ path = ⟨dir, .merge pass number⟩) →
      world.Advances (· = ⟨dir, .merge pass number⟩) paths [path] world' →
      world.Follows (· ∈ paths) (· = ⟨dir, .merge pass number⟩) world' → ok path state world') :
    (mergeGroup dir io pass number paths : Async Key Value State _).wp
        (sessionSemantics codec) issue ok err state world := by
  unfold mergeGroup
  split
  · obtain ⟨each, sorted, -⟩ := runs
    cases each with
    | cons run others =>
        cases others
        refine merged _ _ [] world run ⟨?_, ?_⟩ (.inl rfl) (World.Wrote.refl world)
          (.inl (List.mem_cons_self ..)) (World.Advances.refl world) (World.Follows.refl world)
        · exact sorted _ (List.mem_cons_self ..)
        · simp
  · refine wp_mergeGroupToFile tolerates (opens lists paths world runs) runs.each runs.sorted fresh
      unused ?_ ?_
    · intro path member world' records run
      refine replaces path _ world' records ?_ run
      rintro rfl
      exact fresh member
    · intro world' run framed advances follows
      refine merged _ _ _ world' run (reference_stable Record.key lists.flatten) (.inr rfl) ?_
        (.inr rfl) advances follows
      refine ⟨List.nodup_singleton _, ?_, ?_⟩
      · exact List.forall_mem_singleton.mpr framed
      · intro path absent
        exact follows.appended path fun same => absent (List.mem_singleton.mpr same)

/-- What a pass over the runs `lists` at `paths` leaves behind. -/
structure Passed (codec : Codec Key Value) (full : Prop) (dir : ScratchDir) (pass number : Nat)
    (paths : List ScratchPath) (lists : List (List (Record Key Value))) (world : World)
    (next : List ScratchPath) (lists' : List (List (Record Key Value)))
    (world' : World) : Prop where
  runs : SortedRuns codec full world'.fs.files lists' next
  same : ∀ k, group Record.key k lists'.flatten = group Record.key k lists.flatten
  distinct : next.Nodup
  named : ∀ path ∈ next, path ∈ paths ∨ PassMerge dir pass number path
  advances : world.Advances (PassMerge dir pass number) paths next world'
  follows : world.Follows (· ∈ paths) (PassMerge dir pass number) world'
  wrote : ∃ written, world.Wrote codec world' written ∧
    (∀ path ∈ written.map Prod.fst, PassMerge dir pass number path) ∧
    (written.flatMap Prod.snd).Subperm lists.flatten

theorem wp_mergeGroups_of {dir : ScratchDir} {io : ScopeId} {pass number : Nat}
    {groups : List (List ScratchPath)} {lists : List (List (Record Key Value))}
    {ok : List ScratchPath → State → World → Prop}
    (tolerates : Tolerates codec initial issue err state) (replaces : Replaces codec issue state)
    (opens : OpensRuns codec full issue state io)
    (some : ∀ paths ∈ groups, paths ≠ [])
    (runs : SortedRuns codec full world.fs.files lists groups.flatten)
    (distinct : groups.flatten.Nodup)
    (fresh : ∀ path ∈ groups.flatten, ¬LaterMerge dir pass number path)
    (unused : ∀ path, PassMerge dir pass number path → initial.Unused world path)
    (merged : ∀ next lists' world', next.length = groups.length →
      Passed codec full dir pass number groups.flatten lists world next lists' world' →
      ok next state world') :
    (mergeGroups dir io pass number groups : Async Key Value State _).wp
        (sessionSemantics codec) issue ok err state world := by
  induction groups generalizing number lists world ok with
  | nil =>
      refine merged [] lists world rfl ⟨runs, fun _ => rfl, List.nodup_nil, ?_,
        World.Advances.refl world,
        World.Follows.refl world, [], World.Wrote.refl world, ?_, ?_⟩
      · simp
      · simp
      · exact List.nil_subperm
  | cons paths groups inductionHypothesis =>
      rw [List.flatten_cons] at runs distinct fresh
      obtain ⟨first, rest, rfl, firstRuns, restRuns⟩ := runs.split
      obtain ⟨-, distinctRest, apart⟩ := List.nodup_append.mp distinct
      have own : PassMerge dir pass number ⟨dir, .merge pass number⟩ := ⟨number, Nat.le_refl _, rfl⟩
      have notLater : ¬LaterMerge dir pass (number + 1) ⟨dir, .merge pass number⟩ := by
        rintro ⟨pass', number', same, order⟩
        cases same
        omega
      obtain ⟨someFirst, some⟩ := List.forall_mem_cons.mp some
      refine Method.wp_bind.mpr
        (wp_mergeGroup_of tolerates replaces opens someFirst firstRuns ?_ (unused _ own) ?_)
      · exact fun member => fresh _ (List.mem_append_left _ member) own.later
      intro path rows written world' run sort one wrote named advances follows
      refine Method.wp_bind.mpr
        (inductionHypothesis some (restRuns.transport ?_) distinctRest ?_ ?_ ?_)
      · intro other member
        refine follows.files other (fun inPaths => apart other inPaths other member rfl) ?_
        exact fun equal => fresh other (List.mem_append_right _ member) (equal ▸ own.later)
      · intro other member later
        exact fresh other (List.mem_append_right _ member) (later.mono (Nat.le_succ number))
      · intro other merge
        refine (unused other (merge.mono (Nat.le_succ number))).trans (follows.unused other ?_)
        rintro rfl
        exact notLater merge.later
      · intro next lists' world'' length passed
        obtain ⟨written', wrote', ofPass, once⟩ := passed.wrote
        have notRest : path ∉ groups.flatten := by
          obtain inPaths | rfl := named
          · exact fun member => apart path inPaths path member rfl
          · exact fun member => fresh _ (List.mem_append_right _ member) own.later
        have unwritten : ¬PassMerge dir pass (number + 1) path := by
          obtain inPaths | rfl := named
          · exact fun merge =>
              fresh path (List.mem_append_left _ inPaths) (merge.mono (Nat.le_succ number)).later
          · exact fun merge => notLater merge.later
        have writtenOwn : ∀ other ∈ written.map Prod.fst, other = ⟨dir, .merge pass number⟩ := by
          obtain rfl | rfl := one
          · simp
          · simp
        have rowsOnce : (written.flatMap Prod.snd).Subperm first.flatten := by
          obtain rfl | rfl := one
          · exact List.nil_subperm
          · simpa using sort.perm.subperm
        refine merged (path :: next) (rows :: lists') world'' (by simp [length])
          ⟨.cons ?_ sort.sorted ?_ passed.runs, ?_, ?_, ?_, ?_, ?_, written ++ written', ?_, ?_, ?_⟩
        · obtain ⟨bounded, bytes, content, frames⟩ := run
          exact ⟨bounded, bytes, (passed.follows.files path notRest unwritten).trans
            content, frames⟩
        · exact fun isFull => sort.ne_nil (firstRuns.flatten_ne_nil someFirst isFull)
        · intro k
          rw [List.flatten_cons, group_append, List.flatten_append, group_append,
            sort.stable, passed.same]
        · refine List.nodup_cons.mpr ⟨fun member => ?_, passed.distinct⟩
          obtain inRest | merge := passed.named path member
          · exact notRest inRest
          · exact unwritten merge
        · intro other member
          rw [List.flatten_cons, List.mem_append]
          obtain rfl | inNext := List.mem_cons.mp member
          · obtain inPaths | rfl := named
            · exact .inl (.inl inPaths)
            · exact .inr own
          · obtain inRest | merge := passed.named other inNext
            · exact .inl (.inr inRest)
            · exact .inr (merge.mono (Nat.le_succ number))
        · have ownWritten : ∀ other, other = ⟨dir, .merge pass number⟩ →
              PassMerge dir pass number other := by
            rintro _ rfl
            exact own
          refine World.Advances.trans
            (advances.mono ownWritten (List.Subset.refl _) (List.Subset.refl _))
            (passed.advances.mono (fun other merge => merge.mono (Nat.le_succ number))
              (List.Subset.refl _) (List.subset_cons_self ..)) ?_
          exact fun other member => .inr (List.mem_cons.mpr (.inl (List.mem_singleton.mp member)))
        · refine (follows.mono ?_ ?_).trans (passed.follows.mono ?_ ?_)
          · exact fun other member => List.mem_append_left _ member
          · rintro _ rfl
            exact own
          · exact fun other member => List.mem_append_right _ member
          · exact fun other merge => merge.mono (Nat.le_succ number)
        · refine wrote.trans wrote' fun other member later => ?_
          have isOwn := writtenOwn other member
          subst isOwn
          exact notLater (ofPass _ later).later
        · intro other member
          rw [List.map_append] at member
          obtain inFirst | inRest := List.mem_append.mp member
          · exact writtenOwn other inFirst ▸ own
          · exact (ofPass other inRest).mono (Nat.le_succ number)
        · rw [List.flatMap_append, List.flatten_append]
          exact rowsOnce.append once

/-- The passes of a cascade over `rows`: each merges groups of at most `fanIn`
runs and writes each row at most once, and the last leaves at most `fanIn`. -/
inductive Passes (codec : Codec Key Value) (dir : ScratchDir) (io : ScopeId) (fanIn : Nat)
    (rows : List (Record Key Value)) (state : State) :
    Nat → Nat → List ScratchPath → World → List ScratchPath → World → Prop where
  | done {pass paths world} : paths.length ≤ fanIn →
      Passes codec dir io fanIn rows state pass 0 paths world paths world
  | pass {pass passes paths world next middle last world'} : fanIn < paths.length →
      (∀ group ∈ chunks fanIn paths, group.length ≤ fanIn) →
      Runs (sessionSemantics codec) (mergeGroups dir io pass 0 (chunks fanIn paths) state) world
        (.returned (.ok next, state)) middle →
      (∃ written, world.Wrote codec middle written ∧ (written.flatMap Prod.snd).Subperm rows) →
      Passes codec dir io fanIn rows state (pass + 1) passes next middle last world' →
      Passes codec dir io fanIn rows state pass (passes + 1) paths world last world'

theorem Passes.length_le {dir : ScratchDir} {io : ScopeId} {fanIn pass passes : Nat}
    {rows : List (Record Key Value)} {paths last : List ScratchPath} {world' : World}
    (cascade : Passes codec dir io fanIn rows state pass passes paths world last world') :
    last.length ≤ fanIn := by
  induction cascade with
  | done few => exact few
  | pass _ _ _ _ _ inductionHypothesis => exact inductionHypothesis

/-- The cascade leaves at most `fanIn` runs, over the same rows, in as many passes
as the number of runs has digits. -/
theorem wp_cascade_of {dir : ScratchDir} {io : ScopeId} {fanIn turns pass : Nat}
    {paths : List ScratchPath} {input : List (Record Key Value)}
    {lists : List (List (Record Key Value))}
    {ok : List ScratchPath → State → World → Prop}
    (tolerates : Tolerates codec initial issue err state) (replaces : Replaces codec issue state)
    (opens : OpensRuns codec full issue state io)
    (fanIn_ge : 2 ≤ fanIn) (enough : paths.length < turns)
    (runs : SortedRuns codec full world.fs.files lists paths)
    (same : ∀ k, group Record.key k lists.flatten = group Record.key k input)
    (distinct : paths.Nodup) (fresh : ∀ path ∈ paths, ¬LaterMerge dir pass 0 path)
    (unused : ∀ path, LaterMerge dir pass 0 path → initial.Unused world path)
    (merged : ∀ next lists' passes world', SortedRuns codec full world'.fs.files lists' next →
      (∀ k, group Record.key k lists'.flatten = group Record.key k input) →
      Passes codec dir io fanIn input state pass passes paths world next world' →
      passes ≤ Nat.clog fanIn paths.length → ok next state world') :
    (cascade dir io fanIn turns pass paths : Async Key Value State _).wp
        (sessionSemantics codec) issue ok err state world := by
  induction turns generalizing pass paths lists world ok with
  | zero => omega
  | succ turns inductionHypothesis =>
      unfold cascade
      refine Method.wp_ite.mpr ⟨fun more => ?_, fun few => ?_⟩
      · have positive : 0 < fanIn := by omega
        have whole := flatten_chunks fanIn positive paths
        have fewer := length_chunks_lt fanIn fanIn_ge paths more
        have step : (mergeGroups dir io pass 0 (chunks fanIn paths) : Async Key Value State _).wp
            (sessionSemantics codec) issue (fun next state' world' => state' = state ∧
              next.length = (chunks fanIn paths).length ∧
              ∃ lists', Passed codec full dir pass 0 paths lists world next lists' world')
            err state world := by
          apply wp_mergeGroups_of tolerates replaces opens (ne_nil_of_mem_chunks positive paths)
            (whole.symm ▸ runs) (whole.symm ▸ distinct) (whole.symm ▸ fresh)
          · exact fun path merge => unused path merge.later
          · exact fun next lists' world' length passed => ⟨rfl, length, lists', whole ▸ passed⟩
        refine Method.wp_bind.mpr (Method.wp_mono (Method.wp_runs step) (fun _ _ _ => id) ?_
          fun _ _ _ => id)
        rintro next _ world' ⟨⟨rfl, length, lists', passed⟩, run⟩
        have notPass : ∀ path, LaterMerge dir (pass + 1) 0 path → ¬PassMerge dir pass 0 path := by
          rintro path ⟨pass', number', same, order⟩ ⟨number, -, rfl⟩
          cases same
          omega
        have later : ∀ path, LaterMerge dir (pass + 1) 0 path → LaterMerge dir pass 0 path := by
          rintro path ⟨pass', number', same, order⟩
          exact ⟨pass', number', same, by omega⟩
        have grouped : ∀ k, group Record.key k lists'.flatten = group Record.key k input :=
          fun k => (passed.same k).trans (same k)
        refine inductionHypothesis (by omega) passed.runs grouped passed.distinct ?_ ?_ ?_
        · intro path member merge
          obtain inPaths | own := passed.named path member
          · exact fresh path inPaths (later path merge)
          · exact notPass path merge own
        · intro path merge
          exact (unused path (later path merge)).trans
            (passed.follows.unused path (notPass path merge))
        · intro last lists'' passes world'' runs' same' passes' bound
          refine merged last lists'' (passes + 1) world'' runs' same'
            (.pass more (length_le_of_mem_chunks paths) run ?_ passes') ?_
          · obtain ⟨written, wrote, -, once⟩ := passed.wrote
            have permutation := perm_of_group_eq Record.key same
            exact ⟨written, wrote, once.trans permutation.subperm⟩
          · rw [length, length_chunks fanIn positive] at bound
            rw [Nat.clog_of_two_le (by omega) (by omega)]
            exact Nat.succ_le_succ bound
      · exact merged paths lists 0 world runs same (.done (Nat.le_of_not_lt few)) (Nat.zero_le _)

end Groups

omit [Layout Key Value] in
theorem RunsOf.iff {files : Contents} {input : List (Record Key Value)} {paths : List ScratchPath} :
    RunsOf codec files input paths ↔ ∃ lists, SortedRuns codec True files lists paths ∧
      ∀ k, group Record.key k lists.flatten = group Record.key k input := by
  constructor
  · rintro ⟨lists, each, both, same⟩
    exact ⟨lists,
      ⟨each, fun run member => (both run member).2, fun _ run member => (both run member).1⟩, same⟩
  · rintro ⟨lists, ⟨each, sorted, nonempty⟩, same⟩
    exact ⟨lists, each, fun run member => ⟨nonempty trivial run member, sorted run member⟩, same⟩

theorem wp_mergeGroup {dir : ScratchDir} {io : ScopeId} {pass number : Nat}
    {paths : List ScratchPath} {input : List (Record Key Value)}
    {ok : ScratchPath → State → World → Prop} (tolerates : Tolerates codec initial issue err state)
    (replaces : Replaces codec issue state) (some : paths ≠ [])
    (runs : RunsOf codec world.fs.files input paths) (fresh : ⟨dir, .merge pass number⟩ ∉ paths)
    (unused : initial.Unused world ⟨dir, .merge pass number⟩)
    (merged : ∀ path world', RunsOf codec world'.fs.files input [path] →
      (path ∈ paths ∨ path = ⟨dir, .merge pass number⟩) →
      world.Advances (· = ⟨dir, .merge pass number⟩) paths [path] world' →
      world.Follows (· ∈ paths) (· = ⟨dir, .merge pass number⟩) world' → ok path state world') :
    (mergeGroup dir io pass number paths : Async Key Value State _).wp
        (sessionSemantics codec) issue ok err state world := by
  obtain ⟨lists, sorted, same⟩ := RunsOf.iff.mp runs
  refine wp_mergeGroup_of tolerates replaces (opensRuns_of_tolerates tolerates) some sorted fresh
    unused ?_
  intro path rows written world' run sort _ _ named advances follows
  have full := sort.ne_nil (sorted.flatten_ne_nil some trivial)
  exact merged path world' ((RunsOf.of_run full run sort).congr same) named advances follows

theorem wp_cascade {dir : ScratchDir} {io : ScopeId} {fanIn turns pass : Nat}
    {paths : List ScratchPath} {input : List (Record Key Value)}
    {ok : List ScratchPath → State → World → Prop}
    (tolerates : Tolerates codec initial issue err state) (replaces : Replaces codec issue state)
    (fanIn_ge : 2 ≤ fanIn) (enough : paths.length < turns)
    (runs : RunsOf codec world.fs.files input paths) (distinct : paths.Nodup)
    (fresh : ∀ path ∈ paths, ¬LaterMerge dir pass 0 path)
    (unused : ∀ path, LaterMerge dir pass 0 path → initial.Unused world path)
    (merged : ∀ next world', RunsOf codec world'.fs.files input next → ok next state world') :
    (cascade dir io fanIn turns pass paths : Async Key Value State _).wp
        (sessionSemantics codec) issue ok err state world := by
  obtain ⟨lists, sorted, same⟩ := RunsOf.iff.mp runs
  refine wp_cascade_of tolerates replaces (opensRuns_of_tolerates tolerates) fanIn_ge enough sorted
    same distinct fresh unused ?_
  intro next lists' passes world' sorted' same' _ _
  exact merged next world' (RunsOf.iff.mpr ⟨lists', sorted', same'⟩)

end SortGovernor.Engine
