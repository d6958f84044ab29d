import SortGovernor.Engine.Execute
import SortGovernor.Engine.FileNames
import SortGovernor.Engine.OnlyReads

/-!
# The files in the scratch directory

Between two pushes the directory of a session holds the runs of its frontier,
and between two groups of the cascade the runs still to merge, each finished
under a name of its own.  A file is only created under a new name, only opened
once it is finished, and only removed while the run that replaces it is there.
-/

namespace SortGovernor.Engine

open SortGovernor.Resumption SortGovernor.Sorting

variable {Key Value State : Type} [LinearOrder Key] [Layout Key Value]

def leftBy {Result : Type} :
    Outcome (SortSession Key Value) (Except Abort Result × SortSession Key Value) →
      SortSession Key Value
  | .returned (_, session) => session
  | .dropped session => session

/-- The sessions reachable by pushes, however they end, from the files `fs`. -/
inductive ReachesFrom (codec : Codec Key Value) (dedup : Bool) (fs : Fs) :
    SortSession Key Value → World → Prop where
  | new (plan : SortPlan) (dir : ScratchDir) (scope : ScopeId) (hold : Option Resource) :
      ReachesFrom codec dedup fs (.new plan dir dedup scope hold) { fs, log := [] }
  | push {session world outcome world'} (key : Key) (value : Value) (bytes : UInt64) :
      ReachesFrom codec dedup fs session world →
      Runs (sessionSemantics codec) (SortSession.pushWithSize key value bytes session) world
        outcome world' →
      ReachesFrom codec dedup fs (leftBy outcome) world'

/-- The points of a cascade over `runs` between its groups: the pass, the number
of the next group, the runs of the next pass so far and the groups still to come. -/
inductive Cascades (State : Type) (codec : Codec Key Value) (dir : ScratchDir) (io : ScopeId)
    (fanIn : Nat) (runs : List ScratchPath) (world : World) :
    Nat → Nat → List ScratchPath → List (List ScratchPath) → World → Prop where
  | start : fanIn < runs.length →
      Cascades State codec dir io fanIn runs world 0 0 [] (chunks fanIn runs) world
  | group {pass number next paths groups world' path world''} (state state' : State) :
      Cascades State codec dir io fanIn runs world pass number next (paths :: groups) world' →
      Runs (sessionSemantics codec) (mergeGroup dir io pass number paths state) world'
        (.returned (.ok path, state')) world'' →
      Cascades State codec dir io fanIn runs world pass (number + 1) (next ++ [path]) groups world''
  | pass {pass number next world'} :
      Cascades State codec dir io fanIn runs world pass number next [] world' →
      fanIn < next.length →
      Cascades State codec dir io fanIn runs world (pass + 1) 0 [] (chunks fanIn next) world'

/-- `finish` spills what is still buffered before it merges. -/
def SortSession.flush : Async Key Value (SortSession Key Value) Unit := do
  (if (← get).buffer.isEmpty then pure () else SortSession.spill)

/-- The session `finish` merges: its buffer was sorted and, unless empty, spilled. -/
def SortSession.Flushes (codec : Codec Key Value) (session : SortSession Key Value) (world : World)
    (session' : SortSession Key Value) (world' : World) : Prop :=
  Runs (sessionSemantics codec)
    (SortSession.flush { session with buffer := SortSession.sortBuffer session.buffer }) world
    (.returned (.ok (), session')) world'

/-- The files of a directory are these, under distinct names and each a finished run. -/
structure HoldsExactly (codec : Codec Key Value) (dir : ScratchDir) (world : World)
    (paths : List ScratchPath) : Prop where
  distinct : (paths.map fun path => path.file.fileName).Nodup
  present : ∀ path, path.dir = dir → (world.fs.files path ≠ none ↔ path ∈ paths)
  finished : ∀ path ∈ paths, path.dir = dir ∧
    ∃ records, records ≠ [] ∧ RunFile codec world.fs.files path records

/-- A file is created under a new name, opened as a finished run, and removed
only while another file is a finished run. -/
def Request.Disciplined (codec : Codec Key Value) (dir : ScratchDir) :
    Request Key Value → World → Prop
  | .perform _ _ (.create path), world =>
      .create path ∉ world.log ∧ (path.dir = dir → world.fs.files path = none)
  | .perform _ _ (.readCount path), world =>
      ∃ records, records ≠ [] ∧ RunFile codec world.fs.files path records
  | .direct (.removeIfExists path), world =>
      ∃ out records, path ≠ out ∧ RunFile codec world.fs.files out records
  | _, _ => True

variable {codec : Codec Key Value} {dedup : Bool} {fs : Fs} {session : SortSession Key Value}
  {world : World}

def SortSession.Sound (codec : Codec Key Value) (dedup : Bool) (fs : Fs)
    (session : SortSession Key Value) (world : World) : Prop :=
  ∃ accepted, session.Usable codec dedup accepted world ∧ session.Tidy { fs, log := [] } world

def OwnDirectory (fs : Fs) (dir : ScratchDir) : Prop :=
  ∀ path : ScratchPath, path.dir = dir → fs.files path = none

omit [LinearOrder Key] [Layout Key Value] in
theorem disciplined_of_lawful {op : Request Key Value} {dir : ScratchDir}
    (own : OwnDirectory fs dir)
    (lawful : op.Lawful codec { fs, log := [] } world) : op.Disciplined codec dir world := by
  cases op with
  | perform io held job =>
      cases job with
      | create path =>
          constructor
          · exact fun created => absurd (lawful.created created) List.not_mem_nil
          · intro inside
            by_contra present
            exact lawful.present present (own path inside)
      | readCount path => exact lawful
      | _ => trivial
  | direct job =>
      cases job with
      | removeIfExists path => cases lawful
      | _ => trivial
  | _ => trivial

/-- What a call of a session may ask for. -/
def Orderly (codec : Codec Key Value) (fs : Fs) (op : Request Key Value) (world : World) : Prop :=
  ∀ dir, OwnDirectory fs dir → op.Disciplined codec dir world

omit [LinearOrder Key] [Layout Key Value] in
theorem orderly_of_not_awaits {op : Request Key Value} (quiet : op.awaits = false) :
    Orderly codec fs op world := by
  intro dir own
  cases op with
  | perform io held job => cases quiet
  | direct job => cases quiet
  | _ => trivial

theorem wp_pushWithSize_sound {key : Key} {value : Value} {bytes : UInt64}
    (sound : session.Sound codec dedup fs world) :
    (SortSession.pushWithSize key value bytes).wp (sessionSemantics codec)
      (fun session op world => SuspendsFailed session op world ∧ Orderly codec fs op world)
      (fun _ session world => session.Sound codec dedup fs world)
      (fun _ session world => session.failed = true ∨ session.Sound codec dedup fs world)
      session world := by
  obtain ⟨accepted, usable, tidy⟩ := sound
  refine Method.wp_post (wp_pushWithSize_tidy ?_ ?_ ?_ ?_ usable tidy) ?_ fun _ _ _ left => left
  · intro session op world quiet
    exact ⟨quiet_suspendsFailed session op world quiet, orderly_of_not_awaits quiet⟩
  · intro session failed
    exact ⟨fun op world lawful => ⟨fun _ => failed,
      fun dir own => disciplined_of_lawful own lawful⟩,
      fun _ _ => .inl failed⟩
  · intro session failed path out world records other run
    exact ⟨fun _ => failed, fun _ _ => ⟨out, records, other, run⟩⟩
  · exact fun session world usable tidy error => .inr ⟨accepted, usable, tidy⟩
  · exact fun _ session world kept => ⟨_, kept.1, kept.2⟩

/-- Whatever `finish` asks for on the way, it asks in order. -/
theorem wp_finish_orderly (sound : session.Sound codec dedup fs world) :
    SortSession.finish.wp (sessionSemantics codec) (fun _ op world => Orderly codec fs op world)
      (fun _ _ _ => True) (fun _ _ _ => True) session world := by
  obtain ⟨accepted, usable, tidy⟩ := sound
  refine SortSession.wp_finish_tidy ?_ ?_ usable tidy fun _ _ _ _ => trivial
  · intro session
    exact ⟨fun op world lawful dir own => disciplined_of_lawful own lawful, fun _ _ => trivial⟩
  · exact fun session path out world records other run _ _ => ⟨out, records, other, run⟩

theorem ReachesFrom.failed_or_sound (reaches : ReachesFrom codec dedup fs session world) :
    session.failed = true ∨ session.Sound codec dedup fs world := by
  induction reaches with
  | new plan dir scope hold => exact .inr ⟨_, usable_new plan dir scope hold fs, tidy_self⟩
  | @push session world outcome world' key value bytes _ run inductionHypothesis =>
      obtain failed | sound := inductionHypothesis
      · rw [pushWithSize_of_failed failed] at run
        cases run
        exact .inl failed
      · have holds := @wp_pushWithSize_sound _ _ _ _ _ _ _ _ _ key value bytes sound
        cases outcome with
        | dropped session' =>
            obtain ⟨op, middle, issued, dropped⟩ := Method.wp_dropped holds run
            exact .inl (issued.1 (awaits_of_drop dropped))
        | returned result =>
            obtain ⟨error | value, session'⟩ := result
            · exact Method.wp_returned holds run
            · exact .inr (Method.wp_returned holds run)

omit [Layout Key Value] in
theorem RunsOf.finished {files : Contents} {paths : List ScratchPath}
    {input : List (Record Key Value)} (runs : RunsOf codec files input paths) :
    ∀ path ∈ paths, ∃ records, records ≠ [] ∧ RunFile codec files path records := by
  obtain ⟨lists, each, sorted, -⟩ := runs
  induction each with
  | nil => exact fun _ member => absurd member List.not_mem_nil
  | cons run _ inductionHypothesis =>
      obtain ⟨first, sorted⟩ := List.forall_mem_cons.mp sorted
      intro path member
      obtain rfl | member := List.mem_cons.mp member
      · exact ⟨_, first.1, run⟩
      · exact inductionHypothesis sorted path member

omit [LinearOrder Key] [Layout Key Value] in
theorem RunFile.present {files : Contents} {path : ScratchPath} {records : List (Record Key Value)}
    (run : RunFile codec files path records) : files path ≠ none := by
  obtain ⟨-, bytes, content, -⟩ := run
  rw [content]
  exact Option.some_ne_none _

/-- The runs still to merge before group `number` of `pass`. -/
structure Remaining (codec : Codec Key Value) (fs : Fs) (dir : ScratchDir) (world : World)
    (pass number : Nat) (paths : List ScratchPath) : Prop where
  runs : ∃ input, RunsOf codec world.fs.files input paths
  distinct : paths.Nodup
  inside : ∀ path ∈ paths, path.dir = dir
  earlier : ∀ path ∈ paths, ¬LaterMerge dir pass number path
  unused : ∀ path, LaterMerge dir pass number path → World.Unused { fs, log := [] } world path
  present : ∀ path, world.fs.files path ≠ none → path ∉ paths → fs.files path ≠ none

variable {dir : ScratchDir} {pass number : Nat} {paths : List ScratchPath}

omit [Layout Key Value] in
theorem Remaining.holdsExactly (remaining : Remaining codec fs dir world pass number paths)
    (own : OwnDirectory fs dir) : HoldsExactly codec dir world paths where
  distinct := by
    refine remaining.distinct.map_on ?_
    rintro ⟨_, file⟩ member ⟨_, file'⟩ member' same
    cases remaining.inside _ member
    cases remaining.inside _ member'
    have equal : file = file' := ScratchFile.fileName_injective same
    rw [equal]
  present path inside := by
    constructor
    · intro present
      by_contra absent
      exact remaining.present path present absent (own path inside)
    · intro member
      obtain ⟨input, runs⟩ := remaining.runs
      obtain ⟨records, -, run⟩ := runs.finished path member
      exact run.present
  finished path member := by
    obtain ⟨input, runs⟩ := remaining.runs
    exact ⟨remaining.inside path member, runs.finished path member⟩

omit [LinearOrder Key] [Layout Key Value] in
theorem HoldsExactly.reverse (exactly : HoldsExactly codec dir world paths.reverse) :
    HoldsExactly codec dir world paths where
  distinct := by
    have distinct := exactly.distinct
    rwa [List.map_reverse, List.nodup_reverse] at distinct
  present path inside := by
    rw [exactly.present path inside, List.mem_reverse]
  finished path member := exactly.finished path (List.mem_reverse.mpr member)

omit [Layout Key Value] in
theorem SortSession.Frontier.remaining {chunks : List (Chunk Key Value)}
    (frontier : session.Frontier codec world chunks) (tidy : session.Tidy { fs, log := [] } world) :
    Remaining codec fs session.dir world 0 0 (session.spills.reverse.filterMap id) := by
  obtain ⟨blocks, each, -⟩ := frontier.slots.exists_blocks
  rw [List.filterMap_reverse]
  refine ⟨⟨_, RunsOf.of_blocks each⟩, List.nodup_reverse.mpr frontier.distinct, ?_, ?_, ?_, ?_⟩
  · intro path member
    exact (frontier.named path (List.mem_reverse.mp member)).1
  · intro path member
    exact (frontier.named path (List.mem_reverse.mp member)).not_laterMerge
  · exact fun path later => SortSession.unused_laterMerge tidy frontier.named later
  · intro path present absent
    exact (tidy.present path present fun member => absent (List.mem_reverse.mpr member)).1

theorem SortSession.Sound.flushed {session' : SortSession Key Value} {world' : World}
    (sound : session.Sound codec dedup fs world)
    (flushes : session.Flushes codec world session' world') :
    Remaining codec fs session.dir world' 0 0 (session'.spills.reverse.filterMap id) := by
  obtain ⟨accepted, ⟨-, -, chunks, holds⟩, tidy⟩ := sound
  have sort := stableSortOf_sortBuffer holds.increasing
  have again : SortSession.sortBuffer (SortSession.sortBuffer session.buffer) =
      SortSession.sortBuffer session.buffer :=
    (List.pairwise_insertionSort SortSession.RowLe session.buffer).insertionSort_eq
  have holds : SortSession.flush.wp (sessionSemantics codec) (fun _ _ _ => True)
      (fun _ session' world' =>
        Remaining codec fs session.dir world' 0 0 (session'.spills.reverse.filterMap id))
      (fun _ _ _ => True)
        { session with buffer := SortSession.sortBuffer session.buffer } world := by
    refine Method.wp_bind.mpr (Method.wp_get.mpr (Method.wp_ite.mpr ⟨fun _ => ?_, fun more => ?_⟩))
    · exact SortSession.Frontier.remaining holds.frontier tidy
    · refine @wp_spill _ _ _ _ _ { fs, log := [] } _ _ _ _ chunks
        (session.buffer.map RunRow.record) _
        (fun _ _ => ⟨fun _ _ _ => trivial, fun _ _ => trivial⟩) (fun _ _ _ _ _ _ _ _ => trivial)
        (unused_of_tidy tidy holds.frontier) holds.frontier ?_ ?_ ?_
      · exact fun empty => more (List.isEmpty_iff.mpr empty)
      · simp only [again]
        exact sort
      · intro spills world' frontier advances
        exact SortSession.Frontier.remaining frontier (tidy_spilled tidy advances)
  exact Method.wp_returned holds flushes

omit [Layout Key Value] in
theorem Remaining.nextPass (remaining : Remaining codec fs dir world pass number paths) :
    Remaining codec fs dir world (pass + 1) 0 paths := by
  have later : ∀ path, LaterMerge dir (pass + 1) 0 path → LaterMerge dir pass number path := by
    rintro path ⟨pass', number', same, order⟩
    exact ⟨pass', number', same, by omega⟩
  obtain ⟨runs, distinct, inside, earlier, unused, present⟩ := remaining
  refine ⟨runs, distinct, inside, ?_, ?_, present⟩
  · exact fun path member merge => earlier path member (later path merge)
  · exact fun path merge => unused path (later path merge)

/-- A group that was merged leaves its one run in its place. -/
theorem Remaining.nextGroup {io : ScopeId} {next group rest : List ScratchPath}
    {path : ScratchPath} {world' : World} {state state' : State}
    (remaining : Remaining codec fs dir world pass number (next ++ (group ++ rest)))
    (some : group ≠ [])
    (run : Runs (sessionSemantics codec) (mergeGroup dir io pass number group state) world
      (.returned (.ok path, state')) world') :
    Remaining codec fs dir world' pass (number + 1) (next ++ (path :: rest)) := by
  obtain ⟨⟨input, runs⟩, distinct, inside, earlier, unused, present⟩ := remaining
  obtain ⟨_, _, nextRuns, others, -⟩ := runs.split
  obtain ⟨_, _, groupRuns, restRuns, -⟩ := others.split
  obtain ⟨distinctNext, distinctOthers, apart⟩ := List.nodup_append.mp distinct
  obtain ⟨-, distinctRest, apart'⟩ := List.nodup_append.mp distinctOthers
  have own : LaterMerge dir pass number ⟨dir, .merge pass number⟩ :=
    ⟨pass, number, rfl, .inr ⟨rfl, Nat.le_refl _⟩⟩
  have notLater : ¬LaterMerge dir pass (number + 1) ⟨dir, .merge pass number⟩ := by
    rintro ⟨pass', number', same, order⟩
    cases same
    omega
  have inNext : ∀ other ∈ next, other ∈ next ++ (group ++ rest) := fun _ => List.mem_append_left _
  have inGroup : ∀ other ∈ group, other ∈ next ++ (group ++ rest) := fun _ member =>
    List.mem_append_right _ (List.mem_append_left _ member)
  have inRest : ∀ other ∈ rest, other ∈ next ++ (group ++ rest) := fun _ member =>
    List.mem_append_right _ (List.mem_append_right _ member)
  have merged : (mergeGroup dir io pass number group : Async Key Value State _).wp
      (sessionSemantics codec) (fun _ _ _ => True)
      (fun path _ world' => (∃ input, RunsOf codec world'.fs.files input [path]) ∧
        (path ∈ group ∨ path = ⟨dir, .merge pass number⟩) ∧
        world.Advances (· = ⟨dir, .merge pass number⟩) group [path] world' ∧
        world.Follows (· ∈ group) (· = ⟨dir, .merge pass number⟩) world')
      (fun _ _ _ => True) state world := by
    refine wp_mergeGroup ⟨fun _ _ _ => trivial, fun _ _ => trivial⟩ (fun _ _ _ _ _ _ => trivial)
      some groupRuns ?_ (unused _ own) ?_
    · exact fun member => earlier _ (inGroup _ member) own
    · exact fun path world' runs named advances follows => ⟨⟨_, runs⟩, named, advances, follows⟩
  obtain ⟨⟨_, pathRuns⟩, named, advances, follows⟩ := Method.wp_returned merged run
  -- the other runs are not touched, and the new one is none of them
  have kept : ∀ other ∈ next ++ (group ++ rest), other ∉ group →
      world'.fs.files other = world.fs.files other := by
    intro other member outside
    exact follows.files other outside fun same => earlier other member (same ▸ own)
  have nextOutside : ∀ other ∈ next, other ∉ group := fun other member inside =>
    apart other member other (List.mem_append_left _ inside) rfl
  have restOutside : ∀ other ∈ rest, other ∉ group := fun other member inside =>
    apart' other inside other member rfl
  have new : ∀ other ∈ next ++ (group ++ rest), other ∉ group → other ≠ path := by
    rintro other member outside rfl
    obtain inside | rfl := named
    · exact outside inside
    · exact earlier _ member own
  have among : path ∈ next ++ (group ++ rest) ∨ path = ⟨dir, .merge pass number⟩ :=
    named.imp (inGroup path) id
  have all : ∀ other ∈ next ++ (path :: rest),
      other ∈ next ++ (group ++ rest) ∨ other = ⟨dir, .merge pass number⟩ := by
    intro other member
    obtain member | member := List.mem_append.mp member
    · exact .inl (inNext other member)
    · obtain rfl | member := List.mem_cons.mp member
      · exact among
      · exact .inl (inRest other member)
  refine ⟨⟨_, (nextRuns.transport ?_).append (pathRuns.append (restRuns.transport ?_))⟩,
    ?_, ?_, ?_, ?_, ?_⟩
  · exact fun other member => kept other (inNext other member) (nextOutside other member)
  · exact fun other member => kept other (inRest other member) (restOutside other member)
  · apply List.nodup_append.mpr
    refine ⟨distinctNext, List.nodup_cons.mpr ⟨fun member => ?_, distinctRest⟩, ?_⟩
    · exact new path (inRest path member) (restOutside path member) rfl
    · intro other member other' member' same
      subst same
      obtain rfl | member' := List.mem_cons.mp member'
      · exact new other (inNext other member) (nextOutside other member) rfl
      · exact apart other member other (List.mem_append_right _ member') rfl
  · intro other member
    obtain member | rfl := all other member
    · exact inside other member
    · rfl
  · intro other member later
    obtain member | rfl := all other member
    · exact earlier other member (later.mono (Nat.le_succ number))
    · exact notLater later
  · intro other later
    refine (unused other (later.mono (Nat.le_succ number))).trans (follows.unused other ?_)
    rintro rfl
    exact notLater later
  · intro other there absent
    rw [List.mem_append, List.mem_cons, not_or, not_or] at absent
    obtain ⟨notNext, notPath, notRest⟩ := absent
    obtain ⟨there, notGroup⟩ := advances.present other there fun member =>
      notPath (List.mem_singleton.mp member)
    apply present other there
    rw [List.mem_append, List.mem_append]
    exact fun member => member.elim notNext fun member => member.elim notGroup notRest

theorem Cascades.ne_nil {io : ScopeId} {fanIn : Nat} {runs next : List ScratchPath}
    {groups : List (List ScratchPath)} {world' : World} (positive : 0 < fanIn)
    (cascades : Cascades State codec dir io fanIn runs world pass number next groups world') :
    ∀ group ∈ groups, group ≠ [] := by
  induction cascades with
  | start _ => exact ne_nil_of_mem_chunks positive runs
  | group _ _ _ _ inductionHypothesis => exact (List.forall_mem_cons.mp inductionHypothesis).2
  | pass _ _ _ => exact ne_nil_of_mem_chunks positive _

theorem Cascades.remaining {io : ScopeId} {fanIn : Nat} {runs next : List ScratchPath}
    {groups : List (List ScratchPath)} {world' : World} (positive : 0 < fanIn)
    (first : Remaining codec fs dir world 0 0 runs)
    (cascades : Cascades State codec dir io fanIn runs world pass number next groups world') :
    Remaining codec fs dir world' pass number (next ++ groups.flatten) := by
  induction cascades with
  | start more => rwa [flatten_chunks fanIn positive]
  | group state state' before run inductionHypothesis =>
      rw [List.flatten_cons] at inductionHypothesis
      have some := (List.forall_mem_cons.mp (before.ne_nil positive)).1
      have merged := inductionHypothesis.nextGroup some run
      rwa [List.append_assoc]
  | pass _ more inductionHypothesis =>
      rw [List.flatten_nil, List.append_nil] at inductionHypothesis
      rw [flatten_chunks fanIn positive]
      exact inductionHypothesis.nextPass

theorem Cascades.of_mergeGroups {io : ScopeId} {fanIn : Nat} {runs next rest : List ScratchPath}
    {groups : List (List ScratchPath)} {world' world'' : World} {state state' : State}
    (cascades : Cascades State codec dir io fanIn runs world pass number next groups world')
    (run : Runs (sessionSemantics codec) (mergeGroups dir io pass number groups state) world'
      (.returned (.ok rest, state')) world'') :
    Cascades State codec dir io fanIn runs world pass (number + groups.length) (next ++ rest) []
      world'' := by
  induction groups generalizing number next rest world' state with
  | nil =>
      cases run
      rwa [List.append_nil]
  | cons paths groups inductionHypothesis =>
      obtain ⟨path, between, middle, first, others⟩ := Method.runs_bind run
      obtain ⟨paths', between', middle', second, last⟩ := Method.runs_bind others
      cases last
      have reached := inductionHypothesis (.group state between cascades first) second
      rwa [List.append_assoc, List.singleton_append, Nat.add_assoc, Nat.add_comm 1] at reached

theorem Cascades.of_run {io : ScopeId} {fanIn turns : Nat} {runs last : List ScratchPath}
    {world' : World} {state state' : State}
    (run : Runs (sessionSemantics codec) (cascade dir io fanIn turns 0 runs state) world
      (.returned (.ok last, state')) world') :
    last = runs ∧ world' = world ∨ ∃ pass number,
      Cascades State codec dir io fanIn runs world pass number last [] world' := by
  have turn : ∀ turns pass paths world₁ state, (fanIn < paths.length →
        Cascades State codec dir io fanIn runs world pass 0 [] (chunks fanIn paths) world₁) →
      Runs (sessionSemantics codec) (cascade dir io fanIn turns pass paths state) world₁
        (.returned (.ok last, state')) world' →
      last = paths ∧ world' = world₁ ∨ ∃ pass number,
        Cascades State codec dir io fanIn runs world pass number last [] world' := by
    intro turns
    induction turns with
    | zero => exact fun _ _ _ _ _ run => nomatch run
    | succ turns inductionHypothesis =>
        intro pass paths world₁ state enters run
        unfold cascade at run
        by_cases more : paths.length > fanIn
        · rw [if_pos more] at run
          obtain ⟨next, between, middle, groups, rest⟩ := Method.runs_bind run
          have merged := Cascades.of_mergeGroups (enters more) groups
          obtain ⟨rfl, rfl⟩ | reached := inductionHypothesis _ next middle between merged.pass rest
          · exact .inr ⟨pass, _, merged⟩
          · exact .inr reached
        · rw [if_neg more] at run
          cases run
          exact .inl ⟨rfl, rfl⟩
  exact turn turns 0 runs world state .start run

/-- Between its steps a session holds exactly its live runs, finished and not empty, and
it creates, opens and removes files in order. -/
theorem scratch_file_discipline (reaches : ReachesFrom codec dedup fs session world)
    (own : OwnDirectory fs session.dir) :
    (session.failed = false →
      HoldsExactly codec session.dir world (session.spills.filterMap id)) ∧
    (session.failed = false → ∀ flushed world₁, session.Flushes codec world flushed world₁ →
      ∀ io fanIn, 2 ≤ fanIn → ∀ world₂,
        (∀ pass number next groups,
          Cascades AsyncCleanupGuard codec session.dir io fanIn
            (flushed.spills.reverse.filterMap id) world₁ pass number next groups world₂ →
          HoldsExactly codec session.dir world₂ (next ++ groups.flatten)) ∧
        (∀ turns last (guard guard' : AsyncCleanupGuard),
          Runs (sessionSemantics codec) (cascade session.dir io fanIn turns 0
            (flushed.spills.reverse.filterMap id) guard) world₁
            (.returned (.ok last, guard')) world₂ →
          HoldsExactly codec session.dir world₂ last)) ∧
    (∀ key value bytes op world',
      Asks (sessionSemantics codec) (SortSession.pushWithSize key value bytes session)
        world op world' →
      op.Disciplined codec session.dir world') ∧
    (∀ op world', Asks (sessionSemantics codec) (SortSession.finish session) world op world' →
      op.Disciplined codec session.dir world') ∧
    (∀ paths out dedup io (guard : AsyncCleanupGuard) world path world', out ∉ paths →
      Asks (sessionSemantics codec) (mergeGroupToFile paths out dedup io guard) world
        (.direct (.removeIfExists path)) world' →
      path ∈ paths ∧ ∃ records, RunFile codec world'.fs.files out records) := by
  have sound : session.failed = false → session.Sound codec dedup fs world := by
    intro usable
    apply reaches.failed_or_sound.resolve_left
    rw [usable]
    exact Bool.false_ne_true
  refine ⟨?_, ?_, ?_, ?_, ?_⟩
  · intro usable
    obtain ⟨accepted, ⟨-, -, chunks, holds⟩, tidy⟩ := sound usable
    have exactly := (SortSession.Frontier.remaining holds.frontier tidy).holdsExactly own
    rw [List.filterMap_reverse] at exactly
    exact exactly.reverse
  · intro usable flushed world₁ flushes io fanIn fanIn_ge world₂
    have first := (sound usable).flushed flushes
    constructor
    · exact fun pass number next groups cascades =>
        (cascades.remaining (by omega) first).holdsExactly own
    · intro turns last guard guard' run
      obtain ⟨rfl, rfl⟩ | ⟨pass, number, cascades⟩ := Cascades.of_run run
      · exact first.holdsExactly own
      · have final := (cascades.remaining (by omega) first).holdsExactly own
        rwa [List.flatten_nil, List.append_nil] at final
  · intro key value bytes op world' asks
    by_cases failed : session.failed = true
    · rw [pushWithSize_of_failed failed] at asks
      cases asks
    · obtain ⟨left, issued⟩ := Program.wp_asks
        (wp_pushWithSize_sound (sound (Bool.eq_false_iff.mpr failed))) asks
      exact issued.2 session.dir own
  · intro op world' asks
    by_cases failed : session.failed = true
    · rw [finish_of_failed failed] at asks
      cases asks
    · obtain ⟨left, issued⟩ := Program.wp_asks
        (wp_finish_orderly (sound (Bool.eq_false_iff.mpr failed))) asks
      exact issued session.dir own
  · intro paths out dedup io guard world path world' fresh asks
    obtain ⟨left, removes⟩ := Program.wp_asks
      (wp_mergeGroupToFile_removes dedup io fresh guard world) asks
    exact removes path rfl

theorem reachesFrom_of_pushAll {pure : PureCodec Key Value} {bytes : UInt64}
    {rows : List (Key × Value)} {session session' : SortSession Key Value} {world world' : World}
    (reaches : ReachesFrom pure.codec dedup fs session world)
    (pushed : pushAll pure bytes rows session world = some (session', world')) :
    ReachesFrom pure.codec dedup fs session' world' := by
  induction rows generalizing session world with
  | nil =>
      cases pushed
      exact reaches
  | cons row rows inductionHypothesis =>
      unfold pushAll at pushed
      split at pushed
      · rename_i session'' world'' followed
        have run := Program.runs_of_follow pure.policy_allowed followed
        exact inductionHypothesis (reaches.push row.1 row.2 bytes run) pushed
      · cases pushed

/-- After three spills the directory holds two runs. -/
theorem scratch_file_discipline_three :
    ∃ (session : SortSession Nat Nat) (world : World), session.nextRun = 3 ∧
      (session.spills.filterMap id).length = 2 ∧
      HoldsExactly byteRows.codec session.dir world (session.spills.filterMap id) := by
  have spilled : (pushAll byteRows 1 [(3, 1), (1, 2), (3, 3)] (.new (.external 1 2) 0 true 0 none)
      .empty).any (fun reached => reached.1.nextRun = 3 &&
        (reached.1.spills.filterMap id).length = 2 && !reached.1.failed) = true := by
    decide +kernel
  obtain ⟨⟨session, world⟩, pushed, facts⟩ := (Option.any_eq_true _ _).mp spilled
  simp only [Bool.and_eq_true, decide_eq_true_eq, Bool.not_eq_true'] at facts
  obtain ⟨⟨runs, length⟩, usable⟩ := facts
  have reaches := reachesFrom_of_pushAll (.new (.external 1 2) 0 0 none) pushed
  exact ⟨session, world, runs, length,
    (scratch_file_discipline reaches fun _ _ => rfl).1 usable⟩

end SortGovernor.Engine
