import SortGovernor.Engine.Cascade

/-!
# What a merge may touch

Whatever files it is given, a merge of runs into a file reads them, writes its
output, and removes one of them only once the output is finished.
-/

namespace SortGovernor.Engine

open SortGovernor.Resumption SortGovernor.Sorting

variable {Key Value State : Type} {codec : Codec Key Value}

instance : Std.Refl World.Reads := ⟨fun world => World.Follows.refl world⟩

instance : IsTrans World World.Reads := ⟨fun _ _ _ left right => left.trans right⟩

/-- Anything but removing a single file. -/
def Request.Leaves (op : Request Key Value) : Prop :=
  ∀ path, op ≠ .direct (.removeIfExists path)

/-- A method that only reads files. -/
abbrev OnlyReads {Result : Type} (codec : Codec Key Value) (method : Async Key Value State Result) :
    Prop :=
  Method.Confined (sessionSemantics codec) Request.Leaves World.Reads method

theorem onlyReads_reserve (bytes : Nat) :
    OnlyReads codec (reserve bytes : Async Key Value State MemoryCharge) := by
  apply Method.confined_bind
  · apply Method.confined_issue
    · exact fun _ => nofun
    · rintro world reply next ⟨rfl, -⟩
      exact World.Follows.refl _
  · exact fun _ => Method.confined_ofExcept _

theorem onlyReads_orError {Result : Type} (value : Option Result) (error : SorterError) :
    OnlyReads codec (orError value error : Async Key Value State Result) :=
  Method.confined_okOr value _

def FsJob.Reads : FsJob → Prop
  | .readCount _ | .readFrame _ _ _ => True
  | _ => False

theorem FsJob.Reads.of_completes {job : FsJob} (reads : job.Reads) {world : World}
    {reply : Except SorterError job.Value} {fs : Fs} (completes : job.Completes world.fs reply fs) :
    world.Reads { fs, log := world.log ++ [job] } := by
  cases job with
  | readCount path | readFrame path offset rowInline =>
      exact World.reads_of_completes completes (fun _ => not_false) fun _ => rfl
  | _ => cases reads

theorem onlyReads_perform [Layout Key Value] (io : ScopeId) (pathBytes : Nat)
    (held : List MemoryCharge) {job : FsJob} (reads : job.Reads) :
    OnlyReads codec (perform io pathBytes held job : Async Key Value State job.Value) := by
  apply Method.confined_bind (onlyReads_orError _ _)
  intro bytes
  apply Method.confined_bind (onlyReads_reserve bytes)
  intro metadata
  apply Method.confined_bind
  · apply Method.confined_issue
    · exact fun _ => nofun
    · rintro world reply next (⟨fs, completes, rfl⟩ | ⟨-, rfl⟩)
      · exact reads.of_completes completes
      · exact World.Follows.refl _
  · exact fun _ => Method.confined_ofExcept _

theorem onlyReads_decode (bytes : List UInt8) :
    OnlyReads codec (decode bytes : Async Key Value State _) := by
  apply Method.confined_issue
  · exact fun _ => nofun
  · rintro world reply next ⟨rfl, -⟩
    exact World.Follows.refl _

variable [Layout Key Value]

theorem onlyReads_nextFrame : OnlyReads codec
    (RunReader.nextRow : Async Key Value RunReader _) := by
  apply Method.confined_bind Method.confined_get
  intro reader
  apply Method.confined_ite (Method.confined_pure none)
  apply Method.confined_bind
    (onlyReads_perform _ _ _ (show FsJob.Reads (.readFrame _ _ _) from trivial))
  intro frame
  apply Method.confined_bind (onlyReads_decode _)
  intro decoded
  apply Method.confined_bind (Method.confined_ofExcept _)
  rintro ⟨key, value, ordinal⟩
  apply Method.confined_bind (onlyReads_orError _ _)
  intro len
  apply Method.confined_bind (onlyReads_orError _ _)
  intro offset
  apply Method.confined_bind (Method.confined_modify _)
  intro _
  apply Method.confined_bind (Method.confined_modify _)
  exact fun _ => Method.confined_pure _

theorem onlyReads_openSource (path : ScratchPath) (io : ScopeId) :
    OnlyReads codec
      (MergeSource.open path io : Async Key Value State (Option (MergeSource Key Value))) := by
  apply Method.confined_bind
  · apply Method.confined_bind
      (onlyReads_perform _ _ _ (show FsJob.Reads (.readCount _) from trivial))
    exact fun _ => Method.confined_pure _
  intro reader
  apply Method.confined_bind (Method.confined_call onlyReads_nextFrame)
  rintro ⟨_ | head, reader⟩
  · exact Method.confined_pure none
  · exact Method.confined_pure (some _)

variable [LinearOrder Key]

omit [LinearOrder Key] in
theorem onlyReads_openMerge (paths : List ScratchPath) (dedup : Bool) (io : ScopeId) :
    OnlyReads codec (MergeState.open paths dedup io :
      Async Key Value State (MergeState Key Value)) := by
  have sources : ∀ (paths : List ScratchPath) (merge : MergeState Key Value), OnlyReads codec
      (MergeState.openSources io paths merge : Async Key Value State (MergeState Key Value)) := by
    intro paths
    induction paths with
    | nil => exact fun merge => Method.confined_pure merge
    | cons path paths inductionHypothesis =>
        intro merge
        apply Method.confined_bind (onlyReads_openSource path io)
        rintro (_ | source)
        · exact inductionHypothesis merge
        · refine Method.confined_bind ?_ inductionHypothesis
          unfold MergeState.pushSource
          split
          · exact Method.confined_bind (onlyReads_reserve _) fun _ => Method.confined_pure _
          · exact Method.confined_pure _
  refine Method.confined_bind ?_ (sources paths)
  apply Method.confined_bind (onlyReads_orError _ _)
  intro sourceBytes
  apply Method.confined_bind (onlyReads_orError _ _)
  intro heapBytes
  apply Method.confined_bind (onlyReads_orError _ _)
  intro bytes
  exact Method.confined_bind (onlyReads_reserve bytes) fun arrays => Method.confined_pure _

omit [Layout Key Value] [LinearOrder Key] in
theorem onlyReads_source (idx : Nat) :
    OnlyReads codec (MergeState.source idx : Async Key Value (MergeState Key Value) _) := by
  apply Method.confined_bind Method.confined_get
  intro merge
  split
  · exact Method.confined_pure _
  · exact Method.confined_throw _

theorem onlyReads_takeNext :
    OnlyReads codec (MergeState.takeNext : Async Key Value (MergeState Key Value) _) := by
  apply Method.confined_bind Method.confined_get
  intro merge
  split
  · exact Method.confined_pure none
  · apply Method.confined_bind (Method.confined_modify _)
    intro _
    apply Method.confined_bind (onlyReads_source _)
    intro source
    apply Method.confined_bind (Method.confined_modify _)
    intro _
    apply Method.confined_bind
    · apply Method.confined_within
      apply Method.confined_bind Method.confined_get
      intro source
      split
      · exact Method.confined_throw _
      · apply Method.confined_bind (Method.confined_modify _)
        intro _
        apply Method.confined_bind Method.confined_get
        intro source
        apply Method.confined_bind (Method.confined_within onlyReads_nextFrame)
        intro next
        exact Method.confined_bind (Method.confined_modify _) fun _ => Method.confined_pure _
    · intro row
      refine Method.confined_bind ?_ fun _ => Method.confined_pure (some row)
      apply Method.confined_bind (onlyReads_source _)
      intro source
      split
      · exact Method.confined_pure ()
      · apply Method.confined_bind (onlyReads_reserve _)
        intro charge
        exact Method.confined_bind (Method.confined_modify _) fun _ => Method.confined_modify _

theorem onlyReads_nextRow :
    OnlyReads codec (MergeState.nextRow : Async Key Value (MergeState Key Value) _) := by
  apply Method.confined_bind Method.confined_get
  intro merge
  generalize merge.rowsLeft + 1 = turns
  induction turns with
  | zero => exact Method.confined_throw _
  | succ turns inductionHypothesis =>
      apply Method.confined_bind onlyReads_takeNext
      rintro (_ | row)
      · exact Method.confined_pure none
      · apply Method.confined_bind Method.confined_get
        intro merge
        apply Method.confined_ite
        · apply Method.confined_bind Method.confined_get
          intro merge
          apply Method.confined_ite inductionHypothesis
          apply Method.confined_bind (onlyReads_reserve _)
          intro charge
          exact Method.confined_bind (Method.confined_modify _) fun _ => Method.confined_pure _
        · exact Method.confined_pure (some row)

/-- A removal is asked for one of `paths`, and only while `out` is a finished run. -/
def RemovesAfter (codec : Codec Key Value) (paths : List ScratchPath) (out : ScratchPath)
    (_ : State) (op : Request Key Value) (world : World) : Prop :=
  ∀ path, op = .direct (.removeIfExists path) →
    path ∈ paths ∧ ∃ records, RunFile codec world.fs.files out records

omit [Layout Key Value] [LinearOrder Key] in
theorem tolerates_removesAfter {paths : List ScratchPath} {out : ScratchPath} (initial : World)
    (state : State) :
    Tolerates codec initial (RemovesAfter codec paths out) (fun _ _ _ => True) state := by
  constructor
  · rintro op world lawful path rfl
    cases lawful
  · exact fun _ _ => trivial

theorem wp_drainInto_any {turns : Nat} {merge : MergeState Key Value} {paths : List ScratchPath}
    {out : ScratchPath} {records : List (Record Key Value)} {writer : RunWriter}
    {before : List UInt8} {state : State} {world : World} (path : writer.path = out)
    (holds : writer.Holds codec before world records) :
    (drainInto turns merge writer : Async Key Value State RunWriter).wp (sessionSemantics codec)
      (RemovesAfter codec paths out)
      (fun writer' _ world' => writer'.path = out ∧ ∃ records, writer'.Holds codec before
        world' records)
      (fun _ _ _ => True) state world := by
  induction turns generalizing merge records writer world with
  | zero => trivial
  | succ turns inductionHypothesis =>
      unfold drainInto
      refine Method.wp_bind.mpr (Method.wp_call.mpr (Method.wp_mono (onlyReads_nextRow merge world)
        ?_ ?_ fun _ _ _ _ => trivial))
      · exact fun _ _ _ leaves path removal => absurd removal (leaves path)
      · rintro (_ | row) merge' world' reads
        · exact ⟨path, records, holds.after_reads reads⟩
        · refine Method.wp_bind.mpr (RunWriter.wp_writeRow (tolerates_removesAfter world state)
            (holds.after_reads reads) ?_)
          intro writer' world'' samePath holds' _
          exact inductionHypothesis (samePath.trans path) holds'

/-- `merge_group_to_file` deletes only its own inputs, after its output is finished. -/
theorem wp_mergeGroupToFile_removes {paths : List ScratchPath} {out : ScratchPath} (dedup : Bool)
    (io : ScopeId) (fresh : out ∉ paths) (state : State) (world : World) :
    (mergeGroupToFile paths out dedup io : Async Key Value State ScratchPath).wp
      (sessionSemantics codec) (RemovesAfter codec paths out) (fun _ _ _ => True)
      (fun _ _ _ => True) state world := by
  unfold mergeGroupToFile
  refine Method.wp_bind.mpr (Method.wp_mono (onlyReads_openMerge paths dedup io state world)
    ?_ ?_ fun _ _ _ _ => trivial)
  · exact fun _ _ _ leaves path removal => absurd removal (leaves path)
  intro merge state opened _
  refine Method.wp_bind.mpr (RunWriter.wp_create (tolerates_removesAfter opened state) ⟨id, id⟩ ?_)
  intro writer created path holds _
  refine Method.wp_bind.mpr (Method.wp_post (wp_drainInto_any path holds) ?_ fun _ _ _ _ => trivial)
  rintro writer' state drained ⟨rfl, records, holds⟩
  refine Method.wp_bind.mpr (RunWriter.wp_finish (tolerates_removesAfter drained state) holds ?_)
  intro finished run _ _
  refine Method.wp_bind.mpr (wp_removeInputs ?_ (fun _ _ => trivial) fun _ _ _ => trivial)
  rintro path member world' removing path' same
  cases same
  obtain ⟨bounded, bytes, content, frames⟩ := run
  exact ⟨member, records, bounded, bytes, (removing.files _ fresh not_false).trans content, frames⟩

end SortGovernor.Engine
