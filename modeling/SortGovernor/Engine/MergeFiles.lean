import SortGovernor.Engine.MergeRows

/-!
# Merging run files into run files

A merged file holds the sort of the rows of its inputs, which are removed once
it is finished.
-/

namespace SortGovernor.Engine

open SortGovernor.Resumption SortGovernor.Sorting

variable {Key Value State : Type} [LinearOrder Key] [Layout Key Value] {codec : Codec Key Value}
  {initial : World} {issue : State → Request Key Value → World → Prop}
  {err : Abort → State → World → Prop}
  {state : State} {world : World}

omit [Layout Key Value] in
theorem MergeState.Emits.length_le {view : Contents} {merge : MergeState Key Value}
    {rows : List (Record Key Value)} (emits : merge.Emits codec view rows) :
    rows.length ≤ merge.rowsLeft := by
  rcases emits with ⟨pending, output, pends, merges, rfl⟩
  rw [pends.rowsLeft, ← merges.length]
  split
  · exact (collapse_sublist _ _ _).length_le
  · exact Nat.le_refl _

omit [LinearOrder Key] [Layout Key Value] in
theorem RunWriter.Holds.after_reads {before : List UInt8} {world' : World} {writer : RunWriter}
    {records : List (Record Key Value)} (holds : writer.Holds codec before world records)
    (reads : world.Reads world') : writer.Holds codec before world' records := by
  rcases holds with ⟨count, bounded, bytes, content, appended, frames⟩
  refine ⟨count, bounded, bytes, ?_, ?_, frames⟩
  · rw [reads.files_eq, content]
  · rw [reads.appended _ not_false, appended]

theorem wp_drainInto {turns : Nat} {view : Contents} {merge : MergeState Key Value}
    {rows records : List (Record Key Value)} {writer : RunWriter} {before : List UInt8}
    {ok : RunWriter → State → World → Prop} (tolerates : Tolerates codec initial issue err state)
    (visible : world.Shows view) (unseen : view writer.path = none)
    (emits : merge.Emits codec view rows) (enough : rows.length < turns)
    (holds : writer.Holds codec before world records)
    (drained : ∀ writer' world', writer'.path = writer.path →
      writer'.Holds codec before world' (records ++ rows) →
      world.Follows (fun _ => False) (· = writer.path) world' → ok writer' state world') :
    (drainInto turns merge writer : Async Key Value State RunWriter).wp (sessionSemantics codec)
        issue ok err state world := by
  induction turns generalizing merge rows records writer world with
  | zero => omega
  | succ turns inductionHypothesis =>
      unfold drainInto
      refine Method.wp_bind.mpr (Method.wp_call.mpr ?_)
      refine wp_nextRow (fun _ => tolerates.inner _) visible emits ?_ ?_
      · rintro _ world' rfl _ reads
        refine drained writer world' rfl ?_ (World.Follows.of_reads reads)
        rw [List.append_nil]
        exact holds.after_reads reads
      · rintro row rest merge' world' rfl emits' _ reads
        refine Method.wp_bind.mpr (RunWriter.wp_writeRow tolerates (holds.after_reads reads) ?_)
        intro writer' world'' samePath holds' follows
        rw [List.length_cons] at enough
        refine inductionHypothesis ?_ (samePath ▸ unseen) emits' (by omega) holds' ?_
        · refine (visible.after_reads reads).after follows ?_
          rintro path present
          exact ⟨not_false, fun same => present (same ▸ unseen)⟩
        · intro last world''' samePath' holds'' follows'
          refine drained last world''' (samePath'.trans samePath) ?_ ?_
          · rwa [List.append_assoc, List.singleton_append] at holds''
          · rw [samePath] at follows'
            exact (World.Follows.of_reads reads).trans (follows.trans follows')

omit [LinearOrder Key] [Layout Key Value] in
/-- Removing the inputs of a merge disturbs nothing else. -/
theorem wp_removeInputs {paths : List ScratchPath} {ok : Unit → State → World → Prop}
    (issued : ∀ path ∈ paths, ∀ world', world.Follows (· ∈ paths) (fun _ => False) world' →
      issue state (.direct (.removeIfExists path)) world')
    (failed : ∀ error world, err (.error error) state world)
    (removed : ∀ world', world.Follows (· ∈ paths) (fun _ => False) world' →
      (∀ path ∈ paths, world'.fs.files path = none) → ok () state world') :
    (removeInputs paths : Async Key Value State Unit).wp (sessionSemantics codec)
        issue ok err state world := by
  induction paths generalizing world with
  | nil => exact removed world (World.Follows.refl world) (by simp)
  | cons path paths inductionHypothesis =>
      have here := issued path (List.mem_cons_self ..) world (World.Follows.refl world)
      refine Method.wp_bind.mpr (wp_awaitDirect (.removeIfExists path) here failed ?_)
      intro _ fs completes
      have first : world.Follows (· ∈ path :: paths) (fun _ => False)
          { fs, log := world.log ++ [.removeIfExists path] } := by
        refine ⟨?_, ?_, ?_⟩
        · intro other kept _
          exact completes.files_eq fun same => kept (same ▸ List.mem_cons_self ..)
        · intro other _
          rw [World.appended_append]
          exact List.append_nil _
        · intro other _
          constructor
          · intro created
            simpa using created
          · intro present
            by_cases same : other = path
            · rw [show fs.files = _ from completes.effect, same, Function.update_self] at present
              exact absurd rfl present
            · rwa [completes.files_eq same] at present
      have gone : fs.files path = none := by
        rw [show fs.files = _ from completes.effect, Function.update_self]
      have more : ∀ {world'},
          World.Follows (· ∈ paths) (fun _ => False) { fs, log := world.log ++ [_] } world' →
          world.Follows (· ∈ path :: paths) (fun _ => False) world' := fun follows =>
        first.trans (follows.mono (fun _ => List.mem_cons_of_mem _) fun _ => id)
      apply inductionHypothesis
      · intro other member world' follows
        exact issued other (List.mem_cons_of_mem _ member) world' (more follows)
      · intro world' follows all
        refine removed world' (more follows) ?_
        intro other member
        obtain rfl | member := List.mem_cons.mp member
        · by_contra present
          exact (follows.unused other not_false).present present gone
        · exact all other member

def Contents.only (paths : List ScratchPath) (files : Contents) : Contents :=
  fun path => if path ∈ paths then files path else none

theorem World.shows_only (world : World) (paths : List ScratchPath) :
    world.Shows (Contents.only paths world.fs.files) := by
  intro path bytes content
  unfold Contents.only at content
  split at content
  · exact content
  · cases content

omit [LinearOrder Key] [Layout Key Value] in
theorem RunFile.only {files : Contents} {paths : List ScratchPath}
    {runs : List (List (Record Key Value))} (each : List.Forall₂ (RunFile codec files) paths runs) :
    List.Forall₂ (RunFile codec (Contents.only paths files)) paths runs := by
  have within : ∀ part, part ⊆ paths → ∀ runs, List.Forall₂ (RunFile codec files) part runs →
      List.Forall₂ (RunFile codec (Contents.only paths files)) part runs := by
    intro part inside runs each
    induction each with
    | nil => exact .nil
    | cons run _ inductionHypothesis =>
        have member := inside (List.mem_cons_self ..)
        rcases run with ⟨bounded, bytes, content, frames⟩
        refine .cons ⟨bounded, bytes, ?_, frames⟩
          (inductionHypothesis fun _ inPart => inside (List.mem_cons_of_mem _ inPart))
        rw [Contents.only, if_pos member, content]
  exact within paths (List.Subset.refl _) runs each

/-- What was appended to a file between two worlds are the frames of `rows`. -/
def World.Framed (codec : Codec Key Value) (world world' : World) (path : ScratchPath)
    (rows : List (Record Key Value)) : Prop :=
  ∃ bytes, world'.appended path = world.appended path ++ bytes ∧ Frames codec rows bytes

/-- Merging finished sorted runs leaves one run with the sort of all rows. -/
theorem wp_mergeGroupToFile {paths : List ScratchPath} {out : ScratchPath} {dedup : Bool}
    {io : ScopeId} {runs : List (List (Record Key Value))}
    {ok : ScratchPath → State → World → Prop} (tolerates : Tolerates codec initial issue err state)
    (opens : Opens issue state io paths world)
    (files : List.Forall₂ (RunFile codec world.fs.files) paths runs)
    (sorted : ∀ run ∈ runs, run.Pairwise fun a b => Record.key a ≤ Record.key b)
    (fresh : out ∉ paths) (unused : initial.Unused world out)
    (removes : ∀ path ∈ paths, ∀ world' records, RunFile codec world'.fs.files out records →
      issue state (.direct (.removeIfExists path)) world')
    (merged : ∀ world',
      RunFile codec world'.fs.files out (reference Record.key dedup runs.flatten) →
      world.Framed codec world' out (reference Record.key dedup runs.flatten) →
      world.Advances (· = out) paths [out] world' →
      world.Follows (· ∈ paths) (· = out) world' → ok out state world') :
    (mergeGroupToFile paths out dedup io : Async Key Value State ScratchPath).wp
        (sessionSemantics codec) issue ok err state world := by
  unfold mergeGroupToFile
  refine Method.wp_bind.mpr
    (wp_open tolerates opens (world.shows_only paths) (RunFile.only files) sorted ?_)
  intro merge opened emits _ reads
  refine Method.wp_bind.mpr (RunWriter.wp_create tolerates
    (unused.trans (reads.unused out not_false)) ?_)
  rintro writer created rfl holds follows
  have unseen : Contents.only paths world.fs.files writer.path = none := if_neg fresh
  have visible : created.Shows (Contents.only paths world.fs.files) := by
    refine ((world.shows_only paths).after_reads reads).after follows fun path present => ?_
    exact ⟨not_false, fun same => present (same ▸ unseen)⟩
  refine Method.wp_bind.mpr (wp_drainInto tolerates visible unseen emits
    (Nat.lt_succ_of_le emits.length_le) holds ?_)
  intro writer' drained samePath holds' follows'
  refine Method.wp_bind.mpr (RunWriter.wp_finish tolerates holds' ?_)
  rw [samePath]
  intro finished run follows'' quiet
  have kept : ∀ {last}, finished.Follows (· ∈ paths) (fun _ => False) last →
      RunFile codec last.fs.files writer.path (reference Record.key dedup runs.flatten) := by
    intro last removes
    obtain ⟨bounded, bytes, content, frames⟩ := run
    exact ⟨bounded, bytes, (removes.files _ fresh not_false).trans content, frames⟩
  refine Method.wp_bind.mpr (wp_removeInputs ?_ tolerates.err ?_)
  · intro path member last removing
    exact removes path member last _ (kept removing)
  · intro last removing gone
    have written : world.Follows (· ∈ paths) (· = writer.path) finished :=
      (World.Follows.of_reads reads).trans
        ((follows.trans (follows'.trans follows'')).mono (fun _ => False.elim) fun _ => id)
    have whole := written.trans (removing.mono (fun _ => id) fun _ => False.elim)
    have framed : world.Framed codec last writer.path
        (reference Record.key dedup runs.flatten) := by
      obtain ⟨-, -, bytes, -, appended, frames⟩ := holds'
      refine ⟨bytes, ?_, frames⟩
      rw [samePath] at appended
      rw [removing.appended _ not_false, quiet, appended, reads.appended _ not_false]
    refine merged last (kept removing) framed
      (whole.advances ?_ fun path member _ => gone path member) whole
    exact fun path same => List.mem_singleton.mpr same

end SortGovernor.Engine
