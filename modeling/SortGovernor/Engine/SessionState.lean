import SortGovernor.Engine.Cascade
import SortGovernor.Engine.Session
import SortGovernor.Sorting.Frontier

/-!
# What a session holds between two calls

Every accepted row is either in one of the spilled chunks or still buffered.
The chunks are numbered by their spill, and the frontier keeps them in blocks
like a binary counter.
-/

namespace SortGovernor.Engine

open SortGovernor.Resumption SortGovernor.Sorting

variable {Key Value : Type} [LinearOrder Key]

/-- The records of one spill, in push order. -/
abbrev Chunk (Key Value : Type) := List (Record Key Value)

/-- The file at `path` is one run, not empty, with the sort of all rows of `chunks`. -/
def HoldsBlock (codec : Codec Key Value) (files : Contents) (path : ScratchPath)
    (chunks : List (Chunk Key Value)) : Prop :=
  ∃ sorted, sorted ≠ [] ∧ RunFile codec files path sorted ∧
    StableSortOf Record.key chunks.flatten sorted

/-- A file that some spill before `ordinal` wrote. -/
def Spilled (dir : ScratchDir) (ordinal : Nat) (path : ScratchPath) : Prop :=
  path.dir = dir ∧
    ∃ n, n < ordinal ∧ (path.file = .run n ∨ ∃ level, path.file = .carry n level)

/-- The frontier `spills` after `nextRun` spills, those of `chunks`. -/
structure Frontier (codec : Codec Key Value) (world : World) (dir : ScratchDir)
    (spills : List (Option ScratchPath)) (nextRun : Nat) (chunks : List (Chunk Key Value)) :
    Prop where
  slots : Slots (HoldsBlock codec world.fs.files) 1 spills chunks
  width : spills.length = frontierSlots
  count : nextRun = chunks.length
  named : ∀ path ∈ spills.filterMap id, Spilled dir nextRun path
  distinct : (spills.filterMap id).Nodup
  original : ∀ n chunk, chunks[n]? = some chunk → ∃ sorted,
    StableSortOf Record.key chunk sorted ∧ Frames codec sorted (world.appended ⟨dir, .run n⟩)
  unwritten : ∀ n, nextRun ≤ n → world.appended ⟨dir, .run n⟩ = []

namespace SortSession

abbrev Frontier (codec : Codec Key Value) (world : World) (session : SortSession Key Value)
    (chunks : List (Chunk Key Value)) : Prop :=
  Engine.Frontier codec world session.dir session.spills session.nextRun chunks

/-- A usable session that accepted `accepted` and spilled `chunks` of it. -/
structure Holds (codec : Codec Key Value) (world : World) (session : SortSession Key Value)
    (accepted : List (Record Key Value)) (chunks : List (Chunk Key Value)) : Prop where
  frontier : session.Frontier codec world chunks
  rows : accepted = chunks.flatten ++ session.buffer.map RunRow.record
  nextRow : session.nextRow = accepted.length
  ordinals : accepted.map (fun record => record.2.2) = List.range accepted.length
  emptyBytes : session.buffer = [] → session.bufferBytes = 0
  reservation : session.metadataReserved = false → session.cleanup.reservation = none
  descriptors : session.cleanup.fds = some .shared
  directory : ∀ dir ∈ session.cleanup.dir, dir = session.dir

end SortSession

variable {codec : Codec Key Value}

omit [LinearOrder Key] in
theorem RunFile.congr {files files' : Contents} {path : ScratchPath}
    {records : List (Record Key Value)} (run : RunFile codec files path records)
    (same : files' path = files path) : RunFile codec files' path records := by
  rcases run with ⟨bounded, bytes, content, frames⟩
  exact ⟨bounded, bytes, same.trans content, frames⟩

theorem HoldsBlock.congr {files files' : Contents} {path : ScratchPath}
    {chunks : List (Chunk Key Value)} (block : HoldsBlock codec files path chunks)
    (same : files' path = files path) : HoldsBlock codec files' path chunks := by
  rcases block with ⟨sorted, full, run, sort⟩
  exact ⟨sorted, full, run.congr same, sort⟩

theorem HoldsBlock.merge {files' : Contents} {out : ScratchPath}
    {older newer : List (Chunk Key Value)} {sorted sorted' : List (Record Key Value)}
    (full : sorted ≠ []) (left : StableSortOf Record.key older.flatten sorted)
    (right : StableSortOf Record.key newer.flatten sorted')
    (run : RunFile codec files' out (reference Record.key false [sorted, sorted'].flatten)) :
    HoldsBlock codec files' out (older ++ newer) := by
  have whole := reference_stable Record.key [sorted, sorted'].flatten
  refine ⟨_, whole.ne_nil ?_, run, ?_⟩
  · exact fun empty => full (List.append_eq_nil_iff.mp empty).1
  rw [List.flatten_append]
  refine StableSortOf.of_append left right ?_
  simpa using whole

namespace RunRow

instance : IsTrans (RunRow Key Value) SortSession.RowLe where
  trans := by
    rintro a b c (ab | ⟨ab, ab'⟩) (bc | ⟨bc, bc'⟩)
    · exact .inl (lt_trans ab bc)
    · exact .inl (bc ▸ ab)
    · exact .inl (ab ▸ bc)
    · exact .inr ⟨ab.trans bc, ab'.trans bc'⟩

instance : Std.Total (α := RunRow Key Value) SortSession.RowLe where
  total := by
    intro a b
    rcases lt_trichotomy a.key b.key with less | same | more
    · exact .inl (.inl less)
    · rcases Nat.le_total a.ordinal b.ordinal with le | ge
      · exact .inl (.inr ⟨same, le⟩)
      · exact .inr (.inr ⟨same.symm, ge⟩)
    · exact .inr (.inl more)

end RunRow

theorem stableSortOf_sortBuffer {rows : List (RunRow Key Value)}
    (increasing : rows.Pairwise fun a b => a.ordinal < b.ordinal) :
    StableSortOf Record.key (rows.map RunRow.record)
      ((SortSession.sortBuffer rows).map RunRow.record) := by
  have sorted := List.pairwise_insertionSort SortSession.RowLe rows
  have sort : StableSortOf RunRow.key rows (SortSession.sortBuffer rows) :=
    .of_position _ increasing (List.perm_insertionSort _ _) sorted
  exact sort.map RunRow.key_record

namespace SortSession.Holds

variable {world : World} {session : SortSession Key Value} {accepted : List (Record Key Value)}
  {chunks : List (Chunk Key Value)}

theorem pairwise (holds : session.Holds codec world accepted chunks) :
    accepted.Pairwise fun a b => a.2.2 < b.2.2 := by
  refine List.pairwise_map.mp (?_ : (accepted.map fun record => record.2.2).Pairwise (· < ·))
  rw [holds.ordinals]
  exact List.pairwise_lt_range

theorem increasing (holds : session.Holds codec world accepted chunks) :
    session.buffer.Pairwise fun a b => a.ordinal < b.ordinal := by
  have all := holds.pairwise
  rw [holds.rows] at all
  exact (List.pairwise_map.mp (List.pairwise_append.mp all).2.1).imp id

end SortSession.Holds

end SortGovernor.Engine
