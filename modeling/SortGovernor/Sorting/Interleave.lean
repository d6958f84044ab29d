import SortGovernor.Sorting.Merge

/-!
# Interleavings of runs

Every row of an interleaving comes from one run, and those of one run are that
run in order.  A merge is one whether or not its runs are sorted, and empty runs
change nothing but the numbers of the others.
-/

namespace SortGovernor.Sorting

variable {Alpha Key : Type}

/-- `output` with the number of a run beside each row, so that the rows of run
`idx` are `runs[idx]`. -/
def Interleaves (runs : List (List Alpha)) (output : List Alpha) : Prop :=
  ∃ labelled : List (Nat × Alpha), labelled.map Prod.snd = output ∧
    ∀ idx, (labelled.filter fun row => row.1 = idx).map Prod.snd = runs.getD idx []

namespace Interleaves

theorem of_empty {runs : List (List Alpha)} (empty : ∀ run ∈ runs, run = []) :
    Interleaves runs [] := by
  refine ⟨[], rfl, fun idx => ?_⟩
  rw [List.getD_eq_getElem?_getD]
  cases found : runs[idx]? with
  | none => rfl
  | some run => exact (empty run (List.mem_of_getElem? found)).symm

theorem cons {before after : List (List Alpha)} {row : Alpha} {tail output : List Alpha}
    (interleaves : Interleaves (before ++ tail :: after) output) :
    Interleaves (before ++ (row :: tail) :: after) (row :: output) := by
  obtain ⟨labelled, rfl, each⟩ := interleaves
  refine ⟨(before.length, row) :: labelled, rfl, fun idx => ?_⟩
  have rest := each idx
  by_cases own : before.length = idx
  · subst own
    simpa using rest
  · rw [List.filter_cons_of_neg (by simpa using own), rest]
    simp only [List.getD_eq_getElem?_getD, List.getElem?_append, List.getElem?_cons]
    by_cases less : idx < before.length
    · simp [less]
    · have apart : idx - before.length ≠ 0 := by omega
      simp [less, apart]

end Interleaves

variable [LinearOrder Key] {key : Alpha → Key}

theorem MergesTo.interleaves {pending : List (List Alpha)} {output : List Alpha}
    (merged : MergesTo key pending output) : Interleaves pending output := by
  induction merged with
  | nil empty => exact .of_empty empty
  | cons taken _ inductionHypothesis =>
      obtain ⟨before, tail, after, -, -⟩ := taken
      exact inductionHypothesis.cons

/-- Only the runs that have rows matter to a merge. -/
theorem MergesTo.of_filter {runs pending : List (List Alpha)} {output : List Alpha}
    (merged : MergesTo key runs output)
    (same : pending.filter (!·.isEmpty) = runs.filter (!·.isEmpty)) :
    MergesTo key pending output := by
  induction merged generalizing pending with
  | nil empty =>
      refine .nil fun run member => ?_
      by_contra full
      have kept : run ∈ pending.filter (!·.isEmpty) :=
        List.mem_filter.mpr ⟨member, by simpa using full⟩
      rw [same] at kept
      exact full (empty run (List.mem_of_mem_filter kept))
  | @cons runs row rest output taken _ inductionHypothesis =>
      obtain ⟨before, tail, after, earlier, later⟩ := taken
      rw [List.filter_append, List.filter_cons_of_pos (by simp)] at same
      obtain ⟨before', others, rfl, sameBefore, sameOthers⟩ := List.filter_eq_append_iff.mp same
      obtain ⟨skipped, after', rfl, empty, -, sameAfter⟩ := List.filter_eq_cons_iff.mp sameOthers
      -- the runs before the one taken from are those of `before`, but for empty ones
      have noRows : skipped.filter (!·.isEmpty) = [] :=
        List.filter_eq_nil_iff.mpr empty
      have heads : ∀ {part part' : List (List Alpha)},
          part'.filter (!·.isEmpty) = part.filter (!·.isEmpty) →
          ∀ run ∈ part', ∀ head ∈ run.head?, run ∈ part := by
        intro part part' sameRuns run member head isHead
        have full : (!run.isEmpty) = true := by
          cases run with
          | nil => cases isHead
          | cons => rfl
        have kept : run ∈ part'.filter (!·.isEmpty) := List.mem_filter.mpr ⟨member, full⟩
        rw [sameRuns] at kept
        exact List.mem_of_mem_filter kept
      have sameBefore' : (before' ++ skipped).filter (!·.isEmpty) = before.filter (!·.isEmpty) := by
        rw [List.filter_append, noRows, List.append_nil, sameBefore]
      rw [← List.append_assoc]
      refine .cons (.head (before' ++ skipped) tail after' ?_ ?_) (inductionHypothesis ?_)
      · intro run member head isHead
        exact earlier run (heads sameBefore' run member head isHead) head isHead
      · intro run member head isHead
        exact later run (heads sameAfter run member head isHead) head isHead
      · simp only [List.filter_append, List.filter_cons] at sameBefore' ⊢
        rw [sameBefore', sameAfter]

end SortGovernor.Sorting
