import Mathlib.Order.Lattice
import Mathlib.Data.List.Perm.Basic

/-!
# A priority queue by rank

The queue is the list of its entries.  `popMin` removes an entry of least rank;
which one among equals is left to the order of the list, as a binary heap
leaves it to its layout.
-/

namespace SortGovernor.Sorting

variable {Alpha Rank : Type} [LinearOrder Rank] (rank : Alpha → Rank)

/-- Remove an entry of least rank. -/
def popMin : List Alpha → Option (Alpha × List Alpha)
  | [] => none
  | entry :: rest =>
      match popMin rest with
      | none => some (entry, [])
      | some (least, others) =>
          if rank entry ≤ rank least then some (entry, least :: others)
          else some (least, entry :: others)

theorem popMin_eq_none {queue : List Alpha} : popMin rank queue = none ↔ queue = [] := by
  cases queue with
  | nil => simp [popMin]
  | cons entry rest =>
      simp only [popMin, reduceCtorEq, iff_false]
      split
      · simp
      · split <;> simp

theorem popMin_perm {queue others : List Alpha} {least : Alpha}
    (popped : popMin rank queue = some (least, others)) : queue.Perm (least :: others) := by
  induction queue generalizing least others with
  | nil => simp [popMin] at popped
  | cons entry rest inductionHypothesis =>
      simp only [popMin] at popped
      split at popped
      · rename_i empty
        cases popped
        rw [(popMin_eq_none rank).mp empty]
      · rename_i least' others' found
        have tail := inductionHypothesis found
        split at popped
        · cases popped
          exact tail.cons _
        · cases popped
          exact (tail.cons _).trans (List.Perm.swap _ _ _)

theorem popMin_le {queue others : List Alpha} {least : Alpha}
    (popped : popMin rank queue = some (least, others)) :
    ∀ entry ∈ queue, rank least ≤ rank entry := by
  induction queue generalizing least others with
  | nil => simp
  | cons entry rest inductionHypothesis =>
      simp only [popMin] at popped
      split at popped
      · rename_i empty
        cases popped
        rw [(popMin_eq_none rank).mp empty]
        simp
      · rename_i least' others' found
        have tail := inductionHypothesis found
        split at popped
        · rename_i order
          cases popped
          intro other member
          rcases List.mem_cons.mp member with equal | inRest
          · exact le_of_eq (congrArg rank equal.symm)
          · exact le_trans order (tail other inRest)
        · rename_i order
          cases popped
          intro other member
          rcases List.mem_cons.mp member with equal | inRest
          · exact equal ▸ le_of_lt (lt_of_not_ge order)
          · exact tail other inRest

end SortGovernor.Sorting
