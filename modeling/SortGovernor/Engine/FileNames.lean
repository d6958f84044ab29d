import SortGovernor.Engine.Run
import Mathlib.Data.List.Basic

/-!
# Names of scratch files

Ordinals, levels, passes and groups are padded with zeros.  Distinct runs get
distinct names, whatever the numbers.
-/

namespace SortGovernor.Engine

theorem toList_padded (width value : Nat) :
    (padded width value).toList =
      List.replicate (width - (Nat.toDigits 10 value).length) '0' ++ Nat.toDigits 10 value := by
  simp [padded, Nat.toList_repr, ← String.length_toList]

theorem padded_injective {width left right : Nat} (same : padded width left = padded width right) :
    left = right := by
  have digits := congrArg (fun text => Nat.ofDigitChars 10 text.toList 0) same
  simpa [toList_padded, Nat.ofDigitChars_append] using digits

theorem length_padded {width value : Nat} (fits : value < 10 ^ width) (positive : 0 < width) :
    (padded width value).toList.length = width := by
  have short := (Nat.length_toDigits_le_iff (b := 10) (by decide) positive).mpr fits
  rw [toList_padded, List.length_append, List.length_replicate]
  omega

theorem isDigit_of_mem_padded {width value : Nat} {char : Char}
    (member : char ∈ (padded width value).toList) : char.isDigit = true := by
  rw [toList_padded, List.mem_append, List.mem_replicate] at member
  obtain ⟨-, rfl⟩ | member := member
  · rfl
  · exact Nat.isDigit_of_mem_toDigits (by decide) (by decide) member

theorem dash_notMem_padded (width value : Nat) : '-' ∉ (padded width value).toList :=
  fun member => absurd (isDigit_of_mem_padded member) (by decide)

theorem padded_pair_injective {width width' left left' right right' : Nat} {tail : List Char}
    (clean : '-' ∉ tail)
    (same : (padded width left).toList ++ '-' :: ((padded width' right).toList ++ tail) =
      (padded width left').toList ++ '-' :: ((padded width' right').toList ++ tail)) :
    left = left' ∧ right = right' := by
  have dashless : '-' ∉ (padded width' right).toList ++ tail := by
    rw [List.mem_append, not_or]
    exact ⟨dash_notMem_padded width' right, clean⟩
  have parts := (List.append_cons_inj_of_notMem (dash_notMem_padded width left) dashless).mp same
  have numbers := List.append_cancel_right parts.2.2
  exact ⟨padded_injective (String.toList_inj.mp parts.1),
    padded_injective (String.toList_inj.mp numbers)⟩

theorem ScratchFile.fileName_injective {left right : ScratchFile}
    (same : left.fileName = right.fileName) : left = right := by
  have dash : "-".toList = ['-'] := rfl
  have suffix : ".cbor".toList = ['.', 'c', 'b', 'o', 'r'] := rfl
  have run : "run-".toList = ['r', 'u', 'n', '-'] := rfl
  have carry : "carry-".toList = ['c', 'a', 'r', 'r', 'y', '-'] := rfl
  have merge : "merge-".toList = ['m', 'e', 'r', 'g', 'e', '-'] := rfl
  have rows : "rows.cbor".toList = ['r', 'o', 'w', 's', '.', 'c', 'b', 'o', 'r'] := rfl
  have clean : '-' ∉ ['.', 'c', 'b', 'o', 'r'] := by decide
  have same := congrArg String.toList same
  cases left <;> cases right <;>
    simp only [fileName, String.toList_append, List.append_assoc, dash, suffix, run, carry, merge,
      rows, List.cons_append, List.nil_append, List.cons.injEq, Char.reduceEq,
      true_and, false_and, and_false] at same
  case run.run ordinal ordinal' =>
    have numbers := List.append_cancel_right same
    rw [padded_injective (String.toList_inj.mp numbers)]
  case carry.carry ordinal level ordinal' level' =>
    obtain ⟨rfl, rfl⟩ := padded_pair_injective clean same
    rfl
  case merge.merge pass group pass' group' =>
    obtain ⟨rfl, rfl⟩ := padded_pair_injective clean same
    rfl
  case rows.rows => rfl

end SortGovernor.Engine
