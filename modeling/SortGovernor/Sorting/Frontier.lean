import Mathlib.Data.List.Forall2
import Mathlib.Data.Nat.Bitwise
import Mathlib.Tactic.Positivity
import Mathlib.Tactic.Ring

/-!
# A binary counter of blocks

Slot `i` of a frontier is empty or holds the block of `2 ^ i` consecutive items
that bit `i` of their number stands for; higher slots hold older items.
-/

namespace SortGovernor.Sorting

variable {Slot Item : Type} {holds holds' : Slot → List Item → Prop}

/-- `slots` hold exactly `items`, blocks of `size` in the first of them and of
twice the size from one slot to the next. -/
def Slots (holds : Slot → List Item → Prop) : Nat → List (Option Slot) → List Item → Prop
  | _, [], items => items = []
  | size, none :: slots, items => Slots holds (2 * size) slots items
  | size, some slot :: slots, items => ∃ older newer, items = older ++ newer ∧
      newer.length = size ∧ holds slot newer ∧ Slots holds (2 * size) slots older

namespace Slots

variable {size : Nat} {slots : List (Option Slot)} {items : List Item}

theorem imp (filled : Slots holds size slots items)
    (implies : ∀ slot ∈ slots.filterMap id, ∀ block, holds slot block → holds' slot block) :
    Slots holds' size slots items := by
  induction slots generalizing size items with
  | nil => exact filled
  | cons slot slots inductionHypothesis =>
      cases slot with
      | none =>
          have rest : Slots holds (2 * size) slots items := filled
          exact inductionHypothesis rest implies
      | some slot =>
          rcases filled with ⟨older, newer, split, length, block, rest⟩
          refine ⟨older, newer, split, length, implies slot (by simp) newer block, ?_⟩
          exact inductionHypothesis rest fun other member => implies other (by simp_all)

theorem of_empty (count : Nat) : Slots holds size (List.replicate count none) [] := by
  induction count generalizing size with
  | zero => rfl
  | succ count inductionHypothesis => exact inductionHypothesis

theorem exists_blocks (filled : Slots holds size slots items) :
    ∃ blocks, List.Forall₂ holds (slots.filterMap id).reverse blocks ∧ blocks.flatten = items := by
  induction slots generalizing size items with
  | nil =>
      cases filled
      exact ⟨[], .nil, rfl⟩
  | cons slot slots inductionHypothesis =>
      cases slot with
      | none => exact inductionHypothesis filled
      | some slot =>
          rcases filled with ⟨older, newer, rfl, -, block, rest⟩
          rcases inductionHypothesis rest with ⟨blocks, each, rfl⟩
          refine ⟨blocks ++ [newer], ?_, by simp⟩
          have whole := List.rel_append each (List.Forall₂.cons block .nil)
          simpa using whole

theorem exists_length (filled : Slots holds size slots items) :
    ∃ count, items.length = size * count := by
  induction slots generalizing size items with
  | nil =>
      cases filled
      exact ⟨0, rfl⟩
  | cons slot slots inductionHypothesis =>
      cases slot with
      | none =>
          rcases inductionHypothesis filled with ⟨count, length⟩
          exact ⟨2 * count, by rw [length]; ring⟩
      | some slot =>
          rcases filled with ⟨older, newer, rfl, length', -, rest⟩
          rcases inductionHypothesis rest with ⟨count, length⟩
          exact ⟨2 * count + 1, by rw [List.length_append, length, length']; ring⟩

theorem exists_half {count : Nat} {slot : Option Slot}
    (filled : Slots holds size (slot :: slots) items)
    (positive : 0 < size) (length : items.length = size * count) :
    ∃ half older, Slots holds (2 * size) slots older ∧ older.length = 2 * size * half ∧
      ((slot = none ∧ count = 2 * half ∧ items = older) ∨
        ∃ path newer, slot = some path ∧ count = 2 * half + 1 ∧ items = older ++ newer ∧
          newer.length = size ∧ holds path newer) := by
  cases slot with
  | none =>
      have rest : Slots holds (2 * size) slots items := filled
      rcases rest.exists_length with ⟨half, length'⟩
      refine ⟨half, items, rest, length', .inl ⟨rfl, ?_, rfl⟩⟩
      have same : size * count = size * (2 * half) := by
        rw [← length, length']
        ring
      exact Nat.eq_of_mul_eq_mul_left positive same
  | some path =>
      rcases filled with ⟨older, newer, rfl, newerLength, block, rest⟩
      rcases rest.exists_length with ⟨half, length'⟩
      refine ⟨half, older, rest, length', .inr ⟨path, newer, rfl, ?_, rfl, newerLength, block⟩⟩
      have same : size * count = size * (2 * half + 1) := by
        rw [← length, List.length_append, length', newerLength]
        ring
      exact Nat.eq_of_mul_eq_mul_left positive same

/-- A slot is occupied if and only if its bit of the number of blocks is set. -/
theorem occupied_iff {count : Nat} (filled : Slots holds size slots items) (positive : 0 < size)
    (length : items.length = size * count) (level : Nat) :
    (∃ slot, slots[level]? = some (some slot)) ↔ count.testBit level = true := by
  induction slots generalizing size items count level with
  | nil =>
      cases filled
      have zero : count = 0 := by
        simpa [Nat.ne_of_gt positive] using length.symm
      simp [zero]
  | cons slot slots inductionHypothesis =>
      rcases filled.exists_half positive length with ⟨half, older, rest, length', low⟩
      have halves : count / 2 = half := by
        rcases low with ⟨-, rfl, -⟩ | ⟨path, newer, -, rfl, -⟩ <;> omega
      cases level with
      | zero =>
          rw [Nat.testBit_zero]
          rcases low with ⟨rfl, rfl, -⟩ | ⟨path, newer, rfl, rfl, -⟩
          · simp
          · simp
      | succ level =>
          rw [Nat.testBit_add_one, halves, List.getElem?_cons_succ]
          exact inductionHypothesis rest (by omega) length' level

/-- How many blocks are older than the one in a slot, of `count` in all. -/
def blockStart (count level : Nat) : Nat :=
  count / 2 ^ (level + 1) * 2 ^ (level + 1)

theorem blockStart_succ (count level : Nat) :
    blockStart count (level + 1) = 2 * blockStart (count / 2) level := by
  unfold blockStart
  rw [Nat.div_div_eq_div_mul, ← Nat.pow_succ', pow_succ 2 (level + 1)]
  ring

theorem blockStart_add_le {count level : Nat} (set : count.testBit level = true) :
    blockStart count level + 2 ^ level ≤ count := by
  have low : count / 2 ^ level % 2 = 1 := by
    simpa [Nat.testBit, Nat.shiftRight_eq_div_pow] using set
  have split := Nat.div_add_mod count (2 ^ level)
  have split' := Nat.div_add_mod (count / 2 ^ level) 2
  rw [low, Nat.div_div_eq_div_mul, ← pow_succ] at split'
  unfold blockStart
  calc count / 2 ^ (level + 1) * 2 ^ (level + 1) + 2 ^ level
      = 2 ^ level * (2 * (count / 2 ^ (level + 1)) + 1) := by ring
    _ ≤ count := by
        rw [split']
        omega

theorem blockStart_add_le_blockStart {count lower higher : Nat} (less : lower < higher)
    (set : count.testBit higher = true) :
    blockStart count higher + 2 ^ higher ≤ blockStart count lower := by
  have within := blockStart_add_le set
  rcases Nat.exists_eq_add_of_le less with ⟨gap, rfl⟩
  have whole : blockStart count (lower + 1 + gap) + 2 ^ (lower + 1 + gap) =
      (count / 2 ^ (lower + 1 + gap + 1) * 2 ^ (gap + 1) + 2 ^ gap) * 2 ^ (lower + 1) := by
    unfold blockStart
    ring
  rw [whole] at within ⊢
  exact Nat.mul_le_mul_right _ ((Nat.le_div_iff_mul_le (by positivity)).mpr within)

/-- An occupied slot holds the items its bit stands for. -/
theorem block {count : Nat} (filled : Slots holds size slots items) (positive : 0 < size)
    (length : items.length = size * count) {level : Nat} {slot : Slot}
    (found : slots[level]? = some (some slot)) :
    holds slot ((items.drop (size * blockStart count level)).take (size * 2 ^ level)) := by
  induction slots generalizing size items count level with
  | nil => cases found
  | cons first slots inductionHypothesis =>
      rcases filled.exists_half positive length with ⟨half, older, rest, length', low⟩
      have halves : count / 2 = half := by
        rcases low with ⟨-, rfl, -⟩ | ⟨path, newer, -, rfl, -⟩ <;> omega
      cases level with
      | zero =>
          rw [List.getElem?_cons_zero] at found
          cases found
          rcases low with ⟨none, -⟩ | ⟨path, newer, same, rfl, rfl, newerLength, block⟩
          · cases none
          · cases same
            have start : size * blockStart (2 * half + 1) 0 = older.length := by
              rw [blockStart, Nat.zero_add, pow_one, halves, length']
              ring
            rwa [start, List.drop_left, pow_zero, Nat.mul_one, ← newerLength, List.take_length]
      | succ level =>
          rw [List.getElem?_cons_succ] at found
          have block := inductionHypothesis rest (by omega) length' found
          have start : size * blockStart count (level + 1) = 2 * size * blockStart half level := by
            rw [blockStart_succ, halves]
            ring
          have width : size * 2 ^ (level + 1) = 2 * size * 2 ^ level := by ring
          rw [start, width]
          rcases low with ⟨-, -, rfl⟩ | ⟨path, newer, -, -, rfl, -⟩
          · exact block
          · have set : half.testBit level = true :=
              (rest.occupied_iff (by omega) length' level).mp ⟨slot, found⟩
            have inside : 2 * size * blockStart half level + 2 * size * 2 ^ level ≤
                older.length := by
              rw [length', ← Nat.mul_add]
              exact Nat.mul_le_mul_left _ (blockStart_add_le set)
            rw [List.drop_append_of_le_length (by omega), List.take_append_of_le_length]
            · exact block
            · rw [List.length_drop]
              omega

end Slots

end SortGovernor.Sorting
