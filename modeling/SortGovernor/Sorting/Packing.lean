import Mathlib.Algebra.Group.Nat.Defs
import Mathlib.Order.Nat

/-!
# Next-fit packing

Items arrive one after another and go into the open bin.  A bin is closed when
the next item does not fit, or when it is full.  Two bins closed one after the
other hold more than the capacity of one.
-/

namespace SortGovernor.Sorting

/-- After `closed` bins with `packed` in them and `held` in the open one: every
pair of closed bins is over the capacity, and so will be a last odd one together
with the open bin. -/
structure NextFit (capacity closed packed held : Nat) : Prop where
  pairs : closed / 2 * (capacity + 1) ≤ packed
  odd : closed % 2 = 1 → ∃ last, closed / 2 * (capacity + 1) + last ≤ packed ∧
    (capacity ≤ last ∨ capacity < last + held)

namespace NextFit

variable {capacity closed packed held item : Nat}

theorem empty (capacity : Nat) : NextFit capacity 0 0 0 where
  pairs := by simp
  odd := by simp

theorem put (fit : NextFit capacity closed packed held) :
    NextFit capacity closed packed (held + item) where
  pairs := fit.pairs
  odd := by
    intro odd
    obtain ⟨last, total, exceeded⟩ := fit.odd odd
    exact ⟨last, total, by omega⟩

/-- The open bin is closed, full or because of the item that follows. -/
theorem close (fit : NextFit capacity closed packed held) (nonempty : 0 < held)
    (exceeded : capacity ≤ held ∨ capacity < held + item) :
    NextFit capacity (closed + 1) (packed + held) item := by
  have parity := Nat.mod_two_eq_zero_or_one closed
  obtain even | odd := parity
  · have half : (closed + 1) / 2 = closed / 2 := by omega
    constructor
    · rw [half]
      exact fit.pairs.trans (Nat.le_add_right _ _)
    · intro _
      refine ⟨held, ?_, exceeded⟩
      rw [half]
      exact Nat.add_le_add_right fit.pairs held
  · have half : (closed + 1) / 2 = closed / 2 + 1 := by omega
    obtain ⟨last, total, full⟩ := fit.odd odd
    constructor
    · rw [half, Nat.succ_mul]
      omega
    · omega

theorem count (fit : NextFit capacity closed packed held) :
    closed + (if held = 0 then 0 else 1) ≤ 2 * ((packed + held) / (capacity + 1)) + 1 := by
  have room : 0 < capacity + 1 := Nat.succ_pos capacity
  have pairs : closed / 2 ≤ (packed + held) / (capacity + 1) := by
    rw [Nat.le_div_iff_mul_le room]
    exact fit.pairs.trans (Nat.le_add_right _ _)
  have parity := Nat.mod_two_eq_zero_or_one closed
  split
  · omega
  · obtain even | odd := parity
    · omega
    · obtain ⟨last, total, exceeded⟩ := fit.odd odd
      have next : closed / 2 + 1 ≤ (packed + held) / (capacity + 1) := by
        rw [Nat.le_div_iff_mul_le room, Nat.add_mul, Nat.one_mul]
        omega
      omega

end NextFit

end SortGovernor.Sorting
