import Mathlib.Algebra.Order.Monoid.Unbundled.Pow
import Mathlib.Tactic.Ring

/-!
# Fixed-width little-endian numbers
-/

namespace SortGovernor.Bytes

/-- The low `width` bytes of a number, least significant first. -/
def toLittleEndian : (width : Nat) → Nat → List UInt8
  | 0, _ => []
  | width + 1, n => UInt8.ofNat (n % 256) :: toLittleEndian width (n / 256)

/-- The number a little-endian byte string denotes. -/
def ofLittleEndian : List UInt8 → Nat
  | [] => 0
  | byte :: rest => byte.toNat + 256 * ofLittleEndian rest

@[simp]
theorem length_toLittleEndian (width n : Nat) : (toLittleEndian width n).length = width := by
  induction width generalizing n with
  | zero => rfl
  | succ width inductionHypothesis => simp [toLittleEndian, inductionHypothesis]

theorem ofLittleEndian_toLittleEndian (width n : Nat) (fits : n < 256 ^ width) :
    ofLittleEndian (toLittleEndian width n) = n := by
  induction width generalizing n with
  | zero =>
      simp only [pow_zero, Nat.lt_one_iff] at fits
      simp [toLittleEndian, ofLittleEndian, fits]
  | succ width inductionHypothesis =>
      have tail : n / 256 < 256 ^ width := by
        rw [pow_succ] at fits
        omega
      simp only [toLittleEndian, ofLittleEndian, inductionHypothesis _ tail]
      have low : (UInt8.ofNat (n % 256)).toNat = n % 256 := by
        simp
      rw [low]
      omega

theorem ofLittleEndian_lt (bytes : List UInt8) : ofLittleEndian bytes < 256 ^ bytes.length := by
  induction bytes with
  | nil => simp [ofLittleEndian]
  | cons byte rest inductionHypothesis =>
      have low := byte.toNat_lt
      simp only [ofLittleEndian, List.length_cons, pow_succ]
      omega

end SortGovernor.Bytes
