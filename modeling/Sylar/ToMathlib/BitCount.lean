import Mathlib.Algebra.BigOperators.Group.List.Basic
import Mathlib.Data.Nat.Digits.Lemmas
import Sylar.ToMathlib.LittleEndian

/-! # Counting the one bits of a number

`n &&& (n - 1)` is `n` without its last one bit, so that a loop that clears it until nothing is left counts the one
bits.
-/

namespace Nat

/-- The one bits of `n`. -/
def bitCount (n : ℕ) : ℕ := (Nat.digits 2 n).sum

@[simp] theorem bitCount_zero : bitCount 0 = 0 := by simp [bitCount]

theorem bitCount_two_mul_add {b : ℕ} (n : ℕ) (bit : b < 2) : bitCount (2 * n + b) = bitCount n + b := by
  rcases Nat.eq_zero_or_pos (2 * n + b) with zero | positive
  · obtain rfl : n = 0 := by omega
    obtain rfl : b = 0 := by omega
    rfl
  · rw [bitCount, Nat.digits_def' (by decide) positive, List.sum_cons, Nat.mul_add_mod, Nat.mod_eq_of_lt bit,
      Nat.mul_add_div (by decide), Nat.div_eq_of_lt bit, Nat.add_zero, Nat.add_comm]
    rfl

/-- The bits of two numbers side by side. -/
theorem bitCount_two_pow_mul_add {k low : ℕ} (high : ℕ) (bound : low < 2 ^ k) :
    bitCount (2 ^ k * high + low) = bitCount high + bitCount low := by
  induction k generalizing low with
  | zero =>
    obtain rfl : low = 0 := by omega
    simp
  | succ k ih =>
    have halves : 2 ^ (k + 1) * high + low = 2 * (2 ^ k * high + low / 2) + low % 2 := by
      rw [Nat.pow_succ', Nat.mul_assoc]
      omega
    have last : bitCount low = bitCount (low / 2) + low % 2 := by
      conv_lhs => rw [← Nat.div_add_mod low 2, bitCount_two_mul_add _ (Nat.mod_lt _ (by decide))]
    rw [halves, bitCount_two_mul_add _ (Nat.mod_lt _ (by decide)), ih (by omega), last, Nat.add_assoc]

theorem bitCount_two_pow_sub_one (k : ℕ) : bitCount (2 ^ k - 1) = k := by
  induction k with
  | zero => rfl
  | succ k ih =>
    have positive := Nat.two_pow_pos k
    have halves : 2 ^ (k + 1) - 1 = 2 * (2 ^ k - 1) + 1 := by omega
    rw [halves, bitCount_two_mul_add _ (by decide), ih]

/-- Clearing the last one bit. -/
theorem bitCount_and_pred {n : ℕ} (positive : 0 < n) : bitCount (n &&& (n - 1)) + 1 = bitCount n := by
  induction n using Nat.strong_induction_on with
  | h n ih =>
    have whole (a b : ℕ) : a &&& b = 2 * (a / 2 &&& b / 2) + (a &&& b) % 2 := by
      rw [← Nat.and_div_two, Nat.div_add_mod]
    rcases Nat.even_or_odd' n with ⟨half, rfl | rfl⟩
    · -- an even number: its last bit is zero, and the one to clear stands in the half
      have pred : (2 * half - 1) / 2 = half - 1 := by omega
      have zero : (2 * half &&& (2 * half - 1)) % 2 = 0 := by simp [Nat.and_mod_two_pow (n := 1)]
      rw [whole, zero, Nat.mul_div_cancel_left _ (by decide), pred, bitCount_two_mul_add _ (by decide)]
      rw [show 2 * half = 2 * half + 0 from rfl, bitCount_two_mul_add _ (by decide)]
      exact ih half (by omega) (by omega)
    · have cleared : (2 * half + 1) &&& (2 * half + 1 - 1) = 2 * half := by
        rw [Nat.add_sub_cancel, whole]
        have zero : ((2 * half + 1) &&& 2 * half) % 2 = 0 := by simp [Nat.and_mod_two_pow (n := 1)]
        have same : (2 * half + 1) / 2 = half := by omega
        rw [zero, same, Nat.mul_div_cancel_left _ (by decide), Nat.and_self, Nat.add_zero]
      rw [cleared, bitCount_two_mul_add _ (by decide)]
      rw [show 2 * half = 2 * half + 0 from rfl, bitCount_two_mul_add _ (by decide)]

theorem bitCount_valueLE (bytes : List (BitVec 8)) :
    bitCount (valueLE bytes) = (bytes.map fun byte => bitCount byte.toNat).sum := by
  induction bytes with
  | nil => simp [valueLE]
  | cons byte bytes ih =>
    have split : valueLE (byte :: bytes) = 2 ^ 8 * valueLE bytes + byte.toNat := by
      rw [valueLE_cons]
      omega
    rw [split, bitCount_two_pow_mul_add _ byte.isLt, ih, List.map_cons, List.sum_cons, Nat.add_comm]

/-- The order of the bytes does not matter. -/
theorem bitCount_valueLE_reverse (bytes : List (BitVec 8)) :
    bitCount (valueLE bytes.reverse) = bitCount (valueLE bytes) := by
  rw [bitCount_valueLE, bitCount_valueLE, List.map_reverse, List.sum_reverse]

end Nat
