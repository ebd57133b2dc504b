import Mathlib.Algebra.Group.Int.Defs
import Mathlib.Algebra.Group.Nat.Defs
import Mathlib.Data.Int.Notation
import Mathlib.Data.Nat.Notation
import Mathlib.Tactic.SplitIfs

/-! # A size converted to `int` -/

namespace Sylar

/-- The `int` that a `size_t` or `int64_t` of this value is converted to. -/
def intOf (n : ℕ) : ℤ := (BitVec.ofNat 32 n).toInt

theorem intOf_of_lt {n : ℕ} (small : n < 2 ^ 31) : intOf n = n := by
  have same : (BitVec.ofNat 32 n).toNat = n := by
    rw [BitVec.toNat_ofNat]
    exact Nat.mod_eq_of_lt (Nat.lt_trans small (by decide))
  rw [intOf, BitVec.toInt_eq_toNat_of_lt (by omega), same]

/-- The value is kept up to multiples of `2 ^ 32`. -/
theorem intOf_eq (n : ℕ) :
    intOf n = if n % 2 ^ 32 < 2 ^ 31 then (n : ℤ) % 2 ^ 32 else (n : ℤ) % 2 ^ 32 - 2 ^ 32 := by
  rw [intOf, BitVec.toInt_eq_toNat_bmod, BitVec.toNat_ofNat, Int.bmod]
  split_ifs <;> omega

theorem intOf_le (n : ℕ) : intOf n ≤ n := by
  rw [intOf_eq]
  split_ifs <;> omega

theorem intOf_lt (n : ℕ) : intOf n < 2 ^ 31 := by
  rw [intOf_eq]
  split_ifs <;> omega

/-- A size just too large for an `int` becomes negative. -/
theorem intOf_neg {n : ℕ} (large : 2 ^ 31 ≤ n) (bounded : n < 2 ^ 32) : intOf n < 0 := by
  rw [intOf, BitVec.toInt_eq_toNat_bmod, BitVec.toNat_ofNat, Nat.mod_eq_of_lt bounded]
  simp only [Int.bmod]
  omega

end Sylar
