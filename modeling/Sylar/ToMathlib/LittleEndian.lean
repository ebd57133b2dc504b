import Mathlib.Data.Nat.Digits.Lemmas

/-! # Fixed-width little-endian byte strings

`bytesLE n v` cuts the low `n` bytes of a number into a list, least significant first, and `valueLE`
puts such a list together again. Between lists of `n` bytes and numbers below 256 ^ n the two are
inverse to each other, which is all that byte orders and byte swaps rest on.
-/

namespace Nat

/-- The low `n` bytes of `v`, least significant first. -/
def bytesLE : ℕ → ℕ → List (BitVec 8)
  | 0, _ => []
  | n + 1, v => BitVec.ofNat 8 v :: bytesLE n (v / 256)

/-- The number whose bytes, least significant first, are `bytes`. -/
def valueLE (bytes : List (BitVec 8)) : ℕ := Nat.ofDigits 256 (bytes.map BitVec.toNat)

@[simp] theorem length_bytesLE (n v : ℕ) : (bytesLE n v).length = n := by
  induction n generalizing v with
  | zero => rfl
  | succ n ih => rw [bytesLE, List.length_cons, ih]

theorem valueLE_cons (byte : BitVec 8) (bytes : List (BitVec 8)) :
    valueLE (byte :: bytes) = byte.toNat + 256 * valueLE bytes := rfl

theorem valueLE_lt (bytes : List (BitVec 8)) : valueLE bytes < 256 ^ bytes.length := by
  have digits : ∀ x ∈ bytes.map BitVec.toNat, x < 256 := by
    intro x member
    obtain ⟨byte, _, rfl⟩ := List.mem_map.mp member
    exact byte.isLt
  simpa [valueLE] using Nat.ofDigits_lt_base_pow_length (by decide) digits

/-- Cutting a number into `n` bytes keeps it modulo 256 ^ n. -/
theorem valueLE_bytesLE (n v : ℕ) : valueLE (bytesLE n v) = v % 256 ^ n := by
  induction n generalizing v with
  | zero => simp [bytesLE, valueLE, Nat.mod_one]
  | succ n ih =>
    have low : (BitVec.ofNat 8 v).toNat = v % 256 := BitVec.toNat_ofNat v 8
    rw [bytesLE, valueLE_cons, ih, low, Nat.pow_succ', Nat.mod_mul (a := 256)]

/-- A list of bytes is the little-endian form of its value. -/
theorem bytesLE_valueLE (bytes : List (BitVec 8)) : bytesLE bytes.length (valueLE bytes) = bytes := by
  induction bytes with
  | nil => rfl
  | cons byte bytes ih =>
    have low : BitVec.ofNat 8 (byte.toNat + 256 * valueLE bytes) = byte := by
      apply BitVec.eq_of_toNat_eq
      rw [BitVec.toNat_ofNat, Nat.add_mul_mod_self_left, Nat.mod_eq_of_lt byte.isLt]
    have high : (byte.toNat + 256 * valueLE bytes) / 256 = valueLE bytes := by
      have := byte.isLt
      omega
    rw [valueLE_cons, List.length_cons, bytesLE, low, high, ih]

/-! ## Bits -/

theorem testBit_valueLE (bytes : List (BitVec 8)) (i : ℕ) :
    (valueLE bytes).testBit i = (bytes.getD (i / 8) 0).getLsbD (i % 8) := by
  induction bytes generalizing i with
  | nil => simp [valueLE]
  | cons byte bytes ih =>
    have split : valueLE (byte :: bytes) = 2 ^ 8 * valueLE bytes + byte.toNat := by
      rw [valueLE_cons]
      omega
    rw [split, Nat.testBit_two_pow_mul_add _ byte.isLt, ih]
    by_cases first : i < 8
    · rw [if_pos first, Nat.div_eq_of_lt first, Nat.mod_eq_of_lt first]
      rfl
    · obtain ⟨k, rfl⟩ := Nat.exists_eq_add_of_le (not_lt.mp first)
      rw [if_neg first, Nat.add_sub_cancel_left, Nat.add_mod_left, Nat.add_div_left k (by decide)]
      rfl

theorem getD_bytesLE {n k : ℕ} (v : ℕ) (inside : k < n) : (bytesLE n v).getD k 0 = BitVec.ofNat 8 (v >>> (8 * k)) := by
  induction n generalizing v k with
  | zero => cases inside
  | succ n ih =>
    cases k with
    | zero => rfl
    | succ k =>
      rw [bytesLE, List.getD_cons_succ, ih _ (Nat.lt_of_succ_lt_succ inside), Nat.mul_succ, Nat.add_comm (8 * k),
        Nat.shiftRight_add, Nat.shiftRight_eq_div_pow v 8]

end Nat
