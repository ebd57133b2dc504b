import Mathlib.Data.Fintype.EquivFin
import Mathlib.Tactic.Ring
import Sylar.Model.ByteArray.Zigzag
import Sylar.Proofs.ByteArray.Numeric

/-! # Where zigzag is defined

The least value has no negation in its type, and the double of a value that is not negative is in it only for half
of them. Where the arithmetic is defined it is that of the wrapping codec.
-/

namespace Sylar.ByteArray

variable {w : ℕ}

/-- The values whose code is computed without overflow. -/
def ZigzagDefined (v : BitVec w) : Prop := -2 ^ (w - 1) < v.toInt ∧ v.toInt < 2 ^ (w - 2)

/-- Where the signed arithmetic is defined it gives the code, and it is defined for these values only. -/
theorem encodeZigzagSigned_eq_some (wide : 2 ≤ w) {v u : BitVec w} :
    encodeZigzagSigned v = some u ↔ ZigzagDefined v ∧ encodeZigzag v = u := by
  obtain ⟨k, rfl⟩ := Nat.exists_eq_add_of_le' wide
  have low := BitVec.le_toInt v
  have high := BitVec.toInt_lt (x := v)
  have half : (2 : ℤ) ^ (k + 2 - 1) = 2 * 2 ^ k := by rw [show k + 2 - 1 = k + 1 from rfl, pow_succ']
  have quarter : (2 : ℤ) ^ (k + 2 - 2) = 2 ^ k := rfl
  have positive : (0 : ℤ) < 2 ^ k := by positivity
  unfold encodeZigzagSigned encodeZigzag ZigzagDefined
  rw [half] at low high
  rw [BitVec.slt_eq_decide, BitVec.toInt_zero, half, quarter]
  split_ifs with negative chosen chosen
  · simp only [Option.bind_eq_bind, Option.bind_eq_some_iff, signed_eq_some, half]
    have negated : BitVec.ofInt (k + 2) (-v.toInt) = -v := by rw [BitVec.ofInt_neg, BitVec.ofInt_toInt]
    constructor
    · rintro ⟨_, ⟨fits, rfl⟩, same⟩
      rw [negated] at same
      exact ⟨⟨by omega, by omega⟩, Option.some.inj same⟩
    · rintro ⟨range, rfl⟩
      exact ⟨_, ⟨⟨by omega, by omega⟩, rfl⟩, by rw [negated]; rfl⟩
  · exact absurd (decide_eq_true negative) chosen
  · exact absurd (of_decide_eq_true chosen) negative
  · rw [Option.map_eq_some_iff]
    simp only [signed_eq_some, half]
    have doubled : BitVec.ofInt (k + 2) (v.toInt * 2) = v * 2#(k + 2) := by
      rw [BitVec.ofInt_mul, BitVec.ofInt_toInt]
      rfl
    constructor
    · rintro ⟨_, ⟨fits, rfl⟩, rfl⟩
      exact ⟨by omega, doubled.symm⟩
    · rintro ⟨range, rfl⟩
      exact ⟨_, ⟨⟨by omega, by omega⟩, rfl⟩, doubled⟩

/-! ## The code as a number -/

/-- The values of a type alternate between the signs in the order of their codes. -/
theorem toNat_encodeZigzag (wide : 0 < w) (v : BitVec w) :
    ((encodeZigzag v).toNat : ℤ) = if 0 ≤ v.toInt then 2 * v.toInt else -2 * v.toInt - 1 := by
  obtain ⟨k, rfl⟩ := Nat.exists_eq_add_of_le' wide
  have twice : 2 ^ (k + 1) = 2 * 2 ^ k := pow_succ' 2 k
  have low := BitVec.le_toInt v
  have high := BitVec.toInt_lt (x := v)
  rw [Nat.add_sub_cancel] at low high
  have value := BitVec.ofInt_toInt (x := v)
  have fits : ∀ n : ℤ, 0 ≤ n → n < 2 ^ (k + 1) → ((BitVec.ofInt (k + 1) n).toNat : ℤ) = n := by
    intro n notNegative bound
    rw [BitVec.toNat_ofInt, Int.toNat_of_nonneg (Int.emod_nonneg _ (by positivity))]
    exact Int.emod_eq_of_lt notNegative (mod_cast bound)
  have twice' : (2 : ℤ) ^ (k + 1) = 2 * 2 ^ k := pow_succ' 2 k
  have code : encodeZigzag v =
      BitVec.ofInt (k + 1) (if 0 ≤ v.toInt then 2 * v.toInt else -2 * v.toInt - 1) := by
    unfold encodeZigzag
    rw [BitVec.slt_eq_decide, BitVec.toInt_zero]
    split_ifs with negative notNegative notNegative
    · exact absurd (of_decide_eq_true negative) (not_lt.mpr notNegative)
    · rw [show -2 * v.toInt - 1 = -v.toInt * 2 + -1 by ring, BitVec.ofInt_add, BitVec.ofInt_mul,
        BitVec.ofInt_neg, value, BitVec.ofInt_neg]
      exact BitVec.sub_eq_add_neg ..
    · rw [mul_comm, BitVec.ofInt_mul, value]
      rfl
    · exact absurd (decide_eq_true (not_le.mp notNegative)) negative
  rw [code]
  apply fits
  · split_ifs <;> omega
  · split_ifs <;> omega

theorem encodeZigzag_decodeZigzag (wide : 0 < w) (u : BitVec w) : encodeZigzag (decodeZigzag u) = u := by
  have finite : Finite (BitVec w) := Finite.of_injective BitVec.toFin fun _ _ same => BitVec.toFin_inj.mp same
  have inverse : Function.LeftInverse (decodeZigzag (w := w)) encodeZigzag := decodeZigzag_encodeZigzag wide
  exact inverse.rightInverse_of_surjective (Finite.surjective_of_injective inverse.injective) u

/-- The codes of the values whose code is computed without overflow. -/
theorem zigzagDefined_decodeZigzag (wide : 2 ≤ w) (u : BitVec w) :
    ZigzagDefined (decodeZigzag u) ↔ u.toNat + 1 ≠ 2 ^ w ∧ (u.toNat % 2 = 0 → u.toNat < 2 ^ (w - 1)) := by
  have code := toNat_encodeZigzag (by omega) (decodeZigzag u)
  rw [encodeZigzag_decodeZigzag (by omega)] at code
  obtain ⟨k, rfl⟩ := Nat.exists_eq_add_of_le' wide
  have half : (2 : ℤ) ^ (k + 2 - 1) = 2 * 2 ^ k := pow_succ' 2 k
  have half' : 2 ^ (k + 2 - 1) = 2 * 2 ^ k := pow_succ' 2 k
  have whole : 2 ^ (k + 2) = 4 * 2 ^ k := by ring
  have quarter : (2 : ℤ) ^ (k + 2 - 2) = 2 ^ k := rfl
  have cast : ((2 ^ k : ℕ) : ℤ) = 2 ^ k := by push_cast; rfl
  have low := BitVec.le_toInt (decodeZigzag u)
  have bound := u.isLt
  unfold ZigzagDefined
  rw [half, quarter]
  rw [half', whole]
  rw [whole] at bound
  rw [half] at low
  generalize (decodeZigzag u).toInt = v at *
  split_ifs at code <;> omega

/-! ## The result -/

/-- The code of the value is computed without overflow, it alternates between the signs, and it is undone. -/
def Coded (v : BitVec w) : Prop :=
  ∃ u, encodeZigzagSigned v = some u ∧
    (u.toNat : ℤ) = (if 0 ≤ v.toInt then 2 * v.toInt else -2 * v.toInt - 1) ∧ decodeZigzag u = v

theorem coded_iff (wide : 2 ≤ w) (v : BitVec w) : Coded v ↔ ZigzagDefined v := by
  constructor
  · rintro ⟨u, encoded, -⟩
    exact ((encodeZigzagSigned_eq_some wide).mp encoded).1
  · intro defined
    refine ⟨encodeZigzag v, (encodeZigzagSigned_eq_some wide).mpr ⟨defined, rfl⟩, ?_, ?_⟩
    · exact toNat_encodeZigzag (by omega) v
    · exact decodeZigzag_encodeZigzag (by omega) v

theorem encodeZigzagSigned_decodeZigzag_iff (wide : 2 ≤ w) (u : BitVec w) :
    encodeZigzagSigned (decodeZigzag u) = some u ↔
      u.toNat + 1 ≠ 2 ^ w ∧ (u.toNat % 2 = 0 → u.toNat < 2 ^ (w - 1)) := by
  rw [encodeZigzagSigned_eq_some wide, zigzagDefined_decodeZigzag wide]
  exact and_iff_left (encodeZigzag_decodeZigzag (by omega) u)

/-- The code of an `int32_t` or an `int64_t` is computed without overflow, and is then the alternating code that
decoding undoes, exactly for the values above the least one and below half of the positive ones. A code is coded
again after it has been decoded exactly if it is not the last one and, when even, lies in the lower half. -/
theorem zigzag_exact_iff (v32 u32 : BitVec 32) (v64 u64 : BitVec 64) :
    (Coded v32 ↔ -2 ^ 31 < v32.toInt ∧ v32.toInt < 2 ^ 30) ∧
      (Coded v64 ↔ -2 ^ 63 < v64.toInt ∧ v64.toInt < 2 ^ 62) ∧
      (encodeZigzagSigned (decodeZigzag u32) = some u32 ↔
        u32.toNat + 1 ≠ 2 ^ 32 ∧ (u32.toNat % 2 = 0 → u32.toNat < 2 ^ 31)) ∧
      (encodeZigzagSigned (decodeZigzag u64) = some u64 ↔
        u64.toNat + 1 ≠ 2 ^ 64 ∧ (u64.toNat % 2 = 0 → u64.toNat < 2 ^ 63)) :=
  ⟨coded_iff (by decide) v32, coded_iff (by decide) v64, encodeZigzagSigned_decodeZigzag_iff (by decide) u32,
    encodeZigzagSigned_decodeZigzag_iff (by decide) u64⟩

/-- The double of `2 ^ 30` is no `int32_t`, and the least value has no negation. -/
theorem zigzag_overflows : encodeZigzagSigned (1073741824 : BitVec 32) = none ∧
    encodeZigzagSigned (-2147483648 : BitVec 32) = none ∧
    encodeZigzagSigned (4611686018427387904 : BitVec 64) = none ∧
    encodeZigzagSigned (-9223372036854775808 : BitVec 64) = none := by
  decide

end Sylar.ByteArray
