import Sylar.Model.Address.Prefix
import Sylar.Proofs.ByteArray.Fixed
import Sylar.ToMathlib.BitCount

/-! # Masks and byte order

A mask is a number with leading ones, and `CreateMask` its complement. Swapping the bytes moves the bits of a number,
which the bitwise operations and the count of the ones do not notice.
-/

namespace Sylar

variable {w n p : ℕ} {platform : Platform}

/-! ## Masks -/

/-- The number of `w` bits whose `p` leading bits are ones. -/
def leadingOnes (w p : ℕ) : BitVec w := ~~~(BitVec.allOnes w >>> p)

theorem getMsbD_leadingOnes {i : ℕ} (inside : i < w) : (leadingOnes w p).getMsbD i = decide (i < p) := by
  rw [leadingOnes, BitVec.getMsbD_not, BitVec.getMsbD_ushiftRight, BitVec.getMsbD_allOnes]
  by_cases leading : i < p
  · simp [inside, leading]
  · have still : i - p < w := by omega
    simp [inside, leading, still]

theorem toNat_allOnes_shiftRight (fits : p ≤ w) : (BitVec.allOnes w >>> p).toNat = 2 ^ (w - p) - 1 := by
  obtain ⟨k, rfl⟩ := Nat.exists_eq_add_of_le fits
  have positive := Nat.two_pow_pos k
  rw [BitVec.toNat_ushiftRight, BitVec.toNat_allOnes, Nat.add_sub_cancel_left, Nat.shiftRight_eq_div_pow, Nat.pow_add]
  apply Nat.div_eq_of_lt_le
  · rw [Nat.sub_mul, Nat.one_mul, Nat.mul_comm]
    have := Nat.two_pow_pos p
    omega
  · rw [Nat.sub_add_cancel positive, Nat.mul_comm]
    exact Nat.sub_lt (Nat.mul_pos positive (Nat.two_pow_pos p)) Nat.one_pos

theorem bitCount_leadingOnes (fits : p ≤ w) : Nat.bitCount (leadingOnes w p).toNat = p := by
  have whole : 2 ^ w = 2 ^ (w - p) * 2 ^ p := by rw [← Nat.pow_add, Nat.sub_add_cancel fits]
  have value : (leadingOnes w p).toNat = 2 ^ (w - p) * (2 ^ p - 1) + 0 := by
    have := Nat.two_pow_pos (w - p)
    rw [leadingOnes, BitVec.toNat_not, toNat_allOnes_shiftRight fits, whole, Nat.mul_sub, Nat.mul_one]
    omega
  rw [value, Nat.bitCount_two_pow_mul_add _ (Nat.two_pow_pos _), Nat.bitCount_two_pow_sub_one, Nat.bitCount_zero,
    Nat.add_zero]

/-- The shift count is the number of the bits behind the prefix. -/
theorem createMask_count {bits : BitVec 32} (narrow : w ≤ 32) (fits : bits.toNat ≤ w) :
    (BitVec.ofNat 64 w - bits.setWidth 64).toNat = w - bits.toNat := by
  have long : (BitVec.ofNat 64 w).toNat = w := by
    rw [BitVec.toNat_ofNat]
    exact Nat.mod_eq_of_lt (by omega)
  have extended : (bits.setWidth 64).toNat = bits.toNat := BitVec.toNat_setWidth_of_le (by decide)
  rw [BitVec.toNat_sub_of_le, long, extended]
  rw [BitVec.le_def, long, extended]
  exact fits

/-- Below the sign bit of an `int` the mask has its ones behind the prefix. -/
theorem createMask_eq {bits : BitVec 32} (narrow : w ≤ 32) (fits : bits.toNat ≤ w) (small : w - bits.toNat < 31) :
    createMask w bits = .ok (BitVec.allOnes w >>> bits.toNat) := by
  have power : 2 ^ (w - bits.toNat) < 2 ^ 31 := Nat.pow_lt_pow_right (by decide) small
  have shifted : (1#32 <<< (w - bits.toNat)).toNat = 2 ^ (w - bits.toNat) := by
    rw [BitVec.toNat_shiftLeft, BitVec.toNat_ofNat, Nat.shiftLeft_eq]
    exact (Nat.mod_eq_of_lt (by omega)).trans (Nat.one_mul _)
  have value : (1#32 <<< (w - bits.toNat)).toInt - 1 = ((2 ^ (w - bits.toNat) - 1 : ℕ) : ℤ) := by
    have := Nat.two_pow_pos (w - bits.toNat)
    rw [BitVec.toInt_eq_toNat_of_lt (by omega), shifted]
    omega
  have fitting : signed 32 ((2 ^ (w - bits.toNat) - 1 : ℕ) : ℤ) = some ((2 ^ (w - bits.toNat) - 1 : ℕ) : ℤ) :=
    signed_eq_some.mpr ⟨⟨by omega, by omega⟩, rfl⟩
  rw [createMask, createMask_count narrow fits, if_neg (by omega), value, fitting]
  refine congrArg Except.ok (BitVec.eq_of_toNat_eq ?_)
  rw [BitVec.ofInt_natCast, BitVec.toNat_ofNat, toNat_allOnes_shiftRight fits]
  refine Nat.mod_eq_of_lt (lt_of_lt_of_le (Nat.sub_lt (Nat.two_pow_pos _) Nat.one_pos) ?_)
  exact Nat.pow_le_pow_right (by decide) (Nat.sub_le _ _)

/-! ## Byte order -/

theorem getLsbD_byteswap (v : BitVec (8 * n)) {i : ℕ} (inside : i < 8 * n) :
    (byteswap n v).getLsbD i = v.getLsbD (8 * (n - 1 - i / 8) + i % 8) := by
  have byte : i / 8 < n := Nat.div_lt_of_lt_mul inside
  have mirrored : (Nat.bytesLE n v.toNat).reverse.getD (i / 8) 0 = (Nat.bytesLE n v.toNat).getD (n - 1 - i / 8) 0 := by
    rw [List.getD_eq_getElem?_getD, List.getD_eq_getElem?_getD, List.getElem?_reverse (by simpa using byte),
      Nat.length_bytesLE]
  rw [byteswap, BitVec.getLsbD_ofNat, Nat.testBit_valueLE, mirrored, Nat.getD_bytesLE _ (by omega),
    BitVec.getLsbD_ofNat, Nat.testBit_shiftRight, decide_eq_true inside, decide_eq_true (Nat.mod_lt i (by decide))]
  rfl

private theorem mirror_lt {i : ℕ} (inside : i < 8 * n) : 8 * (n - 1 - i / 8) + i % 8 < 8 * n := by omega

theorem byteswap_not (v : BitVec (8 * n)) : byteswap n (~~~v) = ~~~byteswap n v := by
  apply BitVec.eq_of_getLsbD_eq
  intro i inside
  rw [getLsbD_byteswap _ inside, BitVec.getLsbD_not, BitVec.getLsbD_not, getLsbD_byteswap _ inside,
    decide_eq_true (mirror_lt inside), decide_eq_true inside]

theorem byteswap_and (u v : BitVec (8 * n)) : byteswap n (u &&& v) = byteswap n u &&& byteswap n v := by
  apply BitVec.eq_of_getLsbD_eq
  intro i inside
  rw [getLsbD_byteswap _ inside, BitVec.getLsbD_and, BitVec.getLsbD_and, getLsbD_byteswap _ inside,
    getLsbD_byteswap _ inside]

theorem byteswap_or (u v : BitVec (8 * n)) : byteswap n (u ||| v) = byteswap n u ||| byteswap n v := by
  apply BitVec.eq_of_getLsbD_eq
  intro i inside
  rw [getLsbD_byteswap _ inside, BitVec.getLsbD_or, BitVec.getLsbD_or, getLsbD_byteswap _ inside,
    getLsbD_byteswap _ inside]

theorem bitCount_byteswap (v : BitVec (8 * n)) : Nat.bitCount (byteswap n v).toNat = Nat.bitCount v.toNat := by
  have power : 256 ^ n = 2 ^ (8 * n) := (Nat.pow_mul 2 8 n).symm
  have bound := Nat.valueLE_lt (Nat.bytesLE n v.toNat).reverse
  rw [List.length_reverse, Nat.length_bytesLE, power] at bound
  rw [byteswap, BitVec.toNat_ofNat, Nat.mod_eq_of_lt bound, Nat.bitCount_valueLE_reverse, Nat.valueLE_bytesLE, power,
    Nat.mod_eq_of_lt v.isLt]

namespace Platform

theorem byteswapOnLittleEndian_twice (v : BitVec (8 * n)) :
    platform.byteswapOnLittleEndian n (platform.byteswapOnLittleEndian n v) = v := by
  unfold byteswapOnLittleEndian
  cases platform.byteOrder with
  | littleEndian => exact byteswap_byteswap v
  | bigEndian => rfl

theorem byteswapOnLittleEndian_not (v : BitVec (8 * n)) :
    platform.byteswapOnLittleEndian n (~~~v) = ~~~platform.byteswapOnLittleEndian n v := by
  unfold byteswapOnLittleEndian
  cases platform.byteOrder with
  | littleEndian => exact byteswap_not v
  | bigEndian => rfl

theorem byteswapOnLittleEndian_and (u v : BitVec (8 * n)) :
    platform.byteswapOnLittleEndian n (u &&& v) =
      platform.byteswapOnLittleEndian n u &&& platform.byteswapOnLittleEndian n v := by
  unfold byteswapOnLittleEndian
  cases platform.byteOrder with
  | littleEndian => exact byteswap_and u v
  | bigEndian => rfl

theorem byteswapOnLittleEndian_or (u v : BitVec (8 * n)) :
    platform.byteswapOnLittleEndian n (u ||| v) =
      platform.byteswapOnLittleEndian n u ||| platform.byteswapOnLittleEndian n v := by
  unfold byteswapOnLittleEndian
  cases platform.byteOrder with
  | littleEndian => exact byteswap_or u v
  | bigEndian => rfl

theorem bitCount_byteswapOnLittleEndian (v : BitVec (8 * n)) :
    Nat.bitCount (platform.byteswapOnLittleEndian n v).toNat = Nat.bitCount v.toNat := by
  unfold byteswapOnLittleEndian
  cases platform.byteOrder with
  | littleEndian => exact bitCount_byteswap v
  | bigEndian => rfl

end Platform

/-! ## `CountBytes` -/

theorem toNat_and_sub_one {value : BitVec w} (rest : value ≠ 0#w) :
    (value &&& value - 1#w).toNat = value.toNat &&& (value.toNat - 1) := by
  have positive : 0 < value.toNat := Nat.pos_of_ne_zero fun zero => rest (BitVec.eq_of_toNat_eq zero)
  have wide : w ≠ 0 := by
    rintro rfl
    exact rest BitVec.of_length_zero
  have one : (1#w).toNat = 1 := by
    rw [BitVec.toNat_ofNat]
    exact Nat.mod_eq_of_lt (Nat.one_lt_two_pow wide)
  rw [BitVec.toNat_and, BitVec.toNat_sub_of_le (by rw [BitVec.le_def, one]; exact positive), one]

theorem countBytesLoop_eq (value : BitVec w) (result : BitVec 32) :
    countBytesLoop value result = result + BitVec.ofNat 32 (Nat.bitCount value.toNat) := by
  induction value, result using countBytesLoop.induct with
  | case1 result =>
    rw [countBytesLoop, if_pos rfl]
    simp
  | case2 value result rest ih =>
    have positive : 0 < value.toNat := Nat.pos_of_ne_zero fun zero => rest (BitVec.eq_of_toNat_eq zero)
    rw [countBytesLoop, if_neg rest, ih, toNat_and_sub_one rest, ← Nat.bitCount_and_pred positive, BitVec.ofNat_add,
      BitVec.add_assoc, BitVec.add_comm 1]
    rfl

theorem countBytes_eq (value : BitVec w) : countBytes value = BitVec.ofNat 32 (Nat.bitCount value.toNat) := by
  rw [countBytes, countBytesLoop_eq]
  exact BitVec.zero_add _

end Sylar
