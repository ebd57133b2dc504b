import Sylar.Model.ByteArray.Codec
import Sylar.Proofs.ByteArray.Records

/-! # The fixed-width codecs are matched

A fixed-width value goes through memory and, on a foreign byte order, through two byte swaps that
cancel.
-/

namespace Sylar

/-! ## Memory images -/

private theorem two_pow_eight_mul (n : ℕ) : 2 ^ (8 * n) = 256 ^ n := by
  rw [Nat.pow_mul]

private theorem ofNat_valueLE_bytesLE {n : ℕ} (value : BitVec (8 * n)) :
    BitVec.ofNat (8 * n) (Nat.valueLE (Nat.bytesLE n value.toNat)) = value := by
  apply BitVec.eq_of_toNat_eq
  have bound : value.toNat < 256 ^ n := two_pow_eight_mul n ▸ value.isLt
  rw [Nat.valueLE_bytesLE, BitVec.toNat_ofNat, Nat.mod_eq_of_lt bound, Nat.mod_eq_of_lt value.isLt]

theorem bytesLE_ofNat_valueLE {n : ℕ} {bytes : List Byte} (length : bytes.length = n) :
    Nat.bytesLE n (BitVec.ofNat (8 * n) (Nat.valueLE bytes)).toNat = bytes := by
  have bound := Nat.valueLE_lt bytes
  rw [length, ← two_pow_eight_mul] at bound
  rw [BitVec.toNat_ofNat, Nat.mod_eq_of_lt bound, ← length, Nat.bytesLE_valueLE]

theorem byteswap_byteswap {n : ℕ} (value : BitVec (8 * n)) : byteswap n (byteswap n value) = value := by
  rw [byteswap, byteswap, bytesLE_ofNat_valueLE (by simp), List.reverse_reverse,
    ofNat_valueLE_bytesLE]

namespace Platform

variable {platform : Platform} {n : ℕ}

@[simp] theorem length_toMemory (value : BitVec (8 * n)) : (platform.toMemory n value).length = n := by
  unfold toMemory
  split <;> simp

theorem ofMemory_toMemory (value : BitVec (8 * n)) :
    platform.ofMemory n (platform.toMemory n value) = value := by
  unfold toMemory ofMemory
  cases platform.byteOrder with
  | littleEndian => exact ofNat_valueLE_bytesLE value
  | bigEndian => simp only [List.reverse_reverse, ofNat_valueLE_bytesLE]

/-- One byte in memory is that byte in either order. -/
theorem toMemory_one (value : Byte) : platform.toMemory 1 value = [value] := by
  unfold toMemory
  cases platform.byteOrder <;> simp [Nat.bytesLE]

end Platform

namespace ByteArray

variable {platform : Platform} {endian : ByteOrder} {n w : ℕ}

/-! ## Fixed width -/

private theorem toMemory_ne_nil (positive : 0 < n) (value : BitVec (8 * n)) :
    platform.toMemory n value ≠ [] := by
  apply List.ne_nil_of_length_pos
  rwa [Platform.length_toMemory]

theorem Reads.raw (positive : 0 < n) (value : BitVec (8 * n)) :
    Reads endian (readRaw platform n) (platform.toMemory n value) value := by
  have pending : platform.toMemory n value ≠ [] := toMemory_ne_nil positive value
  have reads := (Reads.read endian pending).map (platform.ofMemory n)
  rwa [Platform.length_toMemory, Platform.ofMemory_toMemory] at reads

theorem Matched.raw (positive : 0 < n) (value : BitVec (8 * n)) :
    Matched endian n (writeRaw platform n value) (readRaw platform n) value :=
  ⟨_, Platform.length_toMemory value, .write endian _, .raw positive value⟩

theorem Reads.hostOrder (raw : BitVec (8 * n)) : Reads endian (ByteArray.hostOrder platform n raw) []
    (if endian = platform.byteOrder then raw else byteswap n raw) := by
  intro s holds order
  rw [ByteArray.hostOrder, order, List.length_nil, Nat.add_zero, holds.wf.moved_self]

/-- The number that bytes of fixed width stand for. -/
def wireValue (endian : ByteOrder) (d : List Byte) : ℕ :=
  match endian with
  | .littleEndian => Nat.valueLE d
  | .bigEndian => Nat.valueLE d.reverse

/-- A reader of fixed width makes of its bytes the number they stand for, whatever the platform. -/
theorem Reads.fixed {d : List Byte} (length : d.length = n) (positive : 0 < n) :
    Reads endian (readFixed platform n) d (BitVec.ofNat (8 * n) (wireValue endian d)) := by
  have pending : d ≠ [] := List.ne_nil_of_length_pos (length ▸ positive)
  have raw : Reads endian (readRaw platform n) d (platform.ofMemory n d) :=
    length ▸ (Reads.read endian pending).map (platform.ofMemory d.length)
  have swapped (bytes : List Byte) (same : bytes.length = n) :
      byteswap n (BitVec.ofNat (8 * n) (Nat.valueLE bytes)) = BitVec.ofNat (8 * n) (Nat.valueLE bytes.reverse) := by
    rw [byteswap, bytesLE_ofNat_valueLE same]
  have ordered : (if endian = platform.byteOrder then platform.ofMemory n d else byteswap n (platform.ofMemory n d)) =
      BitVec.ofNat (8 * n) (wireValue endian d) := by
    unfold Platform.ofMemory wireValue
    cases endian <;> cases platform.byteOrder
    · exact if_pos rfl
    · rw [if_neg (by decide), swapped d.reverse (by rw [List.length_reverse, length]), List.reverse_reverse]
    · rw [if_neg (by decide), swapped d length]
    · exact if_pos rfl
  have reads : Reads endian (readFixed platform n) (d ++ []) _ := raw.bind (.hostOrder (platform.ofMemory n d))
  rwa [List.append_nil, ordered] at reads

/-- The two byte swaps cancel, since no call between them changes the byte order. -/
theorem Matched.fixed (positive : 0 < n) (value : BitVec (8 * n)) :
    Matched endian n (writeFixed platform n value) (readFixed platform n) value := by
  generalize stored : (if endian ≠ platform.byteOrder then byteswap n value else value) = raw
  have restored : (if endian = platform.byteOrder then raw else byteswap n raw) = value := by
    rw [← stored]
    by_cases native : endian = platform.byteOrder
    · simp only [native, ne_eq, not_true_eq_false, if_false, if_true]
    · simp only [native, ne_eq, not_false_eq_true, if_false, if_true, byteswap_byteswap]
  refine ⟨platform.toMemory n raw, Platform.length_toMemory raw, ?_, ?_⟩
  · intro s wf order
    rw [writeFixed, order, stored]
    exact Emits.write endian _ s wf order
  · have ordered : Reads endian (hostOrder platform n raw) [] value := restored ▸ .hostOrder raw
    have reads : Reads endian (readFixed platform n) (platform.toMemory n raw ++ []) value :=
      (Reads.raw positive raw).bind ordered
    rwa [List.append_nil] at reads

end ByteArray

end Sylar
