import Sylar.Proofs.ByteArray.Varint

/-! # The numeric codecs are matched

Zigzag is undone before and after the varint it is wrapped around. With it every numeric writer has
its reader, and so has a list of them.
-/

namespace Sylar

namespace ByteArray

variable {platform : Platform} {endian : ByteOrder} {n w : ℕ}

/-! ## Zigzag -/

/-- Decoding takes the last bit off again and complements the rest if it was set. -/
private theorem decodeZigzag_double (wide : 0 < w) (u : BitVec w) {c : ℕ} (bit : c < 2)
    (bound : 2 * u.toNat + c < 2 ^ w) :
    decodeZigzag (u * 2#w + BitVec.ofNat w c) = u ^^^ -BitVec.ofNat w c := by
  have value : (u * 2#w + BitVec.ofNat w c).toNat = 2 * u.toNat + c := by
    rw [BitVec.toNat_add, BitVec.toNat_mul, BitVec.toNat_ofNat, BitVec.toNat_ofNat,
      Nat.mul_mod_mod, Nat.mod_add_mod, Nat.add_mod_mod, Nat.mul_comm, Nat.mod_eq_of_lt bound]
  have half : (u * 2#w + BitVec.ofNat w c) >>> 1 = u := by
    apply BitVec.eq_of_toNat_eq
    rw [BitVec.toNat_ushiftRight, value, Nat.shiftRight_eq_div_pow]
    omega
  have last : (u * 2#w + BitVec.ofNat w c) &&& 1#w = BitVec.ofNat w c := by
    have one : 1 % 2 ^ w = 1 := Nat.mod_eq_of_lt (Nat.one_lt_two_pow (by omega))
    apply BitVec.eq_of_toNat_eq
    rw [BitVec.toNat_and, value, BitVec.toNat_ofNat, one, Nat.and_one_is_mod, BitVec.toNat_ofNat,
      Nat.mod_eq_of_lt (show c < 2 ^ w by omega)]
    omega
  rw [decodeZigzag, half, last]

theorem decodeZigzag_encodeZigzag (wide : 0 < w) (v : BitVec w) :
    decodeZigzag (encodeZigzag v) = v := by
  rw [encodeZigzag]
  split
  · next negative =>
    -- `-v * 2 - 1` is twice the complement of `v`, plus one
    have complement : -v * 2#w - 1#w = ~~~v * 2#w + BitVec.ofNat w 1 := by
      rw [BitVec.not_eq_neg_add]
      grind
    have large : 2 ^ w ≤ 2 * v.toNat := by
      rw [BitVec.slt_zero_iff_msb_cond] at negative
      exact BitVec.msb_eq_true_iff_two_mul_ge.mp negative
    have bound : 2 * (~~~v).toNat + 1 < 2 ^ w := by
      rw [BitVec.toNat_not]
      have := v.isLt
      omega
    rw [complement, decodeZigzag_double wide _ (by decide) bound, BitVec.neg_one_eq_allOnes,
      BitVec.xor_allOnes, BitVec.not_not]
  · next nonnegative =>
    have small : 2 * v.toNat + 0 < 2 ^ w := by
      rw [BitVec.slt_zero_eq_msb, Bool.not_eq_true] at nonnegative
      exact BitVec.msb_eq_false_iff_two_mul_lt.mp nonnegative
    have decoded := decodeZigzag_double wide v (by decide) small
    simpa using decoded

theorem Matched.zigzag (wide : 8 ≤ w) (room : ℕ) (enough : w ≤ 7 * room) (value : BitVec w) :
    Matched endian (Nat.log 128 (encodeZigzag value).toNat + 1) (writeVarint room (encodeZigzag value))
      (do return decodeZigzag (← readVarint platform w)) value := by
  have coded : Matched endian (Nat.log 128 (encodeZigzag value).toNat + 1)
      (writeVarint room (encodeZigzag value)) (readVarint platform w) (encodeZigzag value) :=
    .varint wide room enough _
  have decoded := coded.map decodeZigzag
  rwa [decodeZigzag_encodeZigzag (by omega)] at decoded

/-! ## The format -/

/-- The number of bytes a value takes. -/
def NumericCodec.length : (codec : NumericCodec) → BitVec codec.width → ℕ
  | .fint8, _ | .fuint8, _ => 1
  | .fint16, _ | .fuint16, _ => 2
  | .fint32, _ | .fuint32, _ | .float, _ => 4
  | .fint64, _ | .fuint64, _ | .double, _ => 8
  | .uint32, value | .uint64, value => Nat.log 128 value.toNat + 1
  | .int32, value | .int64, value => Nat.log 128 (encodeZigzag value).toNat + 1

theorem NumericCodec.length_pos (codec : NumericCodec) (value : BitVec codec.width) :
    0 < codec.length value := by
  cases codec <;> simp [length]

/-- Every numeric writer has its reader. -/
theorem Matched.numeric (codec : NumericCodec) (value : BitVec codec.width) :
    Matched endian (codec.length value) (writeNumeric platform codec value)
      (readNumeric platform codec) value := by
  cases codec with
  | fint8 => exact Matched.raw (n := 1) (by decide) value
  | fuint8 => exact Matched.raw (n := 1) (by decide) value
  | fint16 => exact Matched.fixed (n := 2) (by decide) value
  | fuint16 => exact Matched.fixed (n := 2) (by decide) value
  | fint32 => exact Matched.fixed (n := 4) (by decide) value
  | fuint32 => exact Matched.fixed (n := 4) (by decide) value
  | fint64 => exact Matched.fixed (n := 8) (by decide) value
  | fuint64 => exact Matched.fixed (n := 8) (by decide) value
  | int32 => exact .zigzag (by decide) 5 (by decide) value
  | uint32 => exact .varint (by decide) 5 (by decide) value
  | int64 => exact .zigzag (by decide) 10 (by decide) value
  | uint64 => exact .varint (by decide) 10 (by decide) value
  | float => exact Matched.fixed (n := 4) (by decide) value
  | double => exact Matched.fixed (n := 8) (by decide) value

theorem Matched.numerics (values : List NumericValue) :
    Matched endian (values.map fun value => value.1.length value.2).sum
      (writeNumerics platform values) (readNumerics platform (values.map Sigma.fst)) values := by
  induction values with
  | nil => exact .pure endian []
  | cons value rest ih =>
    rw [List.map_cons, List.sum_cons]
    refine (Matched.numeric value.1 value.2).bind ?_
    exact ih.map (List.cons value)

/-- Writing any values in order, going back and reading them with the matching readers returns
them, and ends in the very state the writes left. -/
theorem numeric_round_trip (platform : Platform) (b : ℕ) (heap : ℕ → ℕ → Byte) (base : 1 ≤ b)
    (s : ByteArray) (reached : (machine b heap).Reachable s) (values : List NumericValue)
    (nonempty : values ≠ []) :
    ∃ t u, writeNumerics platform values s = .done () t ∧
      setPosition s.position t = .done () u ∧
      readNumerics platform (values.map Sigma.fst) u = .done values t := by
  obtain ⟨wf, _⟩ := reachable_wf base reached
  refine (Matched.numerics values).round_trip wf ?_
  obtain ⟨value, rest, rfl⟩ := List.exists_cons_of_ne_nil nonempty
  rw [List.map_cons, List.sum_cons]
  exact Nat.add_pos_left (value.1.length_pos value.2) _

/-- Extreme values of three codecs over nodes of one byte. -/
theorem numeric_round_trip_extremes :
    let platform : Platform := ⟨.littleEndian, 2 ^ 62, by decide⟩
    let values : List NumericValue :=
      [⟨.int32, BitVec.intMin 32⟩, ⟨.uint64, BitVec.allOnes 64⟩, ⟨.fint16, BitVec.intMin 16⟩]
    ∃ t u, writeNumerics platform values (new 1 fun _ _ => 0) = .done () t ∧
      setPosition 0 t = .done () u ∧
      readNumerics platform (values.map Sigma.fst) u = .done values t :=
  numeric_round_trip ⟨.littleEndian, 2 ^ 62, by decide⟩ 1 (fun _ _ => 0) (by decide) _ (.init rfl) _
    (List.cons_ne_nil _ _)

end ByteArray

end Sylar
