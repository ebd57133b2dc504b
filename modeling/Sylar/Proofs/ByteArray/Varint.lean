import Sylar.Proofs.ByteArray.Fixed
import Sylar.Proofs.ByteArray.Positions
import Sylar.ToMathlib.Leb128

/-! # Varints

The loop of the writer fills `tmp` with the shortest varint of its value. The loop of the reader, in front of a varint
that is no longer than it looks, makes of it the value modulo the width; in front of nothing but flagged bytes it
returns as well, once it has taken as many as it looks at. What it returns is sound for the other byte strings.
-/

namespace Sylar.ByteArray

open Leb128

variable {platform : Platform} {endian : ByteOrder} {w : ℕ} {s : ByteArray} {d : List Byte}

/-! ## The writer -/

private theorem and_low (n : ℕ) : n &&& 0x7f = n % 128 := Nat.and_two_pow_sub_one_eq_mod n 7

private theorem or_flag {n : ℕ} (small : n < 128) : n ||| 0x80 = n + 128 := by
  have sum : 128 + n = 128 ||| n := Nat.two_pow_add_eq_or_of_lt (i := 7) small 1
  rw [Nat.or_comm, ← sum, Nat.add_comm]

private theorem mod_wide (wide : 8 ≤ w) {n : ℕ} (small : n < 256) : n % 2 ^ w = n :=
  Nat.mod_eq_of_lt (small.trans_le (Nat.pow_le_pow_right (n := 2) (by decide) wide))

/-- The byte the loop puts into `tmp`. -/
private theorem group_byte (wide : 8 ≤ w) (value : BitVec w) :
    (value &&& 0x7f#w ||| 0x80#w).setWidth 8 = .ofNat 8 (value.toNat % 128 + 128) := by
  apply BitVec.eq_of_toNat_eq
  have low : value.toNat % 128 < 128 := Nat.mod_lt _ (by decide)
  rw [BitVec.toNat_setWidth, BitVec.toNat_or, BitVec.toNat_and, BitVec.toNat_ofNat, BitVec.toNat_ofNat,
    mod_wide wide (by decide), mod_wide wide (by decide), and_low, or_flag low, BitVec.toNat_ofNat]

/-- A `tmp` with room for the groups of the value is filled with its shortest varint. -/
theorem varintBytes_eq (wide : 8 ≤ w) (room : ℕ) (value : BitVec w) (positive : 0 < room)
    (bound : value.toNat < 128 ^ room) : varintBytes room value = .ok (encode value.toNat) := by
  induction room generalizing value with
  | zero => exact absurd positive (lt_irrefl 0)
  | succ room ih =>
    have compare : value ≥ 0x80#w ↔ 128 ≤ value.toNat := by
      rw [ge_iff_le, BitVec.le_def, BitVec.toNat_ofNat, mod_wide wide (by decide)]
    rw [varintBytes]
    rcases Nat.lt_or_ge value.toNat 128 with small | large
    · have byte : value.setWidth 8 = .ofNat 8 value.toNat := by
        apply BitVec.eq_of_toNat_eq
        rw [BitVec.toNat_setWidth, BitVec.toNat_ofNat]
      rw [if_neg (fun more => absurd (compare.mp more) (by omega)), byte, encode_of_lt small]
    · have shifted : (value >>> 7).toNat = value.toNat / 128 := by
        rw [BitVec.toNat_ushiftRight, Nat.shiftRight_eq_div_pow]
      have bound' : (value >>> 7).toNat < 128 ^ room := by
        rw [shifted]
        apply Nat.div_lt_of_lt_mul
        rwa [← Nat.pow_succ']
      have positive' : 0 < room := by
        rcases Nat.eq_zero_or_pos room with rfl | positive'
        · omega
        · exact positive'
      rw [if_pos (compare.mpr large), ih (value >>> 7) positive' bound', group_byte wide, shifted, encode_of_le large]
      rfl

/-- The room of the two writers is enough for their widths. -/
theorem writeVarint_eq (wide : 8 ≤ w) (room : ℕ) (enough : w ≤ 7 * room) (value : BitVec w) :
    writeVarint room value = write (encode value.toNat) := by
  have bound : value.toNat < 128 ^ room := by
    rw [show 128 = 2 ^ 7 from rfl, ← Nat.pow_mul]
    exact value.isLt.trans_le (Nat.pow_le_pow_right (by decide) enough)
  funext s
  rw [writeVarint, varintBytes_eq wide room value (by omega) bound]

/-! ## The reader -/

/-- The reader's round on a byte of the value in front of it. -/
private theorem readFuint8_reads (byte : Byte) : Reads endian (readFuint8 platform) [byte] byte := by
  have image : platform.toMemory 1 byte = [byte] := Platform.toMemory_one byte
  exact image ▸ Reads.raw Nat.one_pos byte

private theorem lt_flag (byte : Byte) : byte < 0x80#8 ↔ ¬ Flagged byte := by
  rw [BitVec.lt_def, Flagged]
  exact Nat.not_le.symm

private theorem low_group (byte : Byte) : (byte &&& 0x7f#8).setWidth w = .ofNat w (byte.toNat % 128) := by
  apply BitVec.eq_of_toNat_eq
  have mask : (0x7f#8).toNat = 0x7f := rfl
  rw [BitVec.toNat_setWidth, BitVec.toNat_and, mask, and_low, BitVec.toNat_ofNat]

/-- The first group and the groups behind it make up the value, whatever does not fit being lost. -/
private theorem group_or (g v i : ℕ) (small : g < 128) :
    BitVec.ofNat w g <<< i ||| BitVec.ofNat w v <<< (i + 7) = BitVec.ofNat w (g + 128 * v) <<< i := by
  have bits : g + 128 * v = g ||| v <<< 7 := by
    rw [Nat.or_comm, Nat.shiftLeft_eq, Nat.mul_comm v, ← Nat.two_pow_add_eq_or_of_lt (i := 7) small v]
    exact Nat.add_comm _ _
  have shifted : BitVec.ofNat w (v <<< 7) = BitVec.ofNat w v <<< 7 := by
    apply BitVec.eq_of_toNat_eq
    rw [BitVec.toNat_shiftLeft, BitVec.toNat_ofNat, BitVec.toNat_ofNat, Nat.shiftLeft_eq, Nat.shiftLeft_eq,
      Nat.mod_mul_mod]
  rw [bits, BitVec.ofNat_or, shifted, BitVec.shiftLeft_or_distrib, ← BitVec.shiftLeft_add, Nat.add_comm 7 i]

/-- In front of a varint the loop takes exactly that. -/
theorem readVarintLoop_complete (complete : Complete d) (rounds i : ℕ) (result : BitVec w)
    (looks : i + 7 * (d.length - 1) < w) (enough : d.length ≤ rounds) :
    Reads endian (readVarintLoop platform w rounds i result) d (result ||| BitVec.ofNat w (value d) <<< i) := by
  induction complete generalizing rounds i result with
  | @last byte stop =>
    have small : byte.toNat < 128 := Nat.not_le.mp stop
    have widened : byte.setWidth w = .ofNat w (value [byte]) := by
      apply BitVec.eq_of_toNat_eq
      rw [BitVec.toNat_setWidth, value, value, Nat.mod_eq_of_lt small, BitVec.toNat_ofNat]
      rfl
    cases rounds with
    | zero => cases enough
    | succ rounds =>
      rw [readVarintLoop, if_pos (by omega)]
      refine (readFuint8_reads byte).bind (e := []) ?_
      rw [if_pos ((lt_flag byte).mpr stop), widened]
      exact .pure endian _
  | @more byte rest go complete ih =>
    have length := List.length_pos_of_ne_nil complete.ne_nil
    rw [List.length_cons] at looks enough
    cases rounds with
    | zero => cases enough
    | succ rounds =>
      have behind := ih rounds (i + 7) (result ||| BitVec.ofNat w (byte.toNat % 128) <<< i) (by omega) (by omega)
      rw [BitVec.or_assoc, group_or _ _ _ (Nat.mod_lt _ (by decide))] at behind
      rw [readVarintLoop, if_pos (by omega)]
      refine (readFuint8_reads byte).bind (e := rest) ?_
      rw [if_neg (fun stop => (lt_flag byte).mp stop go), low_group]
      exact behind

theorem readVarint_complete (complete : Complete d) (looks : 7 * (d.length - 1) < w) :
    Reads endian (readVarint platform w) d (BitVec.ofNat w (value d)) := by
  have length := List.length_pos_of_ne_nil complete.ne_nil
  have whole : Reads endian (readVarintLoop platform w w 0 0#w) _ _ :=
    readVarintLoop_complete complete w 0 0#w (by omega) (by omega)
  rwa [BitVec.zero_or, BitVec.shiftLeft_zero] at whole

/-- The shortest varint of a number that fits is not longer than the reader looks. -/
theorem length_encode_lt (positive : 0 < w) {n : ℕ} (fits : n < 2 ^ w) : 7 * ((encode n).length - 1) < w := by
  rw [length_encode, Nat.add_sub_cancel]
  rcases eq_or_ne n 0 with rfl | nonzero
  · rw [Nat.log_zero_right]
    exact positive
  · have groups : 2 ^ (7 * Nat.log 128 n) < 2 ^ w := by
      rw [Nat.pow_mul]
      exact (Nat.pow_log_le_self 128 nonzero).trans_lt fits
    exact (Nat.pow_lt_pow_iff_right (by decide)).mp groups

/-- What a reader of `w` bits makes of the shortest varint of a number that fits. -/
theorem readVarint_encode (positive : 0 < w) {n : ℕ} (fits : n < 2 ^ w) :
    Reads endian (readVarint platform w) (encode n) (BitVec.ofNat w n) := by
  have reads : Reads endian (readVarint platform w) _ _ :=
    readVarint_complete (complete_encode n) (length_encode_lt positive fits)
  rwa [value_encode] at reads

theorem readVarint_encode_toNat (positive : 0 < w) (value : BitVec w) :
    Reads endian (readVarint platform w) (encode value.toNat) value := by
  have reads : Reads endian (readVarint platform w) (encode value.toNat) _ := readVarint_encode positive value.isLt
  rwa [BitVec.ofNat_toNat, BitVec.setWidth_eq] at reads

theorem Matched.varint (wide : 8 ≤ w) (room : ℕ) (enough : w ≤ 7 * room) (value : BitVec w) :
    Matched endian (Nat.log 128 value.toNat + 1) (writeVarint room value) (readVarint platform w)
      value := by
  refine ⟨encode value.toNat, length_encode _, ?_, readVarint_encode_toNat (by omega) value⟩
  rw [writeVarint_eq wide room enough]
  exact .write endian _

/-! ## Byte strings that are no varint -/

/-- In front of as many flagged bytes as it looks at the loop takes them and returns. -/
theorem readVarintLoop_flagged (flagged : ∀ byte ∈ d, Flagged byte) (rounds i : ℕ) (result : BitVec w)
    (covers : w ≤ i + 7 * d.length) (looks : i + 7 * d.length < w + 7) (enough : d.length ≤ rounds) :
    ∃ v, Reads endian (readVarintLoop platform w rounds i result) d v := by
  induction d generalizing rounds i result with
  | nil =>
    refine ⟨result, ?_⟩
    cases rounds with
    | zero => exact .pure endian result
    | succ rounds =>
      rw [List.length_nil, Nat.mul_zero, Nat.add_zero] at covers
      rw [readVarintLoop, if_neg (Nat.not_lt.mpr covers)]
      exact .pure endian result
  | cons byte rest ih =>
    obtain ⟨go, flagged⟩ := List.forall_mem_cons.mp flagged
    rw [List.length_cons] at covers looks enough
    cases rounds with
    | zero => cases enough
    | succ rounds =>
      obtain ⟨v, behind⟩ := ih flagged rounds (i + 7) (result ||| (byte &&& 0x7f#8).setWidth w <<< i) (by omega)
        (by omega) (by omega)
      refine ⟨v, ?_⟩
      rw [readVarintLoop, if_pos (by omega)]
      refine (readFuint8_reads byte).bind (e := rest) ?_
      rw [if_neg (fun stop => (lt_flag byte).mp stop go)]
      exact behind

/-- In front of fewer flagged bytes at the end of the content it takes them and throws. -/
theorem readVarintLoop_truncated (holds : Holds s d) (flagged : ∀ byte ∈ d, Flagged byte)
    (content : s.size = s.position + d.length) (rounds i : ℕ) (result : BitVec w) (looks : i + 7 * d.length < w)
    (enough : d.length < rounds) :
    readVarintLoop platform w rounds i result s = .thrown (.outOfRange "not enough len") (s.moved s.size) := by
  induction d generalizing s rounds i result with
  | nil =>
    have same : s.moved s.size = s := by rw [content, List.length_nil, Nat.add_zero, holds.wf.moved_self]
    have short : readFuint8 platform s = .thrown (.outOfRange "not enough len") s :=
      Call.bind_thrown (holds.wf.read_thrown (by rw [content, List.length_nil]; omega))
    cases rounds with
    | zero => cases enough
    | succ rounds =>
      rw [List.length_nil, Nat.mul_zero, Nat.add_zero] at looks
      rw [readVarintLoop, if_pos looks, same, Call.bind_thrown short]
  | cons byte rest ih =>
    obtain ⟨go, flagged⟩ := List.forall_mem_cons.mp flagged
    rw [List.length_cons] at content looks enough
    have behind : Holds (s.moved (s.position + 1)) rest := Holds.right (d := [byte]) holds
    have taken : readFuint8 platform s = .done byte (s.moved (s.position + 1)) :=
      readFuint8_reads byte s (Holds.left (d := [byte]) holds) rfl
    cases rounds with
    | zero => cases enough
    | succ rounds =>
      rw [readVarintLoop, if_pos (by omega), Call.bind_done taken, if_neg (fun stop => (lt_flag byte).mp stop go)]
      apply ih behind flagged
      · rw [size_moved, position_moved]
        omega
      · omega
      · omega

/-! ## Soundness -/

/-- What is returned is the value of the bytes that were taken, which are a varint of at most `k` bytes, and bytes
that do not start with such a varint of `w` bits are rejected. -/
structure SoundVarint {w : ℕ} (k : ℕ) (get : Op (BitVec w)) (s : ByteArray) : Prop where
  returned : ∀ v t, get s = .done v t → ∃ d, d <+: s.readable ∧ t.position = s.position + d.length ∧
    Complete d ∧ d.length ≤ k ∧ v.toNat = value d
  rejected : (¬ ∃ d, d <+: s.readable ∧ Complete d ∧ d.length ≤ k ∧ value d < 2 ^ w) →
    ∃ error t, get s = .thrown error t

/-- The bytes do not start with `k` flagged ones, and if they start with a varint of at most `k` bytes, its value has
at most `w` bits. -/
def VarintFits (w k : ℕ) (l : List Byte) : Prop :=
  ∀ d, d <+: l → ((∀ byte ∈ d, Flagged byte) → d.length < k) ∧ (Complete d → d.length ≤ k → value d < 2 ^ w)

theorem varintFits_of_short {k : ℕ} {l : List Byte} (flagged : ∀ byte ∈ l, Flagged byte) (short : l.length < k) :
    VarintFits w k l := by
  intro d front
  refine ⟨fun _ => front.length_le.trans_lt short, ?_⟩
  intro complete
  exact absurd (fun byte member => flagged byte (front.subset member)) complete.not_all_flagged

theorem varintFits_iff {k : ℕ} {l : List Byte} (complete : Complete d) (front : d <+: l) (bound : d.length ≤ k) :
    VarintFits w k l ↔ value d < 2 ^ w := by
  constructor
  · intro fits
    exact (fits d front).2 complete bound
  · intro small e front'
    constructor
    · intro flagged
      by_contra long
      have inside : d <+: e := List.prefix_of_prefix_length_le front front' (by omega)
      exact complete.not_all_flagged fun byte member => flagged byte (inside.subset member)
    · intro complete' _
      rwa [← complete.eq_of_fronts complete' front front']

theorem SoundVarint.of_thrown {k : ℕ} {get : Op (BitVec w)} {error : Thrown} {t : ByteArray}
    (thrown : get s = .thrown error t) : SoundVarint k get s := by
  refine ⟨?_, fun _ => ⟨error, t, thrown⟩⟩
  intro v u returned
  rw [thrown] at returned
  cases returned

/-- What is returned from the value of a varint is sound if nothing of it was lost. -/
theorem soundVarint_iff_of_complete {k : ℕ} {get : Op (BitVec w)} (complete : Complete d) (front : d <+: s.readable)
    (bound : d.length ≤ k) (returned : get s = .done (BitVec.ofNat w (value d)) (s.moved (s.position + d.length))) :
    SoundVarint k get s ↔ value d < 2 ^ w := by
  constructor
  · intro sound
    obtain ⟨e, front', _, complete', _, same⟩ := sound.returned _ _ returned
    obtain rfl := complete.eq_of_fronts complete' front front'
    rw [← same]
    exact (BitVec.ofNat w (value d)).isLt
  · intro small
    refine ⟨?_, fun none => absurd ⟨d, front, complete, bound, small⟩ none⟩
    intro v t returned'
    rw [returned] at returned'
    cases returned'
    refine ⟨d, front, rfl, complete, bound, ?_⟩
    rw [BitVec.toNat_ofNat]
    exact Nat.mod_eq_of_lt small

/-- What is returned from flagged bytes is not sound. -/
theorem not_soundVarint_of_flagged {k : ℕ} {get : Op (BitVec w)} {v : BitVec w} (flagged : ∀ byte ∈ d, Flagged byte)
    (front : d <+: s.readable) (returned : get s = .done v (s.moved (s.position + d.length))) :
    ¬ SoundVarint k get s := by
  intro sound
  obtain ⟨e, front', moved, complete, _⟩ := sound.returned _ _ returned
  have length : d.length = e.length := Nat.add_left_cancel moved
  have same : d = e := (List.prefix_of_prefix_length_le front front' length.le).eq_of_length length
  exact complete.not_all_flagged (same ▸ flagged)

/-- What the reader finds: a varint of at most `k` bytes, `k` flagged bytes, or fewer flagged bytes than that. -/
theorem Wf.readVarint_cases (wf : Wf s) {k : ℕ} (covers : w ≤ 7 * k) (looks : 7 * k < w + 7) :
    (∃ d, Complete d ∧ d <+: s.readable ∧ d.length ≤ k ∧
      readVarint platform w s = .done (BitVec.ofNat w (value d)) (s.moved (s.position + d.length))) ∨
    (∃ d v, (∀ byte ∈ d, Flagged byte) ∧ d <+: s.readable ∧ d.length = k ∧
      readVarint platform w s = .done v (s.moved (s.position + d.length))) ∨
    ((∀ byte ∈ s.readable, Flagged byte) ∧ s.readable.length < k ∧
      readVarint platform w s = .thrown (.outOfRange "not enough len") (s.moved s.size)) := by
  rcases flagged_or_complete (s.readable.take k) with flagged | ⟨d, front, complete⟩
  · rcases Nat.lt_or_ge s.readable.length k with short | long
    · rw [List.take_of_length_le short.le] at flagged
      have length := wf.length_readable
      have position := wf.position
      have thrown : readVarint platform w s = _ :=
        readVarintLoop_truncated (wf.holds (List.prefix_refl _)) flagged (by omega) w 0 0#w (by omega) (by omega)
      exact .inr (.inr ⟨flagged, short, thrown⟩)
    · have length : (s.readable.take k).length = k := List.length_take_of_le long
      obtain ⟨v, reads⟩ : ∃ v, Reads s.endian (readVarintLoop platform w w 0 0#w) (s.readable.take k) v :=
        readVarintLoop_flagged flagged w 0 0#w (by omega) (by omega) (by omega)
      have front : s.readable.take k <+: s.readable := List.take_prefix _ _
      exact .inr (.inl ⟨_, v, flagged, front, length, reads s (wf.holds front) rfl⟩)
  · have bound : d.length ≤ k := front.length_le.trans (List.length_take_le _ _)
    have positive := List.length_pos_of_ne_nil complete.ne_nil
    have front := front.trans (List.take_prefix _ _)
    exact .inl ⟨d, complete, front, bound, readVarint_complete complete (by omega) s (wf.holds front) rfl⟩

theorem Wf.soundVarint_iff (wf : Wf s) {k : ℕ} (covers : w ≤ 7 * k) (looks : 7 * k < w + 7) :
    SoundVarint k (readVarint platform w) s ↔ VarintFits w k s.readable := by
  rcases wf.readVarint_cases covers looks with
    ⟨d, complete, front, bound, returned⟩ | ⟨d, v, flagged, front, rfl, returned⟩ | ⟨flagged, short, thrown⟩
  · rw [soundVarint_iff_of_complete complete front bound returned, varintFits_iff complete front bound]
  · apply iff_of_false (not_soundVarint_of_flagged flagged front returned)
    intro fits
    exact absurd ((fits d front).1 flagged) (lt_irrefl _)
  · exact iff_of_true (.of_thrown thrown) (varintFits_of_short flagged short)

/-- The readers are sound exactly in front of bytes that neither continue past the last byte they look at nor hold a
varint that is too wide. -/
theorem readUint_sound_iff (platform : Platform) (b : ℕ) (heap : ℕ → ℕ → Byte) (base : 1 ≤ b) (s : ByteArray)
    (reached : (machine b heap).Reachable s) :
    (SoundVarint 5 (readUint32 platform) s ↔ VarintFits 32 5 s.readable) ∧
      (SoundVarint 10 (readUint64 platform) s ↔ VarintFits 64 10 s.readable) := by
  obtain ⟨wf, _⟩ := reachable_wf base reached
  constructor
  · exact wf.soundVarint_iff (by decide) (by decide)
  · exact wf.soundVarint_iff (by decide) (by decide)

/-- Two bytes behind a flagged one. -/
theorem readUint_sound_short : ∃ s, (machine 2 fun _ _ => 0).Reachable s ∧ s.readable = [0x81, 1] ∧
    SoundVarint 5 (readUint32 ⟨.littleEndian, 2 ^ 62, by decide⟩) s := by
  have reached : (machine 2 fun _ _ => 0).Reachable _ :=
    ⟨_, [(.write [0x81, 1], .ok .unit), (.setPosition 0, .ok .unit)], rfl,
      .cons (t := _) rfl (.cons (t := _) rfl (.nil _))⟩
  refine ⟨_, reached, rfl, ?_⟩
  have complete : Complete [0x81, 1] := .more (by decide) (.last (by decide))
  refine ((readUint_sound_iff _ 2 (fun _ _ => 0) (by decide) _ reached).1).mpr ?_
  intro d front
  change d <+: [0x81, 1] at front
  refine ⟨fun _ => front.length_le.trans_lt (by decide), ?_⟩
  intro complete' _
  obtain rfl := complete'.eq_of_front complete front
  decide

/-- Ten flagged bytes: both readers return a number, having seen no end of a varint. -/
theorem readUint_unterminated : ∃ s, (machine 16 fun _ _ => 0).Reachable s ∧
    s.readable = List.replicate 10 0x80 ∧
    answer (readUint32 ⟨.littleEndian, 2 ^ 62, by decide⟩ s) = some (.ok 0#32) ∧
    answer (readUint64 ⟨.littleEndian, 2 ^ 62, by decide⟩ s) = some (.ok 0#64) ∧
    ¬ SoundVarint 5 (readUint32 ⟨.littleEndian, 2 ^ 62, by decide⟩) s ∧
    ¬ SoundVarint 10 (readUint64 ⟨.littleEndian, 2 ^ 62, by decide⟩) s := by
  have reached : (machine 16 fun _ _ => 0).Reachable _ :=
    ⟨_, [(.write (List.replicate 10 0x80), .ok .unit), (.setPosition 0, .ok .unit)], rfl,
      .cons (t := _) rfl (.cons (t := _) rfl (.nil _))⟩
  obtain ⟨wf, _⟩ := reachable_wf (by decide) reached
  have flagged : ∀ byte ∈ List.replicate 10 (0x80 : Byte), Flagged byte := by
    intro byte member
    obtain rfl := List.eq_of_mem_replicate member
    decide
  refine ⟨_, reached, rfl, by decide +kernel, by decide +kernel, ?_, ?_⟩
  · intro sound
    have front : List.replicate 5 (0x80 : Byte) <+: List.replicate 10 0x80 := ⟨List.replicate 5 0x80, rfl⟩
    have fits := (wf.soundVarint_iff (by decide) (by decide)).mp sound _ front
    exact absurd (fits.1 fun byte member => flagged byte (front.subset member)) (by decide)
  · intro sound
    have fits := (wf.soundVarint_iff (by decide) (by decide)).mp sound (List.replicate 10 0x80) (List.prefix_refl _)
    exact absurd (fits.1 flagged) (by decide)

/-! ## The two encoders -/

/-- The varint of a value of `w` bits has room for it, and no more groups than it needs. -/
theorem length_encode_bounds {room : ℕ} (enough : w ≤ 7 * room) (roomy : 0 < room) (value : BitVec w) :
    1 ≤ (encode value.toNat).length ∧ (encode value.toNat).length ≤ room ∧
      value.toNat < 128 ^ (encode value.toNat).length ∧
      ∀ k, 1 ≤ k → value.toNat < 128 ^ k → (encode value.toNat).length ≤ k := by
  have positive : 1 ≤ (encode value.toNat).length := List.length_pos_of_ne_nil (complete_encode _).ne_nil
  refine ⟨positive, ?_, (length_encode_le_iff positive).mp le_rfl, fun k least => (length_encode_le_iff least).mpr⟩
  apply (length_encode_le_iff roomy).mpr
  rw [show 128 = 2 ^ 7 from rfl, ← Nat.pow_mul]
  exact value.isLt.trans_le (Nat.pow_le_pow_right (by decide) enough)

/-- Numbers whose varints are one the prefix of the other are equal. -/
theorem eq_of_encode_front {v v' : BitVec w} (front : encode v.toNat <+: encode v'.toNat) : v = v' := by
  have same := (complete_encode v.toNat).eq_of_front (complete_encode v'.toNat) front
  have numbers := congrArg value same
  rw [value_encode, value_encode] at numbers
  exact BitVec.eq_of_toNat_eq numbers

/-- Concatenated varints of numbers split in one way. -/
theorem encodes_injective {vs vs' : List (BitVec w)}
    (same : (vs.flatMap fun v => encode v.toNat) = vs'.flatMap fun v => encode v.toNat) : vs = vs' := by
  have varints (vs : List (BitVec w)) : ∀ d ∈ vs.map fun v => encode v.toNat, d ∈ {d | Complete d} := by
    intro d member
    obtain ⟨v, _, rfl⟩ := List.mem_map.mp member
    exact complete_encode v.toNat
  rw [List.flatMap_def, List.flatMap_def] at same
  have words := uniquelyDecodable _ _ (varints vs) (varints vs') same
  apply List.map_injective_iff.mpr _ words
  intro v v' equal
  apply eq_of_encode_front
  rw [show encode v.toNat = encode v'.toNat from equal]

/-- Both encoders write the shortest varint of the value, both decoders take it back, and varints written one behind
the other can be told apart. -/
theorem varints_canonical (platform : Platform) (endian : ByteOrder) :
    (∀ v : BitVec 64, writeUint64 v = write (encode v.toNat) ∧ Emits endian (writeUint64 v) (encode v.toNat) ∧
      1 ≤ (encode v.toNat).length ∧ (encode v.toNat).length ≤ 10 ∧ v.toNat < 128 ^ (encode v.toNat).length ∧
      ∀ k, 1 ≤ k → v.toNat < 128 ^ k → (encode v.toNat).length ≤ k) ∧
    (∀ v : BitVec 32, writeUint32 v = writeUint64 (v.setWidth 64) ∧ writeUint32 v = write (encode v.toNat) ∧
      Emits endian (writeUint32 v) (encode v.toNat) ∧ (encode v.toNat).length ≤ 5 ∧
      Reads endian (readUint32 platform) (encode v.toNat) v ∧
      Reads endian (readUint64 platform) (encode v.toNat) (v.setWidth 64)) ∧
    (∀ v : BitVec 64, Reads endian (readUint64 platform) (encode v.toNat) v) ∧
    (∀ v v' : BitVec 64, encode v.toNat <+: encode v'.toNat → v = v') ∧
    ∀ vs vs' : List (BitVec 64), (vs.flatMap fun v => encode v.toNat) = (vs'.flatMap fun v => encode v.toNat) →
      vs = vs' := by
  refine ⟨?_, ?_, ?_, fun v v' => eq_of_encode_front, fun vs vs' => encodes_injective⟩
  · intro v
    have wide : writeUint64 v = write (encode v.toNat) := writeVarint_eq (by decide) 10 (by decide) v
    refine ⟨wide, ?_, length_encode_bounds (by decide) (by decide) v⟩
    rw [wide]
    exact Emits.write endian (encode v.toNat)
  · intro v
    have wide : (v.setWidth 64).toNat = v.toNat := by
      rw [BitVec.toNat_setWidth]
      exact Nat.mod_eq_of_lt (v.isLt.trans (by decide))
    have narrow : writeUint32 v = write (encode v.toNat) := writeVarint_eq (by decide) 5 (by decide) v
    have widened : writeUint64 (v.setWidth 64) = write (encode (v.setWidth 64).toNat) :=
      writeVarint_eq (by decide) 10 (by decide) _
    refine ⟨?_, narrow, ?_, (length_encode_bounds (by decide) (by decide) v).2.1,
      readVarint_encode_toNat (by decide) v, ?_⟩
    · rw [narrow, widened, wide]
    · rw [narrow]
      exact Emits.write endian (encode v.toNat)
    · have reads : Reads endian (readUint64 platform) (encode v.toNat) _ :=
        readVarint_encode (by decide) (v.isLt.trans (by decide))
      rwa [BitVec.ofNat_toNat] at reads
  · intro v
    exact readVarint_encode_toNat (by decide) v

end Sylar.ByteArray
