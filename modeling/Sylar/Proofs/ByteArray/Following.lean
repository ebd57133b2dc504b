import Sylar.Proofs.ByteArray.Truncated

/-! # What follows a string with a length of 16 bits

A string that its length field has room for leaves the cursor in front of what was written behind it. Of a longer one
the reader takes too few characters, and what follows is read from the middle of the string.
-/

namespace Sylar.ByteArray

variable {platform : Platform} {endian : ByteOrder} {s t : ByteArray} {buf : List Byte}

/-! ## Records -/

/-- What can be written behind a string: a number, a string or a block of bytes. -/
inductive Record (platform : Platform) where
  | numeric (value : NumericValue)
  | string (codec : StringCodec) (value : platform.Str)
  | block (value : List Byte)

namespace Record

def put : Record platform → Op Unit
  | .numeric ⟨codec, value⟩ => writeNumeric platform codec value
  | .string codec value => writeString platform codec value
  | .block value => write value

/-- The next read returns the record. -/
def ReadsBack (s : ByteArray) : Record platform → Prop
  | .numeric ⟨codec, value⟩ => ∃ t, readNumeric platform codec s = .done value t
  | .string codec value => ∃ t, readString platform codec s = .done value.1 t
  | .block value => ∃ t, read value.length s = .done value t

/-- The number of bytes the record takes. -/
def length : Record platform → ℕ
  | .numeric ⟨codec, value⟩ => codec.length value
  | .string codec value => codec.prefixLength value.1.length + value.1.length
  | .block value => value.length

/-- The length field of the record has room for its length. -/
def Fits : Record platform → Prop
  | .string codec value => codec.Admits value.1.length
  | .numeric _ | .block _ => True

/-- The record ends with a string or a block of no bytes. -/
def EndsEmpty : Record platform → Prop
  | .numeric _ => False
  | .string _ value => value.1 = []
  | .block value => value = []

/-- What a record is stored as, and when it is read back: the last read may not be an empty one at the end of a full
chain. -/
theorem spec (r : Record platform) : ∃ d, d.length = r.length ∧ Emits endian r.put d ∧
    (r.Fits → ∀ s, Holds s d → s.endian = endian →
      (r.ReadsBack s ↔ ¬ (r.EndsEmpty ∧ s.position + d.length = s.capacity))) := by
  cases r with
  | numeric value =>
    obtain ⟨d, length, emits, reads⟩ : Matched endian _ _ (readNumeric platform value.1) value.2 :=
      Matched.numeric value.1 value.2
    refine ⟨d, length, emits, fun _ s holds order => ?_⟩
    exact iff_of_true ⟨_, reads s holds order⟩ fun ends => ends.1
  | string codec value =>
    obtain ⟨p, prefixLength, emits, reads⟩ := string_spec codec value
    refine ⟨p ++ value.1, ?_, emits, fun fits s holds order => ?_⟩
    · rw [List.length_append, prefixLength]
      rfl
    · have body := holds.right.read_iff
      rw [position_moved] at body
      rw [List.length_append, ← Nat.add_assoc, ReadsBack, reads fits s holds.left order]
      exact body
  | block value =>
    exact ⟨value, rfl, .write endian value, fun _ s holds _ => holds.read_iff⟩

theorem endsEmpty_of_length {r : Record platform} (none : r.length = 0) : r.EndsEmpty := by
  cases r with
  | numeric value =>
    have positive := value.1.length_pos value.2
    exact absurd none positive.ne'
  | string codec value =>
    have positive := codec.prefixLength_pos value.1.length
    rw [length] at none
    omega
  | block value => exact List.eq_nil_of_length_eq_zero none

end Record

/-! ## Lengths that are read -/

theorem Wf.length_of_read (wf : Wf s) {n : ℕ} (returned : ByteArray.read n s = .done buf t) : buf.length = n := by
  rcases wf.read_cases n with ⟨_, ran⟩ | ⟨enough, _, ran⟩ | ⟨_, _, ran⟩
  all_goals
    rw [ran] at returned
    cases returned
  have size := wf.size
  rw [List.length_take, List.length_drop, wf.length_bytes]
  omega

/-- The characters that are read are as many as the length says, which has `w` bits. -/
theorem Wf.length_of_prefixed (wf : Wf s) {w : ℕ} {get : Op (BitVec w)} (forward : Forward get)
    (returned : (do readBuff platform (← get).toNat) s = .done buf t) : buf.length < 2 ^ w := by
  obtain ⟨size, u, ran, returned⟩ := Call.bind_eq_done returned
  obtain ⟨wf', _⟩ := (forward s wf).1 size u ran
  rw [readBuff] at returned
  split at returned
  · cases returned
  · rw [wf'.length_of_read returned]
    exact size.isLt

theorem Wf.admits_of_read (wf : Wf s) {codec : StringCodec} (returned : readString platform codec s = .done buf t) :
    codec.Admits buf.length := by
  cases codec with
  | f16 => exact Nat.le_of_lt_succ (wf.length_of_prefixed (StartsWithRead.fixed 2).forward returned)
  | f32 => exact wf.length_of_prefixed (StartsWithRead.fixed 4).forward returned
  | f64 => trivial
  | vint => trivial

theorem Record.fits_of_readsBack (wf : Wf s) {r : Record platform} (back : r.ReadsBack s) : r.Fits := by
  cases r with
  | numeric value => trivial
  | string codec value =>
    obtain ⟨t, returned⟩ := back
    exact wf.admits_of_read returned
  | block value => trivial

/-! ## A string and the record behind it -/

/-- The two are refused without a change, or the string and the record are read back one after the other. -/
def Preserved (platform : Platform) (s : ByteArray) (value : platform.Str) (r : Record platform) : Prop :=
  (∃ error, (do writeStringF16 platform value; r.put : Op Unit) s = .thrown error s) ∨
    ∃ t u v, (do writeStringF16 platform value; r.put : Op Unit) s = .done () t ∧
      setPosition s.position t = .done () u ∧ readStringF16 platform u = .done value.1 v ∧ r.ReadsBack v

/-- The offset behind the string and the record. -/
def endOf (s : ByteArray) (value : platform.Str) (r : Record platform) : ℕ :=
  s.position + (2 + value.1.length + r.length)

/-- Writing never throws, so that what counts is the reading. -/
theorem preserved_iff_reads {value : platform.Str} {r : Record platform} {u : ByteArray}
    (wrote : (do writeStringF16 platform value; r.put : Op Unit) s = .done () t)
    (rewound : setPosition s.position t = .done () u) :
    Preserved platform s value r ↔ ∃ v, readStringF16 platform u = .done value.1 v ∧ r.ReadsBack v := by
  constructor
  · rintro (⟨error, refused⟩ | ⟨t', u', v, wrote', rewound', returned, readsBack⟩)
    · rw [wrote] at refused
      cases refused
    · rw [wrote] at wrote'
      cases wrote'
      rw [rewound] at rewound'
      cases rewound'
      exact ⟨v, returned, readsBack⟩
  · rintro ⟨v, returned, readsBack⟩
    exact .inr ⟨t, u, v, wrote, rewound, returned, readsBack⟩

theorem Wf.preserved_iff (wf : Wf s) (value : platform.Str) (r : Record platform) : Preserved platform s value r ↔
    value.1.length ≤ 65535 ∧ r.Fits ∧
      ¬ (r.EndsEmpty ∧ s.baseSize ∣ endOf s value r ∧ s.capacity ≤ endOf s value r) := by
  obtain ⟨p, prefixLength, emits, reads⟩ := string_spec .f16 value
  obtain ⟨d, length, emits', back⟩ := r.spec
  obtain ⟨t, wrote, stored⟩ := emits.bind emits' s wf rfl
  have bytes : (p ++ value.1 ++ d).length = 2 + value.1.length + r.length := by
    rw [List.length_append, List.length_append, prefixLength, length]
    rfl
  have position := stored.position
  have within := stored.wf.position.trans stored.wf.size
  have full := stored.full_iff wf
  rw [bytes] at full position
  have rewound : ByteArray.setPosition s.position t = .done () (t.moved s.position) := stored.setPosition (by omega)
  have body : Holds (t.moved (s.position + p.length)) value.1 := stored.holds.left.right
  have tail : Holds (t.moved (s.position + p.length + value.1.length)) d := by
    have behind := stored.holds.right
    rwa [List.length_append, ← Nat.add_assoc] at behind
  have last : s.position + p.length + value.1.length + d.length = t.position := by
    rw [List.length_append, List.length_append] at bytes
    omega
  have ran (short : value.1.length ≤ 65535) : readStringF16 platform (t.moved s.position) =
      ByteArray.read value.1.length (t.moved (s.position + p.length)) :=
    reads short _ stored.holds.left.left stored.endian
  rw [preserved_iff_reads wrote rewound, endOf, ← full, ← last]
  constructor
  · rintro ⟨v, returned, readsBack⟩
    have forward : Forward (readStringF16 platform) :=
      ((StartsWithRead.fixed 2).bind fun _ => readBuff_forward _).forward
    have short : StringCodec.f16.Admits value.1.length := stored.holds.wf.admits_of_read returned
    have fits : r.Fits := Record.fits_of_readsBack ((forward _ stored.holds.wf).1 _ v returned).1 readsBack
    rw [ran short] at returned
    rw [body.read (body.read_iff.mp ⟨v, returned⟩)] at returned
    cases returned
    exact ⟨short, fits, (back fits _ tail stored.endian).mp readsBack⟩
  · rintro ⟨short, fits, free⟩
    have chars : ¬ (value.1 = [] ∧ s.position + p.length + value.1.length = t.capacity) := by
      rintro ⟨-, reached⟩
      exact free ⟨Record.endsEmpty_of_length (by omega), by omega⟩
    exact ⟨_, (ran short).trans (body.read chars),
      (back fits _ tail stored.endian).mpr free⟩

/-- A string and a record behind it are read back exactly if the string has at most 65535 characters, the length of the
record fits its own field, and the last read is not an empty one at the end of a full chain. -/
theorem writeStringF16_preserved_iff (platform : Platform) (b : ℕ) (heap : ℕ → ℕ → Byte) (base : 1 ≤ b) (s : ByteArray)
    (reached : (machine b heap).Reachable s) (value : platform.Str) (r : Record platform) :
    Preserved platform s value r ↔
      value.1.length ≤ 65535 ∧ r.Fits ∧ ¬ (r.EndsEmpty ∧ b ∣ endOf s value r ∧ s.capacity ≤ endOf s value r) := by
  obtain ⟨wf, rfl⟩ := reachable_wf base reached
  exact wf.preserved_iff value r

/-- One character and a number behind it. -/
theorem writeStringF16_preserved_short :
    let platform : Platform := ⟨.littleEndian, 2 ^ 62, by decide⟩
    Preserved platform (new 2 fun _ _ => 0) ⟨[97], by decide⟩ (.numeric ⟨.uint32, 7⟩) := by
  intro platform
  exact (writeStringF16_preserved_iff platform 2 (fun _ _ => 0) (by decide) _ (.init rfl) _ _).mpr
    ⟨by decide, trivial, fun ends => ends.1⟩

/-- A string of 65536 characters, whose length is written as 0. -/
theorem writeStringF16_not_preserved :
    let platform : Platform := ⟨.littleEndian, 2 ^ 62, by decide⟩
    ¬ Preserved platform (new 4096 fun _ _ => 0) ⟨List.replicate 65536 97, by rw [List.length_replicate]; decide⟩
      (.numeric ⟨.uint32, 7⟩) := by
  intro platform preserved
  have short := (((new_wf (by decide) _).preserved_iff _ _).mp preserved).1
  rw [List.length_replicate] at short
  exact absurd short (by decide)

end Sylar.ByteArray
