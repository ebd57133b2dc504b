import Sylar.Proofs.ByteArray.Numeric

/-! # The string codecs, and the one place where they fail

The length in front of a string is matched like any number. The characters are matched too, unless
there are none: `write` returns at once for an empty buffer but `read` looks at the current node
first, which does not exist behind the last cell of a full chain. Only the last string of a format can
stand there, so the round trip fails exactly when it is empty and the format fills its nodes.
-/

namespace Sylar.ByteArray

variable {platform : Platform} {endian : ByteOrder} {s t : ByteArray}

/-! ## Lengths -/

/-- The bytes the length of a string takes. -/
def StringCodec.prefixLength : StringCodec → ℕ → ℕ
  | .f16, _ => 2
  | .f32, _ => 4
  | .f64, _ => 8
  | .vint, size => Nat.log 128 size + 1

/-- The lengths a codec has room for. -/
def StringCodec.Admits : StringCodec → ℕ → Prop
  | .f16, size => size ≤ 65535
  | .f32, size => size < 2 ^ 32
  | .f64, _ | .vint, _ => True

/-- The number of bytes a list of strings takes. -/
def encodedLength (strings : List (StringCodec × platform.Str)) : ℕ :=
  (strings.map fun x => x.1.prefixLength x.2.1.length + x.2.1.length).sum

/-- The last string is there and has no characters. -/
def EndsEmpty (strings : List (StringCodec × platform.Str)) : Prop :=
  ∃ x, strings.getLast? = some x ∧ x.2.1 = []

theorem StringCodec.prefixLength_pos (codec : StringCodec) (size : ℕ) :
    0 < codec.prefixLength size := by
  cases codec <;> simp [prefixLength]

/-! ## One string -/

/-- A length in front of the characters: the writer stores both, the reader takes the length, if it
fits, and goes on to read as many characters. -/
private theorem prefixed {w n : ℕ} {put : Op Unit} {get : Op (BitVec w)} (value : platform.Str)
    (pair : Matched endian n put get (sizeAs w value)) :
    ∃ d, d.length = n ∧ Emits endian (do put; write value.1) (d ++ value.1) ∧
      (value.1.length < 2 ^ w → ∀ s, Holds s d → s.endian = endian →
        (do readBuff platform (← get).toNat) s =
          ByteArray.read value.1.length (s.moved (s.position + d.length))) := by
  obtain ⟨d, length, emits, reads⟩ := pair
  refine ⟨d, length, emits.bind (.write endian value.1), ?_⟩
  intro fits s holds order
  have size : (sizeAs w value).toNat = value.1.length := by
    rw [sizeAs, BitVec.toNat_ofNat, Nat.mod_eq_of_lt fits]
  have small : ¬ value.1.length > platform.stringMaxSize := not_lt_of_ge value.2
  rw [Call.bind_done (reads s holds order), size, readBuff, if_neg small]

/-- What a string is stored as, and what its reader does in front of it if the codec has room for
its length. -/
theorem string_spec (codec : StringCodec) (value : platform.Str) :
    ∃ d, d.length = codec.prefixLength value.1.length ∧
      Emits endian (writeString platform codec value) (d ++ value.1) ∧
      (codec.Admits value.1.length → ∀ s, Holds s d → s.endian = endian →
        readString platform codec s =
          ByteArray.read value.1.length (s.moved (s.position + d.length))) := by
  have bound : value.1.length < 2 ^ 64 := value.2.trans_lt platform.stringMaxSize_lt
  cases codec with
  | f16 =>
    obtain ⟨d, length, emits, reads⟩ := prefixed value (.fixed (n := 2) (by decide) (sizeAs 16 value))
    exact ⟨d, length, emits, fun fits => reads (Nat.lt_succ_of_le fits)⟩
  | f32 => exact prefixed value (.fixed (n := 4) (by decide) (sizeAs 32 value))
  | f64 =>
    obtain ⟨d, length, emits, reads⟩ := prefixed value (.fixed (n := 8) (by decide) (sizeAs 64 value))
    exact ⟨d, length, emits, fun _ => reads bound⟩
  | vint =>
    have length : (sizeAs 64 value).toNat = value.1.length := by
      rw [sizeAs, BitVec.toNat_ofNat, Nat.mod_eq_of_lt bound]
    have pair : Matched endian (Nat.log 128 value.1.length + 1) (writeUint64 (sizeAs 64 value))
        (readUint64 platform) (sizeAs 64 value) :=
      length ▸ .varint (by decide) 10 (by decide) (sizeAs 64 value)
    obtain ⟨d, length, emits, reads⟩ := prefixed value pair
    exact ⟨d, length, emits, fun _ => reads bound⟩

/-! ## Lists of strings -/

theorem encodedLength_cons (x : StringCodec × platform.Str) (rest : List (StringCodec × platform.Str)) :
    encodedLength (x :: rest) =
      x.1.prefixLength x.2.1.length + x.2.1.length + encodedLength rest := by
  rw [encodedLength, List.map_cons, List.sum_cons, encodedLength]

theorem eq_nil_of_encodedLength {strings : List (StringCodec × platform.Str)}
    (none : encodedLength strings = 0) : strings = [] := by
  cases strings with
  | nil => rfl
  | cons x rest =>
    have := x.1.prefixLength_pos x.2.1.length
    rw [encodedLength_cons] at none
    omega

theorem endsEmpty_singleton {x : StringCodec × platform.Str} : EndsEmpty [x] ↔ x.2.1 = [] := by
  simp [EndsEmpty]

theorem endsEmpty_cons {x : StringCodec × platform.Str} {rest : List (StringCodec × platform.Str)}
    (more : rest ≠ []) : EndsEmpty (x :: rest) ↔ EndsEmpty rest := by
  obtain ⟨y, rest, rfl⟩ := List.exists_cons_of_ne_nil more
  simp [EndsEmpty]

/-- The cursor and what is left in front of it, while strings that reach to the end of the content
are read: the last one faults if it is empty and the chain is full, and nothing else does. -/
theorem strings_spec (strings : List (StringCodec × platform.Str))
    (fits : ∀ x ∈ strings, x.1.Admits x.2.1.length) :
    ∃ d, d.length = encodedLength strings ∧ Emits endian (writeStrings platform strings) d ∧
      ∀ s, Holds s d → s.endian = endian → s.size = s.position + d.length →
        (EndsEmpty strings ∧ s.size = s.capacity →
          readStrings platform (strings.map Prod.fst) s = .fault .nullNode) ∧
        (¬ (EndsEmpty strings ∧ s.size = s.capacity) →
          readStrings platform (strings.map Prod.fst) s =
            .done (strings.map fun x => x.2.1) (s.moved s.size)) := by
  induction strings with
  | nil =>
    refine ⟨[], rfl, .pure endian, ?_⟩
    intro s holds _ content
    refine ⟨?_, fun _ => ?_⟩
    · rintro ⟨⟨_, last, _⟩, _⟩
      cases last
    · rw [content, List.length_nil, Nat.add_zero, holds.wf.moved_self]
      rfl
  | cons x rest ih =>
    obtain ⟨p, prefixLength, emits, reads⟩ := string_spec x.1 x.2
    have reads := reads (fits x List.mem_cons_self)
    obtain ⟨d, length, emits', reads'⟩ := ih fun y member => fits y (List.mem_cons_of_mem _ member)
    refine ⟨p ++ x.2.1 ++ d, ?_, emits.bind emits', ?_⟩
    · rw [List.length_append, List.length_append, prefixLength, length, encodedLength_cons]
    · intro s holds order content
      have body := holds.left.right
      have tail := holds.right
      have size := holds.wf.size
      have ran := reads s holds.left.left order
      rw [List.length_append, ← Nat.add_assoc] at tail
      rw [List.length_append, List.length_append] at content
      rw [List.map_cons, readStrings]
      rcases Nat.lt_or_ge (s.position + p.length) s.capacity with inside | full
      · -- there is a current node: the characters are read and the rest follows
        have chars := body.read (by
          rintro ⟨empty, reached⟩
          rw [empty] at reached
          exact absurd reached inside.ne)
        rw [position_moved, moved_moved] at chars
        have last : EndsEmpty (x :: rest) ∧ s.size = s.capacity ↔
            EndsEmpty rest ∧ s.size = s.capacity := by
          rcases eq_or_ne rest [] with rfl | more
          · have zero : d.length = 0 := length
            constructor
            · rintro ⟨empty, reached⟩
              rw [endsEmpty_singleton] at empty
              rw [empty, List.length_nil] at content
              omega
            · rintro ⟨⟨_, none, _⟩, _⟩
              cases none
          · rw [endsEmpty_cons more]
        obtain ⟨faults, returns⟩ := reads' _ tail order (by
          simp only [size_moved, position_moved]
          omega)
        rw [last, Call.bind_done (ran.trans chars)]
        refine ⟨fun stuck => Call.bind_fault (faults stuck), fun free => ?_⟩
        rw [Call.bind_done (returns free), size_moved, moved_moved]
        rfl
      · -- the chain ends behind the length: there are no characters and no further strings
        have chars : x.2.1 = [] := List.eq_nil_of_length_eq_zero (by omega)
        obtain rfl : rest = [] := eq_nil_of_encodedLength (by omega)
        have faulted := body.wf.read_full body.inside (show s.position + p.length = s.capacity by omega)
        refine ⟨fun _ => Call.bind_fault (ran.trans faulted), fun free => ?_⟩
        exact absurd ⟨endsEmpty_singleton.mpr chars, by omega⟩ free

/-- Strings written into a fresh array, read back from its start. -/
def roundTrip (platform : Platform) (val : Bool) (strings : List (StringCodec × platform.Str)) :
    Op (List (List Byte)) := do
  setIsLittleEndian val
  writeStrings platform strings
  setPosition 0
  readStrings platform (strings.map Prod.fst)

/-- The round trip returns the strings and reads everything exactly when not both the last string is
empty and the bytes fill their nodes. -/
theorem strings_round_trip_iff (platform : Platform) (b : ℕ) (heap : ℕ → ℕ → Byte) (base : 1 ≤ b)
    (val : Bool) (strings : List (StringCodec × platform.Str))
    (fits : ∀ x ∈ strings, x.1.Admits x.2.1.length) :
    (∃ t, roundTrip platform val strings (new b heap) = .done (strings.map fun x => x.2.1) t ∧
        t.getReadSize = 0) ↔
      ¬ (EndsEmpty strings ∧ b ∣ encodedLength strings) := by
  obtain ⟨d, length, emits, reads⟩ :=
    @strings_spec platform (if val then .littleEndian else .bigEndian) strings fits
  have start : Wf { new b heap with endian := if val then .littleEndian else .bigEndian } :=
    { new_wf base heap with }
  obtain ⟨t, wrote, stored⟩ := emits _ start rfl
  have position : t.position = d.length := stored.position.trans (Nat.zero_add _)
  have size : t.size = d.length := by
    rw [← position]
    exact stored.flat.fill.trans (Nat.zero_max _)
  have full : EndsEmpty strings ∧ t.size = t.capacity ↔
      EndsEmpty strings ∧ b ∣ encodedLength strings := by
    have ended : t.position = t.capacity ↔ b ∣ 0 + d.length ∧ b ≤ 0 + d.length := stored.full_iff start
    rw [size, ← position, ended, Nat.zero_add, ← length]
    apply and_congr_right
    intro ends
    apply and_iff_left_of_imp
    apply Nat.le_of_dvd
    rw [length]
    apply Nat.pos_of_ne_zero
    intro none
    obtain rfl := eq_nil_of_encodedLength none
    obtain ⟨_, last, _⟩ := ends
    cases last
  obtain ⟨faults, returns⟩ := reads (t.moved 0) stored.holds stored.endian (by
    change t.size = 0 + d.length
    omega)
  have ran : roundTrip platform val strings (new b heap) =
      readStrings platform (strings.map Prod.fst) (t.moved 0) := by
    have flagged : setIsLittleEndian val (new b heap) =
      .done () { new b heap with endian := if val then .littleEndian else .bigEndian } := rfl
    have rewound : setPosition 0 t = .done () (t.moved 0) :=
      stored.setPosition stored.wf.capacity_pos
    rw [roundTrip, Call.bind_done flagged, Call.bind_done wrote, Call.bind_done rewound]
  rw [ran, ← full]
  constructor
  · rintro ⟨u, returned, _⟩ stuck
    rw [faults stuck] at returned
    cases returned
  · intro free
    refine ⟨_, returns free, ?_⟩
    change sizeSub t.size t.size = 0
    rw [sizeSub_of_le le_rfl, Nat.sub_self]

/-- Two strings, the first one empty, whose five bytes do not fill nodes of two bytes. -/
theorem strings_round_trip_partial_node :
    let platform : Platform := ⟨.littleEndian, 2 ^ 62, by decide⟩
    let strings : List (StringCodec × platform.Str) :=
      [(.f16, ⟨[], by decide⟩), (.vint, ⟨[7, 9], by decide⟩)]
    ∃ t, roundTrip platform true strings (new 2 fun _ _ => 0) = .done [[], [7, 9]] t ∧
      t.getReadSize = 0 := by
  intro platform strings
  refine (strings_round_trip_iff platform 2 (fun _ _ => 0) (by decide) true strings ?_).mpr ?_
  · simp [strings, StringCodec.Admits]
  · rintro ⟨⟨x, last, empty⟩, _⟩
    cases last
    cases empty

/-- One empty string whose length fills a node of two bytes: its reader follows the null pointer. -/
theorem strings_round_trip_full_node :
    let platform : Platform := ⟨.littleEndian, 2 ^ 62, by decide⟩
    let strings : List (StringCodec × platform.Str) := [(.f16, ⟨[], by decide⟩)]
    (roundTrip platform true strings (new 2 fun _ _ => 0)).cause = some .nullNode ∧
      ¬ ∃ t, roundTrip platform true strings (new 2 fun _ _ => 0) = .done [[]] t ∧
        t.getReadSize = 0 := by
  intro platform strings
  have stuck : (roundTrip platform true strings (new 2 fun _ _ => 0)).cause = some .nullNode := by
    decide +kernel
  refine ⟨stuck, ?_⟩
  rintro ⟨t, returned, _⟩
  rw [returned] at stuck
  cases stuck

end Sylar.ByteArray
