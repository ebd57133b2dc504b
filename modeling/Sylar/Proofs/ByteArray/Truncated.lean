import Sylar.Proofs.ByteArray.Strings

/-! # Reading a record that is not complete

A composite reader starts with a primitive read, which throws without moving the cursor if it finds too few bytes.
Once it has succeeded the cursor has moved, and nothing that follows moves it back.
-/

namespace Sylar.ByteArray

variable {α β : Type} {platform : Platform} {endian : ByteOrder} {n w : ℕ} {s t : ByteArray} {call : Op α}
  {next : α → Op β}

/-! ## The cursor -/

/-- The call leaves the cursor at or behind `bound`, unless it faults. -/
def LeavesBehind (call : Op α) (s : ByteArray) (bound : ℕ) : Prop :=
  (∀ v t, call s = .done v t → Wf t ∧ bound ≤ t.position) ∧ ∀ error t, call s = .thrown error t → bound ≤ t.position

/-- The call never moves the cursor back. -/
def Forward (call : Op α) : Prop := ∀ s, Wf s → LeavesBehind call s s.position

/-- The call reads `n` bytes first. -/
structure StartsWithRead (n : ℕ) (call : Op α) : Prop where
  short : ∀ s, Wf s → s.size < s.position + n → call s = .thrown (.outOfRange "not enough len") s
  taken : ∀ s, Wf s → s.position + n ≤ s.size → LeavesBehind call s (s.position + n)

theorem LeavesBehind.of_done {v : α} {bound : ℕ} (ran : call s = .done v t) (wf : Wf t) (later : bound ≤ t.position) :
    LeavesBehind call s bound := by
  constructor
  · intro v' t' ran'
    rw [ran] at ran'
    cases ran'
    exact ⟨wf, later⟩
  · intro error t' thrown
    rw [ran] at thrown
    cases thrown

theorem LeavesBehind.of_thrown {error : Thrown} {bound : ℕ} (ran : call s = .thrown error t)
    (later : bound ≤ t.position) : LeavesBehind call s bound := by
  constructor
  · intro v t' returned
    rw [ran] at returned
    cases returned
  · intro error' t' ran'
    rw [ran] at ran'
    cases ran'
    exact later

theorem LeavesBehind.of_fault {cause : Fault} (ran : call s = .fault cause) (bound : ℕ) :
    LeavesBehind call s bound := by
  constructor
  · intro v t returned
    rw [ran] at returned
    cases returned
  · intro error t thrown
    rw [ran] at thrown
    cases thrown

theorem LeavesBehind.bind {bound : ℕ} (first : LeavesBehind call s bound) (second : ∀ v, Forward (next v)) :
    LeavesBehind (call >>= next) s bound := by
  constructor
  · intro result u ran
    obtain ⟨v, t, called, ran⟩ := Call.bind_eq_done ran
    obtain ⟨wf, later⟩ := first.1 v t called
    obtain ⟨wf', later'⟩ := (second v t wf).1 result u ran
    exact ⟨wf', later.trans later'⟩
  · intro error u ran
    rcases Call.bind_eq_thrown ran with thrown | ⟨v, t, called, ran⟩
    · exact first.2 error u thrown
    · obtain ⟨wf, later⟩ := first.1 v t called
      exact later.trans ((second v t wf).2 error u ran)

theorem Forward.bind (first : Forward call) (second : ∀ v, Forward (next v)) : Forward (call >>= next) :=
  fun s wf => (first s wf).bind second

theorem Forward.pure (v : α) : Forward (Pure.pure v) := fun _ wf => .of_done rfl wf le_rfl

namespace StartsWithRead

theorem forward (starts : StartsWithRead n call) : Forward call := by
  intro s wf
  rcases Nat.lt_or_ge s.size (s.position + n) with short | enough
  · exact .of_thrown (starts.short s wf short) le_rfl
  · have behind := starts.taken s wf enough
    exact ⟨fun v t ran => ⟨(behind.1 v t ran).1, (Nat.le_add_right _ _).trans (behind.1 v t ran).2⟩,
      fun error t ran => (Nat.le_add_right _ _).trans (behind.2 error t ran)⟩

theorem bind (first : StartsWithRead n call) (second : ∀ v, Forward (next v)) : StartsWithRead n (call >>= next) where
  short s wf short := Call.bind_thrown (first.short s wf short)
  taken s wf enough := (first.taken s wf enough).bind second

theorem map (first : StartsWithRead n call) (f : α → β) : StartsWithRead n (do return f (← call)) :=
  first.bind fun v => .pure (f v)

theorem read (n : ℕ) : StartsWithRead n (ByteArray.read n) where
  short _ wf short := wf.read_thrown short
  taken s wf enough := by
    rcases wf.read_cases n with ⟨short, _⟩ | ⟨_, _, returned⟩ | ⟨_, _, faulted⟩
    · exact absurd enough (Nat.not_le.mpr short)
    · exact .of_done returned (wf.moved enough) le_rfl
    · exact .of_fault faulted _

theorem raw (n : ℕ) : StartsWithRead n (readRaw platform n) := (read n).map _

theorem fixed (n : ℕ) : StartsWithRead n (readFixed platform n) :=
  (raw n).bind fun _ _ wf => .of_done rfl wf le_rfl

end StartsWithRead

theorem readVarintLoop_forward (rounds i : ℕ) (result : BitVec w) :
    Forward (readVarintLoop platform w rounds i result) := by
  induction rounds generalizing i result with
  | zero => exact .pure result
  | succ rounds ih =>
    rw [readVarintLoop]
    split
    · apply (StartsWithRead.raw 1).forward.bind
      intro byte
      split
      · exact .pure _
      · exact ih _ _
    · exact .pure result

theorem StartsWithRead.varint (positive : 0 < w) : StartsWithRead 1 (readVarint platform w) := by
  obtain ⟨rounds, rfl⟩ : ∃ rounds, w = rounds + 1 := ⟨w - 1, by omega⟩
  rw [readVarint, readVarintLoop, if_pos positive]
  apply (StartsWithRead.raw 1).bind
  intro byte
  split
  · exact .pure _
  · exact readVarintLoop_forward _ _ _

theorem readBuff_forward (len : ℕ) : Forward (readBuff platform len) := by
  intro s wf
  by_cases large : len > platform.stringMaxSize
  · exact .of_thrown (show readBuff platform len s = .thrown .lengthError s from if_pos large) le_rfl
  · have same : readBuff platform len s = read len s := if_neg large
    rw [LeavesBehind, same]
    exact (StartsWithRead.read len).forward s wf

/-! ## The composite readers -/

/-- The readers that make several primitive reads. -/
inductive CompositeCodec where
  | uint32 | uint64 | int32 | int64
  | string (codec : StringCodec)
deriving DecidableEq, Repr

namespace CompositeCodec

/-- The call, without what it returns. -/
def get (platform : Platform) : CompositeCodec → Op Unit
  | .uint32 => do let _ ← readUint32 platform
  | .uint64 => do let _ ← readUint64 platform
  | .int32 => do let _ ← readInt32 platform
  | .int64 => do let _ ← readInt64 platform
  | .string codec => do let _ ← readString platform codec

/-- The length of the first primitive read. -/
def firstRead : CompositeCodec → ℕ
  | .uint32 | .uint64 | .int32 | .int64 | .string .vint => 1
  | .string .f16 => 2
  | .string .f32 => 4
  | .string .f64 => 8

theorem firstRead_pos (codec : CompositeCodec) : 0 < codec.firstRead := by
  rcases codec with _ | _ | _ | _ | codec
  all_goals first | exact Nat.one_pos | cases codec <;> exact Nat.succ_pos _

theorem startsWithRead (codec : CompositeCodec) : StartsWithRead codec.firstRead (codec.get platform) := by
  have uint32 : StartsWithRead 1 (readUint32 platform) := .varint (by decide)
  have uint64 : StartsWithRead 1 (readUint64 platform) := .varint (by decide)
  cases codec with
  | uint32 => exact uint32.map _
  | uint64 => exact uint64.map _
  | int32 => exact (uint32.map _).map _
  | int64 => exact (uint64.map _).map _
  | string codec =>
    cases codec with
    | f16 => exact ((StartsWithRead.fixed 2).bind fun _ => readBuff_forward _).map _
    | f32 => exact ((StartsWithRead.fixed 4).bind fun _ => readBuff_forward _).map _
    | f64 => exact ((StartsWithRead.fixed 8).bind fun _ => readBuff_forward _).map _
    | vint => exact (uint64.bind fun _ => readBuff_forward _).map _

end CompositeCodec

/-- The bytes are the length `n` as it stands in front of a string. -/
def StringCodec.Announces (endian : ByteOrder) : StringCodec → List Byte → ℕ → Prop
  | .f16, d, n => d.length = 2 ∧ wireValue endian d = n
  | .f32, d, n => d.length = 4 ∧ wireValue endian d = n
  | .f64, d, n => d.length = 8 ∧ wireValue endian d = n
  | .vint, d, n => (Leb128.Complete d ∧ d.length ≤ 10) ∧ Leb128.value d = n

/-- The bytes start with a complete record. -/
def CompositeCodec.Complete (endian : ByteOrder) : CompositeCodec → List Byte → Prop
  | .uint32, l | .int32, l => ∃ d, d <+: l ∧ Leb128.Complete d ∧ d.length ≤ 5
  | .uint64, l | .int64, l => ∃ d, d <+: l ∧ Leb128.Complete d ∧ d.length ≤ 10
  | .string codec, l => ∃ d body, d ++ body <+: l ∧ codec.Announces endian d body.length

/-- A read within the content does not throw. -/
theorem Wf.read_ne_thrown (wf : Wf s) (enough : s.position + n ≤ s.size) (error : Thrown) (t : ByteArray) :
    ByteArray.read n s ≠ .thrown error t := by
  intro thrown
  rcases wf.read_cases n with ⟨short, _⟩ | ⟨_, _, ran⟩ | ⟨_, _, ran⟩
  · exact absurd enough (Nat.not_le.mpr short)
  all_goals
    rw [ran] at thrown
    cases thrown

/-- A varint is not too few bytes. -/
theorem Wf.readVarint_ne_thrown (wf : Wf s) {k : ℕ} (looks : 7 * k < w + 7)
    (complete : ∃ d, d <+: s.readable ∧ Leb128.Complete d ∧ d.length ≤ k) (error : Thrown) (t : ByteArray) :
    readVarint platform w s ≠ .thrown error t := by
  obtain ⟨d, front, complete, bound⟩ := complete
  have positive := List.length_pos_of_ne_nil complete.ne_nil
  rw [readVarint_complete complete (by omega) s (wf.holds front) rfl]
  exact nofun

/-- A length and as many characters behind it are not too few bytes. -/
theorem prefixed_ne_outOfRange {get : Op (BitVec w)} {d body : List Byte}
    (reads : Reads s.endian get d (.ofNat w body.length)) (holds : Holds s (d ++ body)) (what : String) :
    (do readBuff platform (← get).toNat) s ≠ .thrown (.outOfRange what) t := by
  have inside := holds.right.inside
  have wf := holds.right.wf
  have bound : (BitVec.ofNat w body.length).toNat ≤ body.length := by
    rw [BitVec.toNat_ofNat]
    exact Nat.mod_le _ _
  rw [Call.bind_done (reads s holds.left rfl), readBuff]
  split
  · intro thrown
    cases thrown
  · exact wf.read_ne_thrown (by omega) _ _

theorem map_ne_thrown {error : Thrown} (returns : ∀ t, call s ≠ .thrown error t) (f : α → β) (t : ByteArray) :
    (do return f (← call) : Op β) s ≠ .thrown error t := by
  intro thrown
  rcases Call.bind_eq_thrown thrown with called | ⟨v, u, _, ended⟩
  · exact returns t called
  · cases ended

/-- A complete record is never too short for its reader. -/
theorem CompositeCodec.Complete.ne_outOfRange (wf : Wf s) {codec : CompositeCodec}
    (complete : codec.Complete s.endian s.readable) (what : String) (t : ByteArray) :
    codec.get platform s ≠ .thrown (.outOfRange what) t := by
  cases codec with
  | uint32 => exact map_ne_thrown (wf.readVarint_ne_thrown (by decide) complete _) _ t
  | uint64 => exact map_ne_thrown (wf.readVarint_ne_thrown (by decide) complete _) _ t
  | int32 => exact map_ne_thrown (map_ne_thrown (wf.readVarint_ne_thrown (by decide) complete _) _) _ t
  | int64 => exact map_ne_thrown (map_ne_thrown (wf.readVarint_ne_thrown (by decide) complete _) _) _ t
  | string codec =>
    obtain ⟨d, body, front, announces⟩ := complete
    apply map_ne_thrown
    intro u
    cases codec with
    | f16 => exact prefixed_ne_outOfRange (announces.2 ▸ .fixed (n := 2) announces.1 (by decide)) (wf.holds front) what
    | f32 => exact prefixed_ne_outOfRange (announces.2 ▸ .fixed (n := 4) announces.1 (by decide)) (wf.holds front) what
    | f64 => exact prefixed_ne_outOfRange (announces.2 ▸ .fixed (n := 8) announces.1 (by decide)) (wf.holds front) what
    | vint =>
      obtain ⟨⟨complete, bound⟩, size⟩ := announces
      exact prefixed_ne_outOfRange (size ▸ readVarint_complete complete (by omega)) (wf.holds front) what

/-- A call that does not find a complete record throws and leaves everything as it was. -/
def AllOrNothing (platform : Platform) (codec : CompositeCodec) (s : ByteArray) : Prop :=
  ¬ codec.Complete s.endian s.readable → ∃ what t, codec.get platform s = .thrown (.outOfRange what) t ∧
    t.position = s.position ∧ t.cur = s.cur ∧ t.size = s.size ∧ t.bytes = s.bytes

/-- Incomplete records are left alone exactly if already their first primitive read finds too few bytes. -/
theorem allOrNothing_iff (platform : Platform) (b : ℕ) (heap : ℕ → ℕ → Byte) (base : 1 ≤ b) (s : ByteArray)
    (reached : (machine b heap).Reachable s) (codec : CompositeCodec) :
    AllOrNothing platform codec s ↔
      codec.Complete s.endian s.readable ∨ s.readable.length < codec.firstRead := by
  obtain ⟨wf, _⟩ := reachable_wf base reached
  have length := wf.length_readable
  have position := wf.position
  have starts : StartsWithRead codec.firstRead (codec.get platform) := codec.startsWithRead
  constructor
  · intro all
    by_contra neither
    obtain ⟨incomplete, enough⟩ := not_or.mp neither
    obtain ⟨what, t, thrown, same, _⟩ := all incomplete
    have moved := (starts.taken s wf (by omega)).2 _ t thrown
    have positive := codec.firstRead_pos
    omega
  · rintro (complete | short) incomplete
    · exact absurd complete incomplete
    · exact ⟨_, s, starts.short s wf (by omega), rfl, rfl, rfl, rfl⟩

/-- Half of the length of a string. -/
theorem allOrNothing_half : ∃ s, (machine 2 fun _ _ => 0).Reachable s ∧ s.readable = [0] ∧
    AllOrNothing ⟨.littleEndian, 2 ^ 62, by decide⟩ (.string .f16) s := by
  have reached : (machine 2 fun _ _ => 0).Reachable _ :=
    ⟨_, [(.write [0], .ok .unit), (.setPosition 0, .ok .unit)], rfl,
      .cons (t := _) rfl (.cons (t := _) rfl (.nil _))⟩
  exact ⟨_, reached, rfl, (allOrNothing_iff _ 2 (fun _ _ => 0) (by decide) _ reached _).mpr (.inr (by decide))⟩

/-- The length of a string and one of its five characters: the length is gone when the reader throws. -/
theorem not_allOrNothing : ∃ s t, (machine 4 fun _ _ => 0).Reachable s ∧ s.readable = [0, 5, 97] ∧
    readStringF16 ⟨.littleEndian, 2 ^ 62, by decide⟩ s = .thrown (.outOfRange "not enough len") t ∧
    t.position = s.position + 2 ∧ ¬ AllOrNothing ⟨.littleEndian, 2 ^ 62, by decide⟩ (.string .f16) s := by
  have reached : (machine 4 fun _ _ => 0).Reachable _ :=
    ⟨_, [(.write [0, 5, 97], .ok .unit), (.setPosition 0, .ok .unit)], rfl,
      .cons (t := _) rfl (.cons (t := _) rfl (.nil _))⟩
  refine ⟨_, _, reached, rfl, rfl, rfl, ?_⟩
  intro all
  obtain ⟨what, t, thrown, same, _⟩ := all (by
    rintro ⟨d, body, front, length, size⟩
    change d ++ body <+: [0, 5, 97] at front
    have bound := front.length_le
    have header : d = [0, 5] := by
      have taken := List.prefix_iff_eq_take.mp ((List.prefix_append d body).trans front)
      rw [length] at taken
      exact taken
    rw [List.length_append, length, ← size, header] at bound
    exact absurd bound (by decide))
  cases thrown
  cases same

end Sylar.ByteArray
