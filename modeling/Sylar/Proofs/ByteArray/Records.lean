import Sylar.Proofs.ByteArray.Runs

/-! # Writers, readers and the bytes between them

A writer is described by the bytes it stores behind the cursor, a reader by the bytes it takes and
the value it makes of them. A writer and a reader that agree on those bytes are matched. Matched
pairs compose, so a whole format is matched once each of its records is, and a matched pair
round-trips wherever the cursor stood.
-/

namespace Sylar.ByteArray

variable {α β : Type} {s t u : ByteArray} {d e : List Byte} {endian : ByteOrder} {v : α} {v' : β}

/-! ## Storing -/

/-- `d` has been stored behind the cursor, on a chain of the least length that holds it. -/
structure Stored (s : ByteArray) (d : List Byte) (t : ByteArray) : Prop where
  wf : Wf t
  baseSize : t.baseSize = s.baseSize
  endian : t.endian = s.endian
  flat : s.flat.Stores d t.flat
  length : t.nodes.length = max s.nodes.length ((t.position + (s.baseSize - 1)) / s.baseSize)

theorem Wf.start (wf : Wf s) : s.flat.cursor ≤ s.flat.cells.length := by
  change s.position ≤ s.bytes.length
  rw [wf.length_bytes]
  exact wf.position.trans wf.size

theorem Wf.stored_nil (wf : Wf s) : Stored s [] s where
  wf := wf
  baseSize := rfl
  endian := rfl
  flat := .nil _ wf.position
  length := (max_eq_left wf.length_least).symm

theorem Written.stored (wf : Wf s) (written : Written s d t) : Stored s d t := by
  cases d with
  | nil => exact written.same rfl ▸ wf.stored_nil
  | cons byte rest =>
    exact {
      wf := written.wf
      baseSize := written.baseSize
      endian := written.endian
      flat := written.stores wf
      length := written.length (List.cons_ne_nil byte rest) }

theorem Stored.position (stored : Stored s d t) : t.position = s.position + d.length :=
  stored.flat.cursor

theorem Stored.trans (wf : Wf s) (first : Stored s d t) (second : Stored t e u) :
    Stored s (d ++ e) u where
  wf := second.wf
  baseSize := second.baseSize.trans first.baseSize
  endian := second.endian.trans first.endian
  flat := first.flat.trans second.flat wf.start
  length := by
    have later : (t.position + (s.baseSize - 1)) / s.baseSize ≤
        (u.position + (s.baseSize - 1)) / s.baseSize := by
      apply Nat.div_le_div_right
      have := second.position
      omega
    rw [second.length, first.length, first.baseSize]
    omega

/-! ## What the cursor stands in front of -/

/-- The content behind the cursor starts with `d`. -/
structure Holds (s : ByteArray) (d : List Byte) : Prop where
  wf : Wf s
  inside : s.position + d.length ≤ s.size
  view : s.flat.view d.length = d

theorem Holds.left (holds : Holds s (d ++ e)) : Holds s d where
  wf := holds.wf
  inside := by
    have := holds.inside
    rw [List.length_append] at this
    omega
  view := by
    have whole := congrArg (List.take d.length) holds.view
    rw [FlatFile.view, List.take_take, List.take_left, List.length_append,
      Nat.min_eq_left (Nat.le_add_right _ _)] at whole
    exact whole

theorem Holds.right (holds : Holds s (d ++ e)) : Holds (s.moved (s.position + d.length)) e where
  wf := holds.wf.moved holds.left.inside
  inside := by
    have := holds.inside
    rw [List.length_append] at this
    simp only [position_moved, size_moved]
    omega
  view := by
    have whole := congrArg (List.drop d.length) holds.view
    rw [FlatFile.view, List.drop_take, List.drop_left, List.length_append, Nat.add_sub_cancel_left,
      List.drop_drop] at whole
    exact whole

/-- The bytes between the cursor and the end of the content. -/
def readable (s : ByteArray) : List Byte := s.flat.view (s.size - s.position)

theorem Wf.length_readable (wf : Wf s) : s.readable.length = s.size - s.position := by
  have size := wf.size
  have cells : s.flat.cells.length = s.capacity := wf.length_bytes
  have cursor : s.flat.cursor = s.position := rfl
  rw [readable, FlatFile.view, List.length_take, List.length_drop, cells, cursor]
  omega

theorem Wf.holds (wf : Wf s) (front : d <+: s.readable) : Holds s d := by
  have position := wf.position
  have length := front.length_le
  rw [wf.length_readable] at length
  refine ⟨wf, by omega, ?_⟩
  have taken := List.prefix_iff_eq_take.mp front
  rw [readable, FlatFile.view, List.take_take, Nat.min_eq_left length] at taken
  exact taken.symm

/-- A read of what the cursor stands in front of returns it, unless it is empty and the chain is full. -/
theorem Holds.read (holds : Holds s d) (free : ¬ (d = [] ∧ s.position + d.length = s.capacity)) :
    ByteArray.read d.length s = .done d (s.moved (s.position + d.length)) := by
  have inside := holds.inside
  rcases holds.wf.read_cases d.length with ⟨short, _⟩ | ⟨_, _, returned⟩ | ⟨_, full, _⟩
  · exact absurd inside (Nat.not_le.mpr short)
  · exact returned.trans (congrArg (Outcome.done · _) holds.view)
  · have size := holds.wf.size
    have none : d.length = 0 := by omega
    rw [none] at free
    exact absurd ⟨List.eq_nil_of_length_eq_zero none, full⟩ free

theorem Holds.read_iff (holds : Holds s d) :
    (∃ t, ByteArray.read d.length s = .done d t) ↔ ¬ (d = [] ∧ s.position + d.length = s.capacity) := by
  constructor
  · rintro ⟨t, returned⟩ ⟨rfl, full⟩
    rw [holds.wf.read_full holds.inside full] at returned
    cases returned
  · intro free
    exact ⟨_, holds.read free⟩

/-- Back where a writer started, the cursor stands in front of what it stored. -/
theorem Stored.holds (stored : Stored s d t) : Holds (t.moved s.position) d where
  wf := stored.wf.moved (by have := stored.wf.position; have := stored.position; omega)
  inside := by
    have := stored.wf.position
    have := stored.position
    simp only [position_moved, size_moved]
    omega
  view := stored.flat.stored

/-- Going back to where a writer started changes nothing but the cursor. -/
theorem Stored.setPosition (stored : Stored s d t) (inside : s.position < t.capacity) :
    ByteArray.setPosition s.position t = .done () (t.moved s.position) := by
  have content : max t.size s.position = t.size := by
    have := stored.wf.position
    have := stored.position
    omega
  rw [stored.wf.setPosition inside, content]

/-- A chain of the least length that holds what was stored ends with it if this is a multiple of the base size that
is not below the old capacity. -/
theorem Stored.full_iff (wf : Wf s) (stored : Stored s d t) :
    t.position = t.capacity ↔ s.baseSize ∣ s.position + d.length ∧ s.capacity ≤ s.position + d.length := by
  have base := wf.base
  have capacity : t.capacity = s.baseSize * t.nodes.length := stored.wf.capacity.trans (by rw [stored.baseSize])
  rw [capacity, stored.length, stored.position, wf.capacity]
  constructor
  · intro full
    refine ⟨⟨_, full⟩, ?_⟩
    rw [full]
    exact Nat.mul_le_mul_left _ (le_max_left _ _)
  · rintro ⟨⟨k, exact⟩, bound⟩
    rw [exact] at bound ⊢
    have longer : s.nodes.length ≤ k := Nat.le_of_mul_le_mul_left bound base
    rw [Nat.mul_add_div base, Nat.div_eq_of_lt (by omega), Nat.add_zero, max_eq_right longer]

/-! ## Writers and readers -/

/-- `op` stores `d` and returns. -/
def Emits (endian : ByteOrder) (op : Op Unit) (d : List Byte) : Prop :=
  ∀ s, Wf s → s.endian = endian → ∃ t, op s = .done () t ∧ Stored s d t

/-- In front of `d`, `op` returns `v` and moves the cursor over exactly these bytes. -/
def Reads (endian : ByteOrder) (op : Op α) (d : List Byte) (v : α) : Prop :=
  ∀ s, Holds s d → s.endian = endian → op s = .done v (s.moved (s.position + d.length))

theorem Emits.write (endian : ByteOrder) (d : List Byte) : Emits endian (ByteArray.write d) d := by
  intro s wf _
  obtain ⟨t, ran, written⟩ := wf.write d
  exact ⟨t, ran, written.stored wf⟩

theorem Emits.pure (endian : ByteOrder) : Emits endian (Pure.pure ()) [] :=
  fun s wf _ => ⟨s, rfl, wf.stored_nil⟩

theorem Emits.bind {first second : Op Unit} (left : Emits endian first d)
    (right : Emits endian second e) : Emits endian (first >>= fun _ => second) (d ++ e) := by
  intro s wf order
  obtain ⟨t, ran, stored⟩ := left s wf order
  obtain ⟨u, ran', stored'⟩ := right t stored.wf (stored.endian.trans order)
  exact ⟨u, (Call.bind_done ran).trans ran', stored.trans wf stored'⟩

theorem Reads.read (endian : ByteOrder) (pending : d ≠ []) :
    Reads endian (ByteArray.read d.length) d d := by
  intro s holds _
  exact holds.read fun none => pending none.1

theorem Reads.pure (endian : ByteOrder) (v : α) : Reads endian (Pure.pure v) [] v := by
  intro s holds _
  rw [Call.pure_apply, List.length_nil, Nat.add_zero, holds.wf.moved_self]

theorem Reads.bind {first : Op α} {second : α → Op β} (left : Reads endian first d v)
    (right : Reads endian (second v) e v') : Reads endian (first >>= second) (d ++ e) v' := by
  intro s holds order
  rw [Call.bind_done (left s holds.left order), right _ holds.right order]
  simp only [position_moved, moved_moved, List.length_append, Nat.add_assoc]

/-- Post-processing the value takes no further bytes. -/
theorem Reads.map {first : Op α} (left : Reads endian first d v) (f : α → β) :
    Reads endian (do return f (← first)) d (f v) := by
  have reads : Reads endian (do return f (← first)) (d ++ []) (f v) :=
    left.bind (.pure endian (f v))
  rwa [List.append_nil] at reads

/-- `put` stores `n` bytes from which `get` makes `v`. -/
def Matched (endian : ByteOrder) (n : ℕ) (put : Op Unit) (get : Op α) (v : α) : Prop :=
  ∃ d, d.length = n ∧ Emits endian put d ∧ Reads endian get d v

namespace Matched

variable {n m : ℕ} {put put' : Op Unit} {get : Op α} {get' : α → Op β}

theorem bind (first : Matched endian n put get v) (second : Matched endian m put' (get' v) v') :
    Matched endian (n + m) (put >>= fun _ => put') (get >>= get') v' := by
  obtain ⟨d, rfl, emits, reads⟩ := first
  obtain ⟨e, rfl, emits', reads'⟩ := second
  exact ⟨d ++ e, List.length_append, emits.bind emits', reads.bind reads'⟩

theorem map (first : Matched endian n put get v) (f : α → β) :
    Matched endian n put (do return f (← get)) (f v) := by
  obtain ⟨d, length, emits, reads⟩ := first
  exact ⟨d, length, emits, reads.map f⟩

theorem pure (endian : ByteOrder) (v : α) : Matched endian 0 (Pure.pure ()) (Pure.pure v) v :=
  ⟨[], rfl, .pure endian, .pure endian v⟩

/-- Writing, going back and reading returns the value and ends in the state the writer left. -/
theorem round_trip (wf : Wf s) (pair : Matched s.endian n put get v) (pending : 0 < n) :
    ∃ t u, put s = .done () t ∧ ByteArray.setPosition s.position t = .done () u ∧
      get u = .done v t := by
  obtain ⟨d, rfl, emits, reads⟩ := pair
  obtain ⟨t, ran, stored⟩ := emits s wf rfl
  have position := stored.position
  have inside : s.position < t.capacity := by
    have := stored.wf.position
    have := stored.wf.size
    omega
  refine ⟨t, _, ran, stored.setPosition inside, ?_⟩
  rw [reads _ stored.holds stored.endian, position_moved, moved_moved, ← position,
    stored.wf.moved_self]

end Matched

end Sylar.ByteArray
