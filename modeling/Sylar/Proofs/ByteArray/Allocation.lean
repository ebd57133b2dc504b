import Sylar.Model.ByteArray.Allocation
import Sylar.Proofs.ByteArray.Records

/-! # What an allocation failure leaves

The nodes linked before the failure are as good as if they had been asked for, and the node pointer is as it was. This
is where it should be unless it was null and there are new nodes, in the first of which the cursor now stands.
-/

namespace Sylar.ByteArray

variable {b : ℕ} {heap : ℕ → ℕ → Byte} {s t : ByteArray} {size k : ℕ}

/-! ## The loop -/

theorem appendNodes_add (first second : ℕ) (s : ByteArray) :
    appendNodes (first + second) s = appendNodes second (appendNodes first s) := by
  induction second with
  | zero => rfl
  | succ second ih => rw [← Nat.add_assoc, appendNodes, ih, appendNodes]

/-- The loop throws if it needs more nodes than there are, and leaves those it was given. -/
theorem appendNodesWith_eq (supply count : ℕ) (s : ByteArray) : appendNodesWith supply count s =
    if supply < count then .thrown .badAlloc (appendNodes supply s) else .done () (appendNodes count s) := by
  induction supply generalizing count s with
  | zero =>
    cases count with
    | zero => rfl
    | succ count => rw [if_pos (Nat.succ_pos count)]; rfl
  | succ supply ih =>
    cases count with
    | zero => rfl
    | succ count =>
      have later (rounds : ℕ) : appendNodes (rounds + 1) s = appendNodes rounds (appendNodes 1 s) := by
        rw [Nat.add_comm, appendNodes_add]
      rw [later supply, later count]
      simp only [Nat.add_lt_add_iff_right]
      exact ih count (appendNodes 1 s)

/-- With enough nodes `addCapacity` does what it does when no allocation fails; with too few it leaves those it was
given and does nothing else. -/
theorem addCapacityWith_cases (supply size : ℕ) (s : ByteArray) :
    addCapacityWith supply size s = .done () (s.addCapacity size) ∨
      addCapacityWith supply size s = .thrown .badAlloc (appendNodes supply s) := by
  rw [addCapacityWith, addCapacity]
  split
  · exact .inl rfl
  · dsimp only
    split
    · exact .inl rfl
    · generalize (size - s.getCapacity) / s.baseSize +
        (if (size - s.getCapacity) % s.baseSize ≠ 0 then 1 else 0) = count
      have looped := appendNodesWith_eq supply count s
      rcases Nat.lt_or_ge supply count with short | enough
      · rw [if_pos short] at looped
        exact .inr (Call.bind_thrown looped)
      · rw [if_neg (Nat.not_lt.mpr enough)] at looped
        exact .inl (Call.bind_done looped)

theorem eq_of_badAlloc (failed : addCapacityWith k size s = .thrown .badAlloc t) : t = appendNodes k s := by
  rcases addCapacityWith_cases k size s with done | thrown
  · rw [done] at failed
    cases failed
  · rw [thrown] at failed
    cases failed
    rfl

/-! ## The state that is left -/

/-- The representation invariant, with the readable bytes of `s`, and room for what fits in the capacity. -/
structure Usable (s t : ByteArray) : Prop where
  position : t.position ≤ t.size
  size : t.size ≤ t.capacity
  capacity : t.capacity = t.baseSize * t.nodes.length
  cur : t.cur = if t.position = t.capacity then none else some (t.position / t.baseSize)
  readable : t.readable = s.readable
  write : ∀ buf, t.position + buf.length ≤ t.capacity → ∃ u, ByteArray.write buf t = .done () u

theorem Wf.readable_grown (wf : Wf s) (count : ℕ) : (s.grown count).readable = s.readable := by
  have position := wf.position
  have size := wf.size
  have length := wf.length_bytes
  change ((s.grown count).bytes.drop s.position).take (s.size - s.position) =
    (s.bytes.drop s.position).take (s.size - s.position)
  rw [bytes_grown, List.drop_append_of_le_length (by omega), List.take_append_of_le_length]
  rw [List.length_drop]
  omega

theorem Wf.usable_grown (wf : Wf s) (count : ℕ) : Usable s (s.grown count) := by
  have wf' := wf.grown count
  have position := wf'.position.trans wf'.size
  have capacity := wf'.capacity
  exact {
    position := wf'.position
    size := wf'.size
    capacity := capacity
    cur := by
      rw [wf'.cur]
      rcases eq_or_ne (s.grown count).position (s.grown count).capacity with full | notFull
      · rw [if_pos full, full, capacity, cursorAt_full wf'.base]
      · rw [if_neg notFull, cursorAt_of_lt (by omega)]
    readable := wf.readable_grown count
    write := fun buf _ => by
      obtain ⟨u, wrote, _⟩ := wf'.write buf
      exact ⟨u, wrote⟩ }

/-- The failure strikes where the node pointer needs no correction: before the first node, or in an array that is not
full. -/
def Harmless (s : ByteArray) : AllocEvent → Prop
  | .call _ => True
  | .badAlloc _ k => ¬ (s.position = s.capacity ∧ 1 ≤ k)

theorem Wf.appendNodes_eq_grown (wf : Wf s) (harmless : ¬ (s.position = s.capacity ∧ 1 ≤ k)) :
    appendNodes k s = s.grown k := by
  have capacity := wf.capacity
  have bound := wf.position.trans wf.size
  rcases Nat.eq_zero_or_pos k with rfl | given
  · exact (grown_zero wf).symm
  · have inside : s.position < s.baseSize * s.nodes.length := by omega
    have longer : s.position < s.baseSize * (s.nodes ++ s.freshNodes k).length := by
      rw [List.length_append, Nat.mul_add]
      omega
    rw [appendNodes_eq, ByteArray.grown, ByteArray.moved]
    simp only [wf.cur, cursorAt_of_lt inside, cursorAt_of_lt longer]

/-- A full array that has been given nodes has lost its place. -/
theorem Wf.not_usable (wf : Wf s) (full : s.position = s.capacity) (given : 1 ≤ k) : ¬ Usable s (appendNodes k s) := by
  intro usable
  have cur := usable.cur
  have longer : s.capacity < s.capacity + s.baseSize * k :=
    Nat.lt_add_of_pos_right (Nat.mul_pos wf.base given)
  rw [appendNodes_eq] at cur
  dsimp only at cur
  rw [wf.cur, full, if_neg longer.ne, wf.capacity, cursorAt_full wf.base] at cur
  cases cur

theorem Wf.usable_iff (wf : Wf s) (failed : addCapacityWith k size s = .thrown .badAlloc t) :
    Usable s t ↔ Harmless s (.badAlloc size k) := by
  obtain rfl := eq_of_badAlloc failed
  constructor
  · rintro usable ⟨full, given⟩
    exact wf.not_usable full given usable
  · intro harmless
    rw [wf.appendNodes_eq_grown harmless]
    exact wf.usable_grown k

/-! ## Runs -/

/-- Harmless failures keep the invariant. -/
theorem allocMachine_wf (base : 1 ≤ b) (reached : ((allocMachine b heap).restrict Harmless).Reachable s) :
    Wf s ∧ s.baseSize = b := by
  apply reached.invariant (P := fun s => Wf s ∧ s.baseSize = b)
  · rintro _ rfl
    exact ⟨new_wf base heap, rfl⟩
  · rintro s event t ⟨wf, size⟩ ⟨harmless, step⟩
    cases event with
    | call event =>
      have called : (machine b heap).Step s event t := step
      have next := (wf.effect called).wf wf
      exact ⟨next.1, next.2.trans size⟩
    | badAlloc request k =>
      obtain rfl := eq_of_badAlloc step
      rw [wf.appendNodes_eq_grown harmless]
      exact ⟨wf.grown k, size⟩

/-- In a run whose failures so far were harmless, a failure leaves the array usable exactly if it is harmless too. -/
theorem badAlloc_usable_iff (b : ℕ) (heap : ℕ → ℕ → Byte) (base : 1 ≤ b) (s : ByteArray)
    (reached : ((allocMachine b heap).restrict Harmless).Reachable s) (size k : ℕ) (t : ByteArray)
    (failed : addCapacityWith k size s = .thrown .badAlloc t) :
    Usable s t ↔ ¬ (s.position = s.capacity ∧ 1 ≤ k) :=
  (allocMachine_wf base reached).1.usable_iff failed

/-- The states of calls that all complete are among those of the theorem. -/
theorem reachable_allocMachine (reached : (machine b heap).Reachable s) :
    ((allocMachine b heap).restrict Harmless).Reachable s := by
  obtain ⟨initial, events, start, path⟩ := reached
  refine ⟨initial, events.map .call, start, ?_⟩
  clear start
  induction path with
  | nil s => exact .nil s
  | cons step _ ih => exact .cons ⟨trivial, step⟩ ih

/-- One of two nodes for an array whose node is half full. -/
theorem badAlloc_usable_half : ∃ s t, (machine 2 fun _ _ => 0).Reachable s ∧ s.position = 1 ∧
    addCapacityWith 1 5 s = .thrown .badAlloc t ∧ Usable s t := by
  have reached : (machine 2 fun _ _ => 0).Reachable _ :=
    ⟨_, [(.write [7], .ok .unit)], rfl, .cons (t := _) rfl (.nil _)⟩
  refine ⟨_, _, reached, rfl, rfl, ?_⟩
  exact (badAlloc_usable_iff 2 (fun _ _ => 0) (by decide) _ (reachable_allocMachine reached) 5 1 _ rfl).mpr (by decide)

/-- One of two nodes for a full array: a byte for which there is room now is written through the null pointer. -/
theorem badAlloc_not_usable_full : ∃ s t, (machine 1 fun _ _ => 0).Reachable s ∧
    addCapacityWith 1 2 s = .thrown .badAlloc t ∧ ¬ Usable s t ∧ t.position + 1 ≤ t.capacity ∧
    (write [8] t).cause = some .nullNode := by
  have reached : (machine 1 fun _ _ => 0).Reachable _ :=
    ⟨_, [(.write [7], .ok .unit)], rfl, .cons (t := _) rfl (.nil _)⟩
  refine ⟨_, _, reached, rfl, ?_, by decide, rfl⟩
  intro usable
  cases usable.cur

end Sylar.ByteArray
