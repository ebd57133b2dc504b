import Sylar.Proofs.ByteArray.Runs

/-! # Positions at the end of the chain and past the content

Both the walk of `setPosition` and the one of the positional read need a node for the offset they are given. There
is none for the capacity, which both of them accept.
-/

namespace Sylar.ByteArray

variable {b : ℕ} {heap : ℕ → ℕ → Byte} {s : ByteArray}

/-! ## `setPosition` -/

/-- Past the capacity `setPosition` throws, and up to the capacity it moves the cursor and nothing else but the size,
which is raised to it. -/
structure SetsPosition (s : ByteArray) (v : ℕ) : Prop where
  thrown : s.capacity < v → setPosition v s = .thrown (.outOfRange "set_position out of range") s
  moved : v ≤ s.capacity → setPosition v s = .done () { s with
    position := v
    size := max s.size v
    cur := if v = s.capacity then none else some (v / s.baseSize) }

theorem Wf.setsPosition (wf : Wf s) {v : ℕ} (ne : v ≠ s.capacity) : SetsPosition s v := by
  constructor
  · exact Wf.setPosition_thrown
  · intro bound
    have inside : v < s.capacity := lt_of_le_of_ne bound ne
    have inChain : v < s.baseSize * s.nodes.length := wf.capacity ▸ inside
    rw [wf.setPosition inside, ByteArray.moved, if_neg ne]
    dsimp only
    rw [cursorAt_of_lt inChain]

theorem Wf.setPosition_position (wf : Wf s) (inside : s.position < s.capacity) :
    ByteArray.setPosition s.position s = .done () s := by
  have same : { s with size := max s.size s.position } = s := by rw [max_eq_left wf.position]
  rw [wf.setPosition inside, same, wf.moved_self]

/-- `setPosition` does what it should exactly for the values that are not the capacity. So it can be called with the
position, or with the size, exactly when this is not the capacity. -/
theorem setsPosition_iff (b : ℕ) (heap : ℕ → ℕ → Byte) (base : 1 ≤ b) (s : ByteArray)
    (reached : (machine b heap).Reachable s) (v : ℕ) :
    (SetsPosition s v ↔ v ≠ s.capacity) ∧
      (setPosition s.position s = .done () s ↔ s.position ≠ s.capacity) ∧
      ((∃ t, setPosition s.size s = .done () t) ↔ s.size ≠ s.capacity) := by
  obtain ⟨wf, rfl⟩ := reachable_wf base reached
  have position := wf.position.trans wf.size
  refine ⟨⟨?_, wf.setsPosition⟩, ⟨?_, ?_⟩, ⟨?_, ?_⟩⟩
  · rintro sets rfl
    have returned := sets.moved le_rfl
    rw [wf.setPosition_full] at returned
    cases returned
  · intro returned full
    rw [full, wf.setPosition_full] at returned
    cases returned
  · intro ne
    exact wf.setPosition_position (lt_of_le_of_ne position ne)
  · rintro ⟨t, returned⟩ full
    rw [full, wf.setPosition_full] at returned
    cases returned
  · intro ne
    exact ⟨_, wf.setPosition (lt_of_le_of_ne wf.size ne)⟩

/-- A byte in a node of two. -/
theorem setsPosition_partial : ∃ s, (machine 2 fun _ _ => 0).Reachable s ∧ SetsPosition s 0 ∧
    setPosition s.position s = .done () s := by
  have reached : (machine 2 fun _ _ => 0).Reachable _ :=
    ⟨_, [(.write [7], .ok .unit)], rfl, .cons (t := _) rfl (.nil _)⟩
  have holds := setsPosition_iff 2 (fun _ _ => 0) (by decide) _ reached 0
  exact ⟨_, reached, holds.1.mpr (by decide), holds.2.1.mpr (by decide)⟩

/-- A byte fills a node of one, and the cursor cannot be set to where it is. -/
theorem not_setsPosition_full : ∃ s, (machine 1 fun _ _ => 0).Reachable s ∧ ¬ SetsPosition s s.capacity ∧
    s.position = s.capacity ∧ s.size = s.capacity ∧ (setPosition s.capacity s).cause = some .nullNode := by
  have reached : (machine 1 fun _ _ => 0).Reachable _ :=
    ⟨_, [(.write [7], .ok .unit)], rfl, .cons (t := _) rfl (.nil _)⟩
  refine ⟨_, reached, ?_, rfl, rfl, rfl⟩
  intro sets
  have returned := sets.moved le_rfl
  cases returned

/-! ## The positional read -/

/-- What a call returns or throws, if it ends. -/
def answer {α : Type} : Outcome ByteArray Thrown Fault α → Option (Except Thrown α)
  | .done value _ => some (.ok value)
  | .thrown error _ => some (.error error)
  | .fault _ => none

/-- A positional read throws if it ends past the content, returns the cells there if it does not, and answers at the
cursor as the sequential one does. -/
structure ReadsAt (s : ByteArray) (n p : ℕ) : Prop where
  thrown : s.size < p + n → readAt n p s = .thrown (.outOfRange "not enough len") s
  returned : p + n ≤ s.size → readAt n p s = .done ((s.bytes.drop p).take n) s
  sequential : p = s.position → answer (readAt n p s) = answer (read n s)

theorem readAt_thrown {n p : ℕ} (short : sizeSub s.size p < n) :
    readAt n p s = .thrown (.outOfRange "not enough len") s := by
  rw [readAt, if_pos short]

/-- A read that passes the check does not throw. -/
theorem readAt_ne_thrown {n p : ℕ} (enough : n ≤ sizeSub s.size p) (error : Thrown) (t : ByteArray) :
    readAt n p s ≠ .thrown error t := by
  intro thrown
  rw [readAt, if_neg (Nat.not_lt.mpr enough)] at thrown
  dsimp only at thrown
  cases walked : follow s.nodes (p / s.baseSize) with
  | error cause =>
    rw [walked] at thrown
    cases thrown
  | ok cur =>
    rw [walked] at thrown
    dsimp only at thrown
    cases copied : copyAcross (copyOut s.nodes) s.nodes cur (p % s.baseSize) n [] with
    | error cause =>
      rw [copied] at thrown
      cases thrown
    | ok out =>
      rw [copied] at thrown
      cases thrown

/-- As many steps as there are nodes lead past the last one. -/
theorem follow_length {nodes : List Node} (root : 0 < nodes.length) : follow nodes nodes.length = .ok none := by
  obtain ⟨count, length⟩ : ∃ count, nodes.length = count + 1 := ⟨nodes.length - 1, by omega⟩
  rw [length, follow, follow_eq (by omega)]
  simp only [bind, Except.bind, length, lt_irrefl, if_false]

/-- At the end of a full chain even an empty read looks at the null node. -/
theorem Wf.readAt_full (wf : Wf s) (full : s.size = s.capacity) :
    ByteArray.readAt 0 s.capacity s = .fault .nullNode := by
  rw [ByteArray.readAt, full, sizeSub_of_le le_rfl, if_neg (Nat.not_lt_zero _)]
  dsimp only
  rw [wf.capacity, Nat.mul_div_cancel_left _ wf.base, follow_length wf.root]
  rfl

theorem Wf.readsAt (wf : Wf s) {n p : ℕ} (bound : p ≤ s.size) (free : ¬ (p = s.capacity ∧ n = 0)) :
    ReadsAt s n p := by
  have size := wf.size
  rcases Nat.lt_or_ge s.size (p + n) with short | enough
  · have thrown : ByteArray.readAt n p s = .thrown (.outOfRange "not enough len") s := by
      apply readAt_thrown
      rw [sizeSub_of_le bound]
      omega
    refine ⟨fun _ => thrown, fun enough => absurd enough (by omega), ?_⟩
    rintro rfl
    rw [thrown, wf.read_thrown short]
  · have inside : p < s.capacity := by omega
    have returned := wf.readAt enough inside
    refine ⟨fun short => absurd short (by omega), fun _ => returned, ?_⟩
    rintro rfl
    rw [returned, wf.read enough inside]
    rfl

/-- For a position within the content the positional read does what it should unless nothing is read at the end of a
full chain, and for one past the content exactly when the length wraps the check. -/
theorem readsAt_iff (b : ℕ) (heap : ℕ → ℕ → Byte) (base : 1 ≤ b) (s : ByteArray)
    (reached : (machine b heap).Reachable s) (n p : BitVec 64) :
    ReadsAt s n.toNat p.toNat ↔
      (p.toNat ≤ s.size ∧ ¬ (p.toNat = s.capacity ∧ n.toNat = 0)) ∨
        (s.size < p.toNat ∧ s.size + 2 ^ 64 < p.toNat + n.toNat) := by
  obtain ⟨wf, rfl⟩ := reachable_wf base reached
  have size := wf.size
  have wide := p.isLt
  rcases Nat.lt_or_ge s.size p.toNat with past | bound
  · have wrapped : sizeSub s.size p.toNat = s.size + 2 ^ 64 - p.toNat := if_neg (by omega)
    constructor
    · intro reads
      refine .inr ⟨past, ?_⟩
      by_contra enough
      exact readAt_ne_thrown (by omega) _ _ (reads.thrown (by omega))
    · rintro (⟨bound, -⟩ | ⟨-, long⟩)
      · omega
      · have thrown : readAt n.toNat p.toNat s = _ := readAt_thrown (by omega)
        refine ⟨fun _ => thrown, fun enough => absurd enough (by omega), ?_⟩
        intro same
        have position := wf.position
        omega
  · constructor
    · intro reads
      refine .inl ⟨bound, ?_⟩
      rintro ⟨same, empty⟩
      have returned := reads.returned (by omega)
      rw [same, empty, wf.readAt_full (by omega)] at returned
      cases returned
    · rintro (⟨-, free⟩ | ⟨past, -⟩)
      · exact wf.readsAt bound free
      · omega

/-- Two of three bytes, across the border of the first node. -/
theorem readsAt_border : ∃ s, (machine 2 fun _ _ => 0).Reachable s ∧ ReadsAt s 2 1 ∧ s.size = 3 := by
  have reached : (machine 2 fun _ _ => 0).Reachable _ :=
    ⟨_, [(.write [7, 8, 9], .ok .unit)], rfl, .cons (t := _) rfl (.nil _)⟩
  exact ⟨_, reached, (readsAt_iff 2 (fun _ _ => 0) (by decide) _ reached 2 1).mpr (.inl (by decide)), rfl⟩

/-- Of a fresh array a byte past the content can be read, and of a full one nothing can be read at its end. -/
theorem not_readsAt : (∃ s, (machine 2 fun _ _ => 0).Reachable s ∧ ¬ ReadsAt s 1 1 ∧ s.size = 0 ∧
      readAt 1 1 s = .done [0] s) ∧
    ∃ s, (machine 1 fun _ _ => 0).Reachable s ∧ ¬ ReadsAt s 0 1 ∧ s.size = 1 ∧
      (readAt 0 1 s).cause = some .nullNode := by
  constructor
  · refine ⟨new 2 fun _ _ => 0, ⟨_, [], rfl, .nil _⟩, ?_, rfl, rfl⟩
    intro reads
    have thrown := reads.thrown (by decide)
    cases thrown
  · have reached : (machine 1 fun _ _ => 0).Reachable _ :=
      ⟨_, [(.write [7], .ok .unit)], rfl, .cons (t := _) rfl (.nil _)⟩
    refine ⟨_, reached, ?_, rfl, rfl⟩
    intro reads
    have returned := reads.returned (by decide)
    cases returned

end Sylar.ByteArray
