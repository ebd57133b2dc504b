import Sylar.Proofs.ByteArray.Chain

/-! # The representation invariant and what each call does to a state that has it

`Wf` ties position, size, capacity, chain and node pointer together. Every call has one
specification lemma, stated for a well-formed state: which outcome it has, which state it leaves, and
that this state is well-formed again. Later proofs use these lemmas and never look into a loop.
-/

namespace Sylar.ByteArray

/-- The members agree with each other and the node pointer is aligned with the cursor. -/
structure Wf (s : ByteArray) : Prop where
  base : 0 < s.baseSize
  sized : Sized s.baseSize s.nodes
  root : 0 < s.nodes.length
  capacity : s.capacity = s.baseSize * s.nodes.length
  position : s.position ≤ s.size
  size : s.size ≤ s.capacity
  cur : s.cur = cursorAt s.baseSize s.nodes.length s.position

/-- The same content with the cursor, and the node pointer with it, at `p`. -/
def moved (s : ByteArray) (p : ℕ) : ByteArray :=
  { s with position := p, cur := cursorAt s.baseSize s.nodes.length p }

@[simp] theorem position_moved (s : ByteArray) (p : ℕ) : (s.moved p).position = p := rfl
@[simp] theorem size_moved (s : ByteArray) (p : ℕ) : (s.moved p).size = s.size := rfl
@[simp] theorem moved_moved (s : ByteArray) (p q : ℕ) : (s.moved p).moved q = s.moved q := rfl

namespace Wf

variable {s : ByteArray}

theorem length_bytes (wf : Wf s) : s.bytes.length = s.capacity := by
  rw [bytes, wf.sized.length_flatten, wf.capacity]

theorem getReadSize (wf : Wf s) : s.getReadSize = s.size - s.position := sizeSub_of_le wf.position

theorem getCapacity (wf : Wf s) : s.getCapacity = s.capacity - s.position :=
  sizeSub_of_le (wf.position.trans wf.size)

theorem capacity_pos (wf : Wf s) : 0 < s.capacity := by
  rw [wf.capacity]; exact Nat.mul_pos wf.base wf.root

theorem moved_self (wf : Wf s) : s.moved s.position = s := by rw [moved, ← wf.cur]

theorem moved (wf : Wf s) {p : ℕ} (bound : p ≤ s.size) : Wf (s.moved p) :=
  { wf with position := bound, cur := rfl }

end Wf

theorem new_wf {b : ℕ} (base : 0 < b) (heap : ℕ → ℕ → Byte) : Wf (new b heap) where
  base := base
  sized := by
    intro node member
    obtain rfl := List.mem_singleton.mp member
    exact ⟨rfl, by simp [Node.new, new]⟩
  root := Nat.one_pos
  capacity := (Nat.mul_one b).symm
  position := le_rfl
  size := Nat.zero_le b
  cur := by rw [cursorAt_of_lt (by simpa [new] using base)]; simp [new]

/-! ## Growing the chain -/

/-- The nodes that the next `count` allocations return. -/
def freshNodes (s : ByteArray) (count : ℕ) : List Node :=
  (List.range count).map fun i => Node.new s.baseSize (s.heap (s.allocated + i))

theorem appendNodes_eq (count : ℕ) (s : ByteArray) :
    appendNodes count s = { s with
      nodes := s.nodes ++ s.freshNodes count
      capacity := s.capacity + s.baseSize * count
      allocated := s.allocated + count } := by
  induction count with
  | zero => simp [appendNodes, freshNodes]
  | succ count ih =>
    simp only [appendNodes, ih, freshNodes, List.range_succ, List.map_append, List.map_cons,
      List.map_nil, List.append_assoc, Nat.mul_add, Nat.mul_one, Nat.add_assoc]

theorem freshNodes_sized (s : ByteArray) (count : ℕ) : Sized s.baseSize (s.freshNodes count) := by
  intro node member
  obtain ⟨i, _, rfl⟩ := List.mem_map.mp member
  exact ⟨rfl, by rw [Node.new, List.length_map, List.length_range]⟩

/-- The number of nodes `addCapacity` asks for is the quotient rounded up. -/
theorem roundUp_eq {b : ℕ} (base : 0 < b) (n : ℕ) :
    n / b + (if n % b ≠ 0 then 1 else 0) = (n + (b - 1)) / b := by
  have split := Nat.div_add_mod n b
  have small := Nat.mod_lt n base
  by_cases exact : n % b = 0
  · have regroup : n + (b - 1) = b * (n / b) + (b - 1) := by omega
    rw [if_neg (by omega), regroup, Nat.mul_add_div base,
      Nat.div_eq_of_lt (show b - 1 < b by omega)]
  · have regroup : n + (b - 1) = b * (n / b + 1) + (n % b - 1) := by rw [Nat.mul_add]; omega
    rw [if_pos exact, regroup, Nat.mul_add_div base,
      Nat.div_eq_of_lt (show n % b - 1 < b by omega), Nat.add_zero]

/-- The same content and cursor on a chain of `count` more nodes. -/
def grown (s : ByteArray) (count : ℕ) : ByteArray :=
  ({ s with
    nodes := s.nodes ++ s.freshNodes count
    capacity := s.capacity + s.baseSize * count
    allocated := s.allocated + count } : ByteArray).moved s.position

theorem length_freshNodes (s : ByteArray) (count : ℕ) : (s.freshNodes count).length = count := by
  rw [freshNodes, List.length_map, List.length_range]

theorem bytes_grown (s : ByteArray) (count : ℕ) :
    (s.grown count).bytes = s.bytes ++ ((s.freshNodes count).map Node.ptr).flatten := by
  simp only [bytes, grown, moved, List.map_append, List.flatten_append]

theorem Wf.grown {s : ByteArray} (wf : Wf s) (count : ℕ) : Wf (s.grown count) where
  base := wf.base
  sized := by
    intro node member
    rcases List.mem_append.mp member with old | fresh
    · exact wf.sized node old
    · exact freshNodes_sized s count node fresh
  root := by
    change 0 < (s.nodes ++ s.freshNodes count).length
    rw [List.length_append]
    have := wf.root
    omega
  capacity := by
    change s.capacity + s.baseSize * count = s.baseSize * (s.nodes ++ s.freshNodes count).length
    rw [List.length_append, length_freshNodes, Nat.mul_add, wf.capacity]
  position := wf.position
  size := wf.size.trans (Nat.le_add_right _ _)
  cur := rfl

/-- `addCapacity` grows the chain to the least number of nodes that holds `n` more bytes behind the
cursor, and changes nothing else but the null pointer of a full chain. -/
theorem Wf.addCapacity {s : ByteArray} (wf : Wf s) {n : ℕ} (pending : 0 < n) :
    ∃ count, s.addCapacity n = s.grown count ∧ s.nodes.length + count =
      max s.nodes.length ((s.position + n + (s.baseSize - 1)) / s.baseSize) := by
  have base := wf.base
  have bound : s.position ≤ s.capacity := wf.position.trans wf.size
  have capacity := wf.capacity
  rw [ByteArray.addCapacity, if_neg (by omega), wf.getCapacity]
  by_cases enough : s.capacity - s.position ≥ n
  · refine ⟨0, ?_, ?_⟩
    · rw [if_pos enough, ByteArray.grown]
      simp only [freshNodes, List.range_zero, List.map_nil, List.append_nil, Nat.mul_zero, Nat.add_zero]
      exact wf.moved_self.symm
    · have least : (s.position + n + (s.baseSize - 1)) / s.baseSize ≤ s.nodes.length := by
        rw [Nat.div_le_iff_le_mul_add_pred base]
        omega
      omega
  · generalize extraEq : n - (s.capacity - s.position) = extra
    generalize countEq : (extra + (s.baseSize - 1)) / s.baseSize = count
    have least : (s.position + n + (s.baseSize - 1)) / s.baseSize = s.nodes.length + count := by
      have regroup : s.position + n + (s.baseSize - 1) =
          s.baseSize * s.nodes.length + (extra + (s.baseSize - 1)) := by omega
      rw [regroup, Nat.mul_add_div base, countEq]
    have countPos : 0 < count := by
      rw [← countEq]
      exact Nat.div_pos (by omega) base
    have grown : s.nodes.length < (s.nodes ++ s.freshNodes count).length := by
      rw [List.length_append, length_freshNodes]; omega
    refine ⟨count, ?_, by omega⟩
    rw [if_neg enough]
    dsimp only
    rw [roundUp_eq base, extraEq, countEq, if_neg (show ¬ count = 0 by omega), appendNodes_eq]
    by_cases full : s.capacity - s.position = 0
    · have atEnd : s.position / s.baseSize = s.nodes.length := by
        rw [show s.position = s.baseSize * s.nodes.length by omega, Nat.mul_div_cancel_left _ base]
      rw [if_pos full, ByteArray.grown, ByteArray.moved]
      simp only [cursorAt, atEnd, if_pos grown]
    · have inChain : s.position / s.baseSize < s.nodes.length :=
        Nat.div_lt_of_lt_mul (by omega)
      rw [if_neg full, ByteArray.grown, ByteArray.moved]
      simp only [cursorAt, if_pos (inChain.trans grown), wf.cur, if_pos inChain]

/-- The grown chain holds the bytes that were asked for. -/
theorem Wf.addCapacity_room {s : ByteArray} (wf : Wf s) {n count : ℕ}
    (least : s.nodes.length + count =
      max s.nodes.length ((s.position + n + (s.baseSize - 1)) / s.baseSize)) :
    s.position + n ≤ s.baseSize * (s.nodes.length + count) := by
  have enough : (s.position + n + (s.baseSize - 1)) / s.baseSize ≤ s.nodes.length + count := by
    rw [least]; exact le_max_right _ _
  have := (Nat.div_le_iff_le_mul_add_pred wf.base).mp enough
  omega

/-! ## One specification for each call -/

section Specifications

private theorem ite_gt_eq_max (a b : ℕ) : (if a > b then a else b) = max b a := by
  split <;> omega

variable {s : ByteArray}

/-- What a write of `buf` makes of a state: the cells behind the cursor are overwritten on a chain
that is extended, if need be, to the least number of nodes that holds them. -/
structure Written (s : ByteArray) (buf : List Byte) (t : ByteArray) : Prop where
  wf : Wf t
  baseSize : t.baseSize = s.baseSize
  endian : t.endian = s.endian
  position : t.position = s.position + buf.length
  size : t.size = max s.size t.position
  bytes : ∃ pad, t.bytes = (s.bytes ++ pad).splice s.position buf
  length : buf ≠ [] → t.nodes.length =
    max s.nodes.length ((t.position + (s.baseSize - 1)) / s.baseSize)
  same : buf = [] → t = s

/-- No chain is shorter than its cursor needs. -/
theorem Wf.length_least (wf : Wf s) :
    (s.position + (s.baseSize - 1)) / s.baseSize ≤ s.nodes.length := by
  have position := wf.position.trans wf.size
  have capacity := wf.capacity
  apply (Nat.div_le_iff_le_mul_add_pred wf.base).mpr
  omega

/-- What a write of `buf` makes of a state in full: it appends `count` fresh nodes, and every cell of
the chain is known. -/
structure Overwrites (s : ByteArray) (buf : List Byte) (count : ℕ) (t : ByteArray) : Prop where
  wf : Wf t
  baseSize : t.baseSize = s.baseSize
  endian : t.endian = s.endian
  heap : t.heap = s.heap
  allocated : t.allocated = s.allocated + count
  position : t.position = s.position + buf.length
  size : t.size = max s.size t.position
  length : t.nodes.length = s.nodes.length + count
  least : s.nodes.length + count =
    max s.nodes.length ((t.position + (s.baseSize - 1)) / s.baseSize)
  bytes : t.bytes = (s.grown count).bytes.splice s.position buf

theorem grown_zero (wf : Wf s) : s.grown 0 = s := by
  rw [ByteArray.grown]
  simp only [freshNodes, List.range_zero, List.map_nil, List.append_nil, Nat.mul_zero, Nat.add_zero]
  exact wf.moved_self

theorem length_grown (s : ByteArray) (count : ℕ) :
    (s.grown count).nodes.length = s.nodes.length + count := by
  change (s.nodes ++ s.freshNodes count).length = _
  rw [List.length_append, length_freshNodes]

theorem Wf.overwrites_nil (wf : Wf s) : Overwrites s [] 0 s where
  wf := wf
  baseSize := rfl
  endian := rfl
  heap := rfl
  allocated := rfl
  position := rfl
  size := (max_eq_left wf.position).symm
  length := rfl
  least := (max_eq_left wf.length_least).symm
  bytes := by rw [List.splice_nil, grown_zero wf]

/-- A buffer for which there is room is copied into the cells behind the cursor. -/
theorem Wf.copyIn (wf : Wf s) {buf : List Byte} (pending : 0 < buf.length)
    (room : s.position + buf.length ≤ s.baseSize * s.nodes.length) :
    ∃ chain, copyAcross (ByteArray.copyIn buf) s.nodes s.cur (s.position % s.baseSize) buf.length s.nodes =
        .ok (chain, cursorAt s.baseSize chain.length (s.position + buf.length)) ∧
      Sized s.baseSize chain ∧ chain.length = s.nodes.length ∧
      (chain.map Node.ptr).flatten = s.bytes.splice s.position buf := by
  obtain ⟨chain, ran, sized, length, content⟩ :=
    copyAcross_rule (P := fun bpos chain => Sized s.baseSize chain ∧ chain.length = s.nodes.length ∧
        (chain.map Node.ptr).flatten = s.bytes.splice s.position (buf.take bpos))
      s.position buf.length s.nodes wf.base wf.sized (copyIn_keeps buf wf.sized room) (by omega) room
      ⟨wf.sized, rfl, by rw [List.take_zero, List.splice_nil]; rfl⟩
  rw [List.take_length] at content
  refine ⟨chain, ?_, sized, length, content⟩
  rw [wf.cur, ran, length]

/-- A write always returns. -/
theorem Wf.overwrites (wf : Wf s) (buf : List Byte) :
    ∃ count t, ByteArray.write buf s = .done () t ∧ Overwrites s buf count t ∧ (buf = [] → t = s) := by
  rcases Nat.eq_zero_or_pos buf.length with empty | pending
  · refine ⟨0, s, by rw [ByteArray.write, if_pos empty], ?_, fun _ => rfl⟩
    obtain rfl := List.length_eq_zero_iff.mp empty
    exact wf.overwrites_nil
  · obtain ⟨count, grownEq, least⟩ := wf.addCapacity pending
    have room := wf.addCapacity_room least
    have wf' := wf.grown count
    rw [← length_grown] at room
    obtain ⟨chain, ran, sized, length, content⟩ := wf'.copyIn pending room
    refine ⟨count, { s.grown count with
      nodes := chain
      cur := cursorAt s.baseSize chain.length (s.position + buf.length)
      position := s.position + buf.length
      size := max s.size (s.position + buf.length) }, ?_, ?_, ?_⟩
    · rw [ByteArray.write, if_neg (by omega), grownEq]
      dsimp only
      rw [ran]
      simp only [ite_gt_eq_max]
      rfl
    · have capacity : (s.grown count).capacity = s.baseSize * (s.grown count).nodes.length :=
        wf'.capacity
      have size : s.size ≤ (s.grown count).capacity := wf'.size
      exact {
        wf := {
          base := wf.base
          sized := sized
          root := by rw [length]; exact wf'.root
          capacity := by rw [length]; exact capacity
          position := le_max_right _ _
          size := by
            change max s.size (s.position + buf.length) ≤ (s.grown count).capacity
            omega
          cur := rfl }
        baseSize := rfl
        endian := rfl
        heap := rfl
        allocated := rfl
        position := rfl
        size := rfl
        length := length.trans (length_grown s count)
        least := least
        bytes := content }
    · rintro rfl
      exact absurd pending (lt_irrefl 0)

theorem Overwrites.written {buf : List Byte} {count : ℕ} {t : ByteArray}
    (overwrites : Overwrites s buf count t) (same : buf = [] → t = s) : Written s buf t where
  wf := overwrites.wf
  baseSize := overwrites.baseSize
  endian := overwrites.endian
  position := overwrites.position
  size := overwrites.size
  bytes := ⟨_, by rw [overwrites.bytes, bytes_grown]⟩
  length := fun _ => overwrites.length.trans overwrites.least
  same := same

theorem Wf.write (wf : Wf s) (buf : List Byte) :
    ∃ t, ByteArray.write buf s = .done () t ∧ Written s buf t := by
  obtain ⟨count, t, ran, overwrites, same⟩ := wf.overwrites buf
  exact ⟨t, ran, overwrites.written same⟩

/-- A read within the content, of a chain that is not full, returns the cells behind the cursor. -/
theorem Wf.read (wf : Wf s) {n : ℕ} (available : s.position + n ≤ s.size)
    (notFull : s.position < s.capacity) :
    ByteArray.read n s = .done ((s.bytes.drop s.position).take n) (s.moved (s.position + n)) := by
  have capacity := wf.capacity
  have size := wf.size
  obtain ⟨buf, ran, rfl⟩ := copyAcross_rule s.position n [] wf.base wf.sized
    (copyOut_keeps wf.sized) (by omega) (by omega) (by rw [List.take_zero])
  rw [ByteArray.read, wf.getReadSize, if_neg (by omega), wf.cur]
  dsimp only
  rw [ran]
  rfl

/-- A read past the content throws and changes nothing. -/
theorem Wf.read_thrown (wf : Wf s) {n : ℕ} (short : s.size < s.position + n) :
    ByteArray.read n s = .thrown (.outOfRange "not enough len") s := by
  have position := wf.position
  rw [ByteArray.read, wf.getReadSize, if_pos (by omega)]

/-- At the end of a full chain even an empty read looks at the null node. -/
theorem Wf.read_full (wf : Wf s) {n : ℕ} (available : s.position + n ≤ s.size)
    (full : s.position = s.capacity) : ByteArray.read n s = .fault .nullNode := by
  rw [ByteArray.read, wf.getReadSize, if_neg (by omega), wf.cur, full, wf.capacity,
    cursorAt_full wf.base]
  rfl

/-- What a read does: it throws, it moves the cursor over the bytes it returns, or it follows the null pointer. -/
theorem Wf.read_cases (wf : Wf s) (n : ℕ) :
    (s.size < s.position + n ∧ ByteArray.read n s = .thrown (.outOfRange "not enough len") s) ∨
    (s.position + n ≤ s.size ∧ s.position < s.capacity ∧
      ByteArray.read n s = .done ((s.bytes.drop s.position).take n) (s.moved (s.position + n))) ∨
    (s.position + n ≤ s.size ∧ s.position = s.capacity ∧ ByteArray.read n s = .fault .nullNode) := by
  rcases Nat.lt_or_ge s.size (s.position + n) with short | available
  · exact .inl ⟨short, wf.read_thrown short⟩
  · rcases (wf.position.trans wf.size).lt_or_eq with inside | full
    · exact .inr (.inl ⟨available, inside, wf.read available inside⟩)
    · exact .inr (.inr ⟨available, full, wf.read_full available full⟩)

theorem follow_eq {nodes : List Node} {count : ℕ} (inside : count < nodes.length) :
    follow nodes count = .ok (some count) := by
  induction count with
  | zero => rfl
  | succ count ih =>
    rw [follow, ih (by omega)]
    simp only [bind, Except.bind, if_pos inside]

/-- A positional read within the content, from an offset inside the chain, returns the cells there. -/
theorem Wf.readAt (wf : Wf s) {n p : ℕ} (available : p + n ≤ s.size) (inside : p < s.capacity) :
    ByteArray.readAt n p s = .done ((s.bytes.drop p).take n) s := by
  have capacity := wf.capacity
  have size := wf.size
  have inChain : p < s.baseSize * s.nodes.length := by omega
  obtain ⟨buf, ran, rfl⟩ := copyAcross_rule p n [] wf.base wf.sized
    (copyOut_keeps wf.sized) inChain (by omega) (by rw [List.take_zero])
  rw [ByteArray.readAt, sizeSub_of_le (by omega), if_neg (by omega)]
  dsimp only
  rw [follow_eq (Nat.div_lt_of_lt_mul inChain), ← cursorAt_of_lt inChain]
  dsimp only
  rw [ran]
  rfl

/-- `toString` returns the cells from the cursor to the end of the content. -/
theorem Wf.toString (wf : Wf s) :
    ByteArray.toString s = .done ((s.bytes.drop s.position).take (s.size - s.position)) s := by
  have size := wf.size
  have position := wf.position
  rw [ByteArray.toString, wf.getReadSize]
  by_cases empty : s.size - s.position = 0
  · rw [if_pos empty, empty, List.take_zero]
  · rw [if_neg empty, wf.readAt (by omega) (by omega)]

theorem seek_eq {b v : ℕ} {nodes : List Node} (base : 0 < b) (sized : Sized b nodes) :
    seek nodes v = if v < b * nodes.length then .ok (v / b) else .error .nullNode := by
  induction nodes generalizing v with
  | nil => simp [seek]
  | cons node rest ih =>
    have nodeSize : node.size = b := (sized node List.mem_cons_self).1
    have restSized : Sized b rest := fun other member => sized other (List.mem_cons_of_mem _ member)
    rw [seek, nodeSize, ih restSized, List.length_cons, Nat.mul_add, Nat.mul_one]
    by_cases here : v < b
    · rw [if_neg (by omega), if_pos (by omega), Nat.div_eq_of_lt here]
    · rw [if_pos (by omega)]
      by_cases inside : v < b * rest.length + b
      · have quotient : v / b = (v - b) / b + 1 := Nat.div_eq_sub_div base (by omega)
        rw [if_pos (by omega), if_pos inside, quotient]
        rfl
      · rw [if_neg (by omega), if_neg inside]
        rfl

/-- Inside the capacity `setPosition` moves the cursor and raises the size to it. -/
theorem Wf.setPosition (wf : Wf s) {v : ℕ} (inside : v < s.capacity) :
    ByteArray.setPosition v s = .done () ({ s with size := max s.size v }.moved v) := by
  have capacity := wf.capacity
  rw [ByteArray.setPosition, if_neg (by omega)]
  dsimp only
  rw [seek_eq wf.base wf.sized, if_pos (by omega), ite_gt_eq_max, ByteArray.moved]
  dsimp only
  rw [cursorAt_of_lt (by omega)]

theorem Wf.setPosition_wf (wf : Wf s) {v : ℕ} (inside : v ≤ s.capacity) :
    Wf ({ s with size := max s.size v }.moved v) :=
  { wf with
    position := le_max_right _ _
    size := max_le wf.size inside
    cur := rfl }

theorem Wf.setPosition_thrown {v : ℕ} (outside : s.capacity < v) :
    ByteArray.setPosition v s = .thrown (.outOfRange "set_position out of range") s := by
  rw [ByteArray.setPosition, if_pos outside]

/-- Looking for the offset behind the last cell runs off the chain. -/
theorem Wf.setPosition_full (wf : Wf s) : ByteArray.setPosition s.capacity s = .fault .nullNode := by
  rw [ByteArray.setPosition, if_neg (by omega)]
  dsimp only
  rw [seek_eq wf.base wf.sized, if_neg (by rw [wf.capacity]; omega)]

theorem Wf.clear (wf : Wf s) :
    ∃ t, ByteArray.clear s = .done () t ∧ Wf t ∧ t.baseSize = s.baseSize ∧ t.position = 0 ∧
      t.size = 0 ∧ t.bytes = s.bytes.take s.baseSize := by
  obtain ⟨root, rest, chain⟩ := List.exists_cons_of_length_pos wf.root
  have rootLength : root.ptr.length = s.baseSize := (wf.sized root (chain ▸ List.mem_cons_self)).2
  refine ⟨_, rfl, ?_, rfl, rfl, rfl, ?_⟩
  · exact {
      base := wf.base
      sized := fun node member => wf.sized node (List.mem_of_mem_take member)
      root := by simp [chain]
      capacity := by simp [chain]
      position := le_rfl
      size := Nat.zero_le _
      cur := by
        simp only [chain, List.take_succ_cons, List.take_zero, List.length_singleton]
        rw [cursorAt_of_lt (by rw [Nat.mul_one]; exact wf.base), Nat.zero_div] }
  · simp only [bytes, chain, List.take_succ_cons, List.take_zero, List.map_cons, List.map_nil,
      List.flatten_cons, List.flatten_nil, List.append_nil]
    rw [← rootLength, List.take_left]

/-- `getWriteBuffers` only grows the chain, and its segments are the cells behind the cursor. -/
theorem Wf.getWriteBuffers (wf : Wf s) (len : ℕ) :
    ∃ count segments, ByteArray.getWriteBuffers len s = .done (len, segments) (s.grown count) ∧
      s.nodes.length + count =
        max s.nodes.length ((s.position + len + (s.baseSize - 1)) / s.baseSize) ∧
      Spans s.baseSize (s.grown count).nodes.length segments s.position (s.position + len) := by
  rcases Nat.eq_zero_or_pos len with rfl | pending
  · refine ⟨0, [], ?_, (max_eq_left wf.length_least).symm, rfl⟩
    rw [ByteArray.getWriteBuffers, if_pos rfl, grown_zero wf]
  · obtain ⟨count, grownEq, least⟩ := wf.addCapacity pending
    have room := wf.addCapacity_room least
    rw [← length_grown] at room
    obtain ⟨segments, ran, spans⟩ := copyAcross_gather s.position len wf.base (wf.grown count).sized
      (by omega) room []
    refine ⟨count, segments, ?_, least, spans⟩
    have copied : copyAcross gather (s.grown count).nodes (s.grown count).cur
        ((s.grown count).position % (s.grown count).baseSize) len [] = _ := ran
    rw [ByteArray.getWriteBuffers, if_neg (by omega), grownEq]
    dsimp only
    rw [copied]
    rfl

end Specifications

end Sylar.ByteArray
