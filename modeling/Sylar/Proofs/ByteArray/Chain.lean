import Sylar.Model.ByteArray.Storage

/-! # Crossing a chain of equal nodes

On a chain whose nodes all have `b` bytes, the loop of `write`, `read` and the buffer functions cuts
the cells `start, …, start + total - 1` at the node borders. The rule `copyAcross_rule` reduces each
of those functions to what its body does with one piece inside one node, and gives the final value
of the node pointer once for all of them.
-/

namespace Sylar.ByteArray

/-- Every node of the chain has `b` bytes of memory and says so. -/
def Sized (b : ℕ) (nodes : List Node) : Prop := ∀ node ∈ nodes, node.size = b ∧ node.ptr.length = b

/-- The node that holds offset `p` of a chain of `n` nodes of `b` bytes; null past the last node. -/
def cursorAt (b n p : ℕ) : Option ℕ := if p / b < n then some (p / b) else none

theorem cursorAt_of_lt {b n p : ℕ} (inside : p < b * n) : cursorAt b n p = some (p / b) :=
  if_pos (Nat.div_lt_of_lt_mul inside)

theorem cursorAt_full {b n : ℕ} (base : 0 < b) : cursorAt b n (b * n) = none :=
  if_neg (by rw [Nat.mul_div_cancel_left n base]; exact Nat.lt_irrefl n)

theorem Sized.map_ptr {b : ℕ} {nodes : List Node} (sized : Sized b nodes) :
    ∀ x ∈ nodes.map Node.ptr, x.length = b := by
  intro x member
  obtain ⟨node, present, rfl⟩ := List.mem_map.mp member
  exact (sized node present).2

theorem Sized.length_flatten {b : ℕ} {nodes : List Node} (sized : Sized b nodes) :
    ((nodes.map Node.ptr).flatten).length = b * nodes.length := by
  rw [List.length_flatten_of_blocks sized.map_ptr, List.length_map]

/-- Where the loop leaves the node pointer after a last piece of `len` bytes in node `i`. -/
private theorem cursorAt_piece {b n i npos len : ℕ} (inside : i < n) (room : npos + len ≤ b)
    (base : 0 < b) :
    (if b = npos + len then (if n ≤ i + 1 then none else some (i + 1)) else some i) =
      cursorAt b n (b * i + (npos + len)) := by
  unfold cursorAt
  by_cases border : b = npos + len
  · have quotient : (b * i + (npos + len)) / b = i + 1 := by
      rw [← border, Nat.mul_add_div base, Nat.div_self base]
    rw [if_pos border, quotient]
    by_cases last : n ≤ i + 1
    · rw [if_pos last, if_neg (by omega)]
    · rw [if_neg last, if_pos (by omega)]
  · have quotient : (b * i + (npos + len)) / b = i := by
      rw [Nat.mul_add_div base, Nat.div_eq_of_lt (by omega), Nat.add_zero]
    rw [if_neg border, quotient, if_pos inside]

section Rule

variable {β : Type} {b start total : ℕ} {nodes : List Node}
  {body : ℕ → ℕ → ℕ → ℕ → β → Except Fault β} {P : ℕ → β → Prop}

/-- What the body of a loop has to do with one piece: it succeeds on a piece inside one node and
moves its invariant `P` forward by the length of the piece. -/
def KeepsPiece (b start total : ℕ) (nodes : List Node)
    (body : ℕ → ℕ → ℕ → ℕ → β → Except Fault β) (P : ℕ → β → Prop) : Prop :=
  ∀ node npos bpos len acc, 0 < len → npos + len ≤ b → node < nodes.length →
    b * node + npos = start + bpos → bpos + len ≤ total → P bpos acc →
    ∃ next, body node npos bpos len acc = .ok next ∧ P (bpos + len) next

private theorem nodeLoop_rule (base : 0 < b) (sized : Sized b nodes)
    (piece : KeepsPiece b start total nodes body P) (room : start + total ≤ b * nodes.length)
    (chain : List Node) (i npos bpos size : ℕ) (acc : β) (here : nodes.drop i = chain)
    (nonempty : chain ≠ []) (inNode : npos < b) (offset : b * i + npos = start + bpos)
    (left : bpos + size = total) (pending : 0 < size) (holds : P bpos acc) :
    ∃ last, nodeLoop body chain i npos (b - npos) bpos size acc =
      .ok (last, cursorAt b nodes.length (start + total)) ∧ P total last := by
  induction chain generalizing i npos bpos size acc with
  | nil => exact absurd rfl nonempty
  | cons node rest ih =>
    have inside : i < nodes.length := by
      by_contra outside
      rw [List.drop_of_length_le (by omega)] at here
      contradiction
    have nodeSize : node.size = b :=
      (sized node (List.mem_of_mem_drop (here ▸ List.mem_cons_self))).1
    have tail : nodes.drop (i + 1) = rest := by
      rw [← List.drop_drop, here, List.drop_succ_cons, List.drop_zero]
    have endOfChain : rest = [] ↔ nodes.length ≤ i + 1 := by
      rw [← tail, List.drop_eq_nil_iff]
    rw [nodeLoop, if_neg (by omega)]
    by_cases fits : b - npos ≥ size
    · obtain ⟨next, ran, kept⟩ := piece i npos bpos size acc pending (by omega) inside offset
        (by omega) holds
      refine ⟨next, ?_, left ▸ kept⟩
      rw [if_pos fits, ran]
      have target : start + total = b * i + (npos + size) := by omega
      simp only [bind, Except.bind, nodeSize, endOfChain, target,
        cursorAt_piece inside (by omega : npos + size ≤ b) base]
    · obtain ⟨next, ran, kept⟩ := piece i npos bpos (b - npos) acc (by omega) (by omega) inside
        offset (by omega) holds
      have more : ¬ nodes.length ≤ i + 1 := by
        intro short
        have := Nat.mul_le_mul_left b short
        rw [Nat.mul_add, Nat.mul_one] at this
        omega
      rw [if_neg fits, ran]
      cases rest with
      | nil => exact absurd (endOfChain.mp rfl) more
      | cons following others =>
        have followingSize : following.size = b :=
          (sized following (List.mem_of_mem_drop (tail ▸ List.mem_cons_self))).1
        have shifted : b * (i + 1) + 0 = start + (bpos + (b - npos)) := by
          rw [Nat.mul_add, Nat.mul_one]; omega
        have result := ih (i + 1) 0 (bpos + (b - npos)) (size - (b - npos)) next tail
          (List.cons_ne_nil _ _) base shifted (by omega) (by omega) kept
        simpa only [bind, Except.bind, followingSize, Nat.sub_zero] using result

/-- The copy loop, entered at an offset inside the chain, neither follows a null pointer nor leaves
a node; it hands its body consecutive pieces and stops with the pointer at the end offset. -/
theorem copyAcross_rule (start total : ℕ) (acc : β) (base : 0 < b) (sized : Sized b nodes)
    (piece : KeepsPiece b start total nodes body P) (inside : start < b * nodes.length)
    (room : start + total ≤ b * nodes.length) (holds : P 0 acc) :
    ∃ last, copyAcross body nodes (cursorAt b nodes.length start) (start % b) total acc =
      .ok (last, cursorAt b nodes.length (start + total)) ∧ P total last := by
  have index : start / b < nodes.length := Nat.div_lt_of_lt_mul inside
  have inNode : start % b < b := Nat.mod_lt _ base
  have offset : b * (start / b) + start % b = start + 0 := Nat.div_add_mod start b
  rw [cursorAt_of_lt inside, copyAcross]
  cases here : nodes.drop (start / b) with
  | nil => exact absurd (List.drop_eq_nil_iff.mp here) (by omega)
  | cons node rest =>
    have nodeSize : node.size = b :=
      (sized node (List.mem_of_mem_drop (here ▸ List.mem_cons_self))).1
    dsimp only
    rw [nodeSize, sizeSub_of_le inNode.le]
    rcases Nat.eq_zero_or_pos total with rfl | pending
    · refine ⟨acc, ?_, holds⟩
      rw [nodeLoop, if_pos rfl, Nat.add_zero, cursorAt_of_lt inside]
    · exact nodeLoop_rule base sized piece room _ _ _ _ _ acc here (List.cons_ne_nil _ _) inNode
        offset (Nat.zero_add total) pending holds

end Rule

/-! ## The three bodies -/

/-- A piece copied into its node splices the concatenated memory. -/
theorem copyIn_keeps {b start : ℕ} {nodes : List Node} (buf : List Byte)
    (sized : Sized b nodes) (room : start + buf.length ≤ b * nodes.length) :
    KeepsPiece b start buf.length nodes (copyIn buf) fun bpos chain =>
      Sized b chain ∧ chain.length = nodes.length ∧
        (chain.map Node.ptr).flatten = ((nodes.map Node.ptr).flatten).splice start (buf.take bpos) := by
  rintro node npos bpos len chain - inNode index offset bound ⟨chainSized, length, content⟩
  have index' : node < chain.length := by omega
  have memory : (chain[node]).ptr.length = b := (chainSized _ (List.getElem_mem index')).2
  have pieceLength : ((buf.drop bpos).take len).length = len := by
    rw [List.length_take, List.length_drop]; omega
  refine ⟨_, by rw [copyIn, List.getElem?_eq_getElem index']; exact if_pos (by omega), ?_, ?_, ?_⟩
  · intro other member
    rcases List.mem_or_eq_of_mem_set member with old | rfl
    · exact chainSized other old
    · exact ⟨(chainSized _ (List.getElem_mem index')).1,
        by rw [List.length_splice (by omega)]; exact memory⟩
  · rw [List.length_set, length]
  · have atBlock := List.flatten_set_splice (d := (buf.drop bpos).take len) (i := npos) (k := node)
      chainSized.map_ptr (by rw [List.length_map]; exact index') (by omega)
    rw [List.getElem_map] at atBlock
    rw [List.map_set, atBlock, offset, content]
    have before : (buf.take bpos).length = bpos := by rw [List.length_take]; omega
    have inChain : start ≤ ((nodes.map Node.ptr).flatten).length := by
      rw [sized.length_flatten]; omega
    have joined := List.splice_splice inChain (buf.take bpos) ((buf.drop bpos).take len)
    rw [before] at joined
    rw [joined, ← List.take_add]

/-- The pieces copied out of their nodes are the consecutive cells. -/
theorem copyOut_keeps {b start total : ℕ} {nodes : List Node} (sized : Sized b nodes) :
    KeepsPiece b start total nodes (copyOut nodes) fun bpos buf =>
      buf = (((nodes.map Node.ptr).flatten).drop start).take bpos := by
  rintro node npos bpos len buf - inNode index offset - rfl
  have memory : (nodes[node]).ptr.length = b := (sized _ (List.getElem_mem index)).2
  refine ⟨_, by rw [copyOut, List.getElem?_eq_getElem index]; exact if_pos (by omega), ?_⟩
  have block := List.slice_block (i := npos) (n := len) sized.map_ptr
    (by rw [List.length_map]; exact index) inNode
  rw [List.getElem_map] at block
  rw [block, offset, List.slice_append]

/-- The segments are not empty, stay inside `n` nodes of `b` bytes and lie behind each other, from one
offset of the chain to another. -/
def Spans (b n : ℕ) : List IoVec → ℕ → ℕ → Prop
  | [], start, stop => start = stop
  | v :: rest, start, stop =>
      (0 < v.len ∧ v.node < n ∧ v.base + v.len ≤ b ∧ b * v.node + v.base = start) ∧
        Spans b n rest (start + v.len) stop

theorem Spans.snoc {b n start stop : ℕ} {segments : List IoVec} {v : IoVec}
    (spans : Spans b n segments start stop) (pending : 0 < v.len) (index : v.node < n)
    (inNode : v.base + v.len ≤ b) (offset : b * v.node + v.base = stop) :
    Spans b n (segments ++ [v]) start (stop + v.len) := by
  induction segments generalizing start with
  | nil =>
    obtain rfl : start = stop := spans
    exact ⟨⟨pending, index, inNode, offset⟩, rfl⟩
  | cons w rest ih => exact ⟨spans.1, ih spans.2⟩

/-- The segments pushed behind the caller's are the consecutive pieces. -/
theorem gather_keeps {b start total : ℕ} {nodes : List Node} (buffers : List IoVec) :
    KeepsPiece b start total nodes gather fun bpos pushed =>
      ∃ segments, pushed = buffers ++ segments ∧ Spans b nodes.length segments start (start + bpos) := by
  rintro node npos bpos len _ pending inNode index offset - ⟨segments, rfl, spans⟩
  refine ⟨_, rfl, segments ++ [⟨node, npos, len⟩], List.append_assoc .., ?_⟩
  rw [← Nat.add_assoc]
  exact spans.snoc pending index inNode offset

/-- The segments of the cells `start, …, start + total - 1`. -/
theorem copyAcross_gather {b : ℕ} {nodes : List Node} (start total : ℕ) (base : 0 < b)
    (sized : Sized b nodes) (inside : start < b * nodes.length)
    (room : start + total ≤ b * nodes.length) (buffers : List IoVec) :
    ∃ segments, copyAcross gather nodes (cursorAt b nodes.length start) (start % b) total buffers =
        .ok (buffers ++ segments, cursorAt b nodes.length (start + total)) ∧
      Spans b nodes.length segments start (start + total) := by
  obtain ⟨_, ran, segments, rfl, spans⟩ := copyAcross_rule start total buffers base sized
    (gather_keeps buffers) inside room ⟨[], (List.append_nil _).symm, rfl⟩
  exact ⟨segments, ran, spans⟩

end Sylar.ByteArray
