import Sylar.Model.ByteArray.Buffers
import Sylar.Proofs.ByteArray.Positions

/-! # The segments of the buffer functions

All three functions cut a range of cells at the node borders. Handling the segments one after the other is therefore
handling the range, which is what `read` and `write` do with it.
-/

namespace Sylar

namespace IoVec

/-- The segment is not empty and lies inside the memory of a node. -/
def InNode (nodes : List Node) (v : IoVec) : Prop :=
  0 < v.len ∧ ∃ node, nodes[v.node]? = some node ∧ v.base + v.len ≤ node.ptr.length

/-- The offsets of its cells in a chain of nodes of `b` bytes. -/
def cells (b : ℕ) (v : IoVec) : List ℕ := List.range' (b * v.node + v.base) v.len

/-- Two segments share no cell. -/
def Apart (v w : IoVec) : Prop := v.node ≠ w.node ∨ v.base + v.len ≤ w.base ∨ w.base + w.len ≤ v.base

end IoVec

namespace ByteArray

variable {b n start stop total : ℕ} {heap : ℕ → ℕ → Byte} {s : ByteArray} {nodes : List Node} {segments : List IoVec}

/-! ## Segments in a row -/

namespace Spans

theorem inNode (spans : Spans b nodes.length segments start stop) (sized : Sized b nodes) :
    ∀ v ∈ segments, v.InNode nodes := by
  induction segments generalizing start with
  | nil => exact List.forall_mem_nil _
  | cons v rest ih =>
    obtain ⟨⟨pending, index, bound, _⟩, behind⟩ := spans
    have memory : (nodes[v.node]).ptr.length = b := (sized _ (List.getElem_mem index)).2
    refine List.forall_mem_cons.mpr ⟨⟨pending, _, List.getElem?_eq_getElem index, ?_⟩, ih behind⟩
    rwa [memory]

theorem sum_len (spans : Spans b n segments start stop) : start + (segments.map IoVec.len).sum = stop := by
  induction segments generalizing start with
  | nil => exact spans
  | cons v rest ih =>
    have behind := ih spans.2
    rw [List.map_cons, List.sum_cons]
    omega

theorem eq_nil (spans : Spans b n segments start start) : segments = [] := by
  cases segments with
  | nil => rfl
  | cons v rest =>
    have length := spans.sum_len
    have pending := spans.1.1
    rw [List.map_cons, List.sum_cons] at length
    omega

/-- The segments cover the range, in order and each cell once. -/
theorem cells (spans : Spans b n segments start stop) :
    segments.flatMap (IoVec.cells b) = List.range' start (stop - start) := by
  induction segments generalizing start with
  | nil =>
    obtain rfl : start = stop := spans
    rw [Nat.sub_self]
    rfl
  | cons v rest ih =>
    obtain ⟨⟨_, _, _, rfl⟩, behind⟩ := spans
    have length := behind.sum_len
    have split : stop - (b * v.node + v.base) = v.len + (stop - (b * v.node + v.base + v.len)) := by omega
    rw [List.flatMap_cons, ih behind, split, ← List.range'_append_1, IoVec.cells]

theorem mono {first : ℕ} (spans : Spans b n segments start stop) (before : first ≤ start) :
    ∀ v ∈ segments, first ≤ b * v.node + v.base := by
  induction segments generalizing start with
  | nil => exact List.forall_mem_nil _
  | cons v rest ih =>
    obtain ⟨⟨_, _, _, offset⟩, behind⟩ := spans
    exact List.forall_mem_cons.mpr ⟨by omega, ih behind (by omega)⟩

theorem apart (spans : Spans b n segments start stop) : segments.Pairwise IoVec.Apart := by
  induction segments generalizing start with
  | nil => exact .nil
  | cons v rest ih =>
    obtain ⟨⟨_, _, _, offset⟩, behind⟩ := spans
    apply List.Pairwise.cons _ (ih behind)
    intro w member
    have later := behind.mono le_rfl w member
    rcases ne_or_eq v.node w.node with other | same
    · exact .inl other
    · rw [← same] at later
      exact .inr (.inl (by omega))

/-- A body that keeps its invariant on the pieces of a range keeps it on the segments of the range. -/
theorem transfer {β : Type} {body : ℕ → ℕ → ℕ → ℕ → β → Except Fault β} {P : ℕ → β → Prop} (bpos : ℕ) {acc : β}
    (piece : KeepsPiece b start total nodes body P)
    (spans : Spans b nodes.length segments (start + bpos) (start + total)) (holds : P bpos acc) :
    ∃ last, ByteArray.transfer body segments bpos acc = .ok last ∧ P total last := by
  induction segments generalizing bpos acc with
  | nil =>
    obtain rfl : bpos = total := Nat.add_left_cancel spans
    exact ⟨acc, rfl, holds⟩
  | cons v rest ih =>
    obtain ⟨⟨pending, index, inside, offset⟩, behind⟩ := spans
    have length := behind.sum_len
    obtain ⟨next, ran, kept⟩ := piece v.node v.base bpos v.len acc pending inside index offset (by omega) holds
    rw [Nat.add_assoc] at behind
    obtain ⟨last, ran', kept'⟩ := ih _ behind kept
    refine ⟨last, ?_, kept'⟩
    rw [ByteArray.transfer, ran]
    exact ran'

end Spans

/-- What `sendmsg` sends of a range are its cells. -/
theorem Spans.sendmsg (spans : Spans b nodes.length segments start (start + total)) (sized : Sized b nodes) :
    ByteArray.sendmsg nodes segments = .ok ((((nodes.map Node.ptr).flatten).drop start).take total) := by
  obtain ⟨_, sent, rfl⟩ := Spans.transfer 0 (copyOut_keeps sized) spans (by rw [List.take_zero])
  exact sent

/-! ## Reading -/

/-- The way the source writes a minimum. -/
private theorem clamped (len bound : ℕ) : (if len > bound then bound else len) = min len bound := by
  rw [min_comm, min_def_lt]

theorem getReadBuffers_zero {len : ℕ} (nothing : min len s.getReadSize = 0) (buffers : List IoVec) :
    getReadBuffers len (s, buffers) = .done 0 (s, buffers) := by
  rw [getReadBuffers]
  dsimp only
  rw [clamped, if_pos nothing]

/-- The segments are the cells that a read of as many bytes as there are would return. -/
theorem Wf.getReadBuffers (wf : Wf s) (len : ℕ) (buffers : List IoVec) :
    ∃ segments, ByteArray.getReadBuffers len (s, buffers) =
        .done (min len s.getReadSize) (s, buffers ++ segments) ∧
      Spans s.baseSize s.nodes.length segments s.position (s.position + min len s.getReadSize) := by
  rcases Nat.eq_zero_or_pos (min len s.getReadSize) with nothing | pending
  · refine ⟨[], ?_, ?_⟩
    · rw [getReadBuffers_zero nothing, nothing, List.append_nil]
    · rw [nothing]
      rfl
  · have readSize := wf.getReadSize
    have size := wf.size
    have capacity := wf.capacity
    obtain ⟨segments, ran, spans⟩ := copyAcross_gather s.position (min len s.getReadSize) wf.base wf.sized
      (by omega) (by omega) buffers
    refine ⟨segments, ?_, spans⟩
    rw [ByteArray.getReadBuffers]
    dsimp only
    rw [clamped, if_neg pending.ne', wf.cur, ran]

/-- The segments of `getReadBuffers` are the readable bytes, up to `len` of them. -/
theorem getReadBuffers_spec (b : ℕ) (heap : ℕ → ℕ → Byte) (base : 1 ≤ b) (s : ByteArray)
    (reached : (machine b heap).Reachable s) (len : ℕ) (buffers : List IoVec) :
    ∃ segments contents,
      getReadBuffers len (s, buffers) = .done (min len s.getReadSize) (s, buffers ++ segments) ∧
      (∀ v ∈ segments, v.InNode s.nodes) ∧
      (segments.map IoVec.len).sum = min len s.getReadSize ∧
      (min len s.getReadSize = 0 → segments = []) ∧
      sendmsg s.nodes segments = .ok contents ∧
      (0 < min len s.getReadSize → ∃ t, read (min len s.getReadSize) s = .done contents t) ∧
      ∀ buf t, read (min len s.getReadSize) s = .done buf t → buf = contents := by
  obtain ⟨wf, _⟩ := reachable_wf base reached
  have readSize := wf.getReadSize
  have position := wf.position
  have size := wf.size
  obtain ⟨segments, ran, spans⟩ := wf.getReadBuffers len buffers
  refine ⟨segments, _, ran, spans.inNode wf.sized, ?_, ?_, spans.sendmsg wf.sized, ?_, ?_⟩
  · have length := spans.sum_len
    omega
  · intro nothing
    rw [nothing] at spans
    exact spans.eq_nil
  · intro pending
    exact ⟨_, wf.read (by omega) (by omega)⟩
  · intro buf t returned
    rcases wf.read_cases (min len s.getReadSize) with ⟨_, ran⟩ | ⟨_, _, ran⟩ | ⟨_, _, ran⟩
    all_goals
      rw [ran] at returned
      cases returned
    rfl

/-- Two of the three bytes behind the cursor, in two nodes. -/
theorem getReadBuffers_spec_border : ∃ s segments contents, (machine 2 fun _ _ => 0).Reachable s ∧
    getReadBuffers 2 (s, []) = .done 2 (s, segments) ∧ sendmsg s.nodes segments = .ok contents ∧
    contents = [8, 9] := by
  have reached : (machine 2 fun _ _ => 0).Reachable _ :=
    ⟨_, [(.write [7, 8, 9, 10], .ok .unit), (.setPosition 1, .ok .unit)], rfl,
      .cons (t := _) rfl (.cons (t := _) rfl (.nil _))⟩
  obtain ⟨segments, contents, ran, _, _, _, sent, read, _⟩ :=
    getReadBuffers_spec 2 (fun _ _ => 0) (by decide) _ reached 2 []
  obtain ⟨t, returned⟩ := read (by decide)
  refine ⟨_, segments, contents, reached, ran, sent, ?_⟩
  cases returned
  rfl

/-! ## Reading at a position -/

/-- The positional overload throws past the content, and otherwise does what the other one does with the cursor at
the position. -/
structure ReadsAlike (s : ByteArray) (len p : ℕ) : Prop where
  thrown : s.size < p → ∀ buffers,
    getReadBuffersAt len p (s, buffers) = .thrown (.outOfRange "position out of size") (s, buffers)
  agree : p ≤ s.size → ∀ buffers, ∃ count segments,
    getReadBuffersAt len p (s, buffers) = .done count (s, buffers ++ segments) ∧
      getReadBuffers len (s.moved p, buffers) = .done count (s.moved p, buffers ++ segments)

theorem getReadBuffersAt_thrown {len p : ℕ} (past : s.size < p) (buffers : List IoVec) :
    getReadBuffersAt len p (s, buffers) = .thrown (.outOfRange "position out of size") (s, buffers) :=
  if_pos past

theorem Wf.getReadBuffersAt (wf : Wf s) {len p : ℕ} (bound : p ≤ s.size) (inside : p < s.capacity)
    (pending : len ≠ 0) (buffers : List IoVec) :
    ∃ segments, ByteArray.getReadBuffersAt len p (s, buffers) =
        .done (min len (s.size - p)) (s, buffers ++ segments) ∧
      copyAcross gather s.nodes (cursorAt s.baseSize s.nodes.length p) (p % s.baseSize) (min len (s.size - p))
        buffers = .ok (buffers ++ segments, cursorAt s.baseSize s.nodes.length (p + min len (s.size - p))) ∧
      Spans s.baseSize s.nodes.length segments p (p + min len (s.size - p)) := by
  have size := wf.size
  have capacity := wf.capacity
  have inChain : p < s.baseSize * s.nodes.length := by omega
  obtain ⟨segments, ran, spans⟩ :=
    copyAcross_gather p (min len (s.size - p)) wf.base wf.sized inChain (by omega) buffers
  refine ⟨segments, ?_, ran, spans⟩
  rw [ByteArray.getReadBuffersAt, if_neg (by omega), if_neg pending, sizeSub_of_le bound]
  dsimp only
  rw [clamped, follow_eq (Nat.div_lt_of_lt_mul inChain), ← cursorAt_of_lt inChain]
  dsimp only
  rw [ran]

/-- At the end of a full chain the walk leads past the last node. -/
theorem Wf.getReadBuffersAt_full (wf : Wf s) {len : ℕ} (full : s.size = s.capacity) (pending : len ≠ 0)
    (buffers : List IoVec) : ByteArray.getReadBuffersAt len s.size (s, buffers) = .fault .nullNode := by
  rw [ByteArray.getReadBuffersAt, if_neg (lt_irrefl _), if_neg pending]
  dsimp only
  rw [full, wf.capacity, Nat.mul_div_cancel_left _ wf.base, follow_length wf.root]
  rfl

theorem Wf.readsAlike (wf : Wf s) {len p : ℕ} (free : ¬ (p = s.size ∧ s.size = s.capacity ∧ len ≠ 0)) :
    ReadsAlike s len p := by
  constructor
  · exact getReadBuffersAt_thrown
  · intro bound buffers
    have size := wf.size
    have readSize : (s.moved p).getReadSize = s.size - p := (wf.moved bound).getReadSize
    rcases eq_or_ne len 0 with rfl | requested
    · refine ⟨0, [], ?_, ?_⟩
      · rw [ByteArray.getReadBuffersAt, if_neg (by omega), if_pos rfl, List.append_nil]
      · rw [getReadBuffers_zero (Nat.zero_min _), List.append_nil]
    · have inside : p < s.capacity := by omega
      obtain ⟨segments, ran, copied, spans⟩ := wf.getReadBuffersAt bound inside requested buffers
      refine ⟨_, segments, ran, ?_⟩
      rcases Nat.eq_zero_or_pos (min len (s.size - p)) with nothing | pending
      · rw [nothing] at spans
        rw [getReadBuffers_zero (by rwa [readSize]), nothing, Spans.eq_nil spans, List.append_nil]
      · rw [ByteArray.getReadBuffers]
        dsimp only
        rw [readSize, clamped, if_neg pending.ne']
        have copied : copyAcross gather (s.moved p).nodes (s.moved p).cur
            ((s.moved p).position % (s.moved p).baseSize) (min len (s.size - p)) buffers = _ := copied
        rw [copied]

/-- The overloads agree unless a positive number of bytes is asked for at the end of a full chain. -/
theorem readsAlike_iff (b : ℕ) (heap : ℕ → ℕ → Byte) (base : 1 ≤ b) (s : ByteArray)
    (reached : (machine b heap).Reachable s) (len p : ℕ) :
    ReadsAlike s len p ↔ ¬ (p = s.size ∧ s.size = s.capacity ∧ len ≠ 0) := by
  obtain ⟨wf, _⟩ := reachable_wf base reached
  constructor
  · rintro alike ⟨rfl, full, requested⟩
    obtain ⟨count, segments, returned, _⟩ := alike.agree le_rfl []
    rw [wf.getReadBuffersAt_full full requested] at returned
    cases returned
  · exact wf.readsAlike

/-- At the end of a content that leaves room in its node. -/
theorem readsAlike_partial : ∃ s, (machine 2 fun _ _ => 0).Reachable s ∧ s.size = 1 ∧ ReadsAlike s 5 1 := by
  have reached : (machine 2 fun _ _ => 0).Reachable _ :=
    ⟨_, [(.write [7], .ok .unit)], rfl, .cons (t := _) rfl (.nil _)⟩
  exact ⟨_, reached, rfl, (readsAlike_iff 2 (fun _ _ => 0) (by decide) _ reached 5 1).mpr (by decide)⟩

/-- At the end of a content that fills its node. -/
theorem not_readsAlike_full : ∃ s, (machine 1 fun _ _ => 0).Reachable s ∧ s.size = 1 ∧ ¬ ReadsAlike s 1 1 ∧
    (getReadBuffersAt 1 1 (s, [])).cause = some .nullNode ∧ getReadBuffers 1 (s, []) = .done 0 (s, []) := by
  have reached : (machine 1 fun _ _ => 0).Reachable _ :=
    ⟨_, [(.write [7], .ok .unit)], rfl, .cons (t := _) rfl (.nil _)⟩
  refine ⟨_, reached, rfl, ?_, rfl, rfl⟩
  intro alike
  obtain ⟨count, segments, returned, _⟩ := alike.agree (by decide) []
  cases returned

/-! ## Writing -/

/-- The capacity of the grown chain is the least multiple of the base size that is neither below the old capacity nor
below the last byte asked for. -/
theorem Wf.capacity_grown_least (wf : Wf s) {len count : ℕ} (least : s.nodes.length + count =
    max s.nodes.length ((s.position + len + (s.baseSize - 1)) / s.baseSize)) :
    s.baseSize ∣ (s.grown count).capacity ∧ max s.capacity (s.position + len) ≤ (s.grown count).capacity ∧
      ∀ c, s.baseSize ∣ c → max s.capacity (s.position + len) ≤ c → (s.grown count).capacity ≤ c := by
  have capacity : (s.grown count).capacity = s.baseSize * (s.nodes.length + count) := by
    rw [(wf.grown count).capacity, length_grown]
    rfl
  have room := wf.addCapacity_room least
  have longer : s.baseSize * s.nodes.length ≤ s.baseSize * (s.nodes.length + count) :=
    Nat.mul_le_mul_left _ (Nat.le_add_right _ _)
  rw [capacity, wf.capacity]
  refine ⟨⟨_, rfl⟩, max_le longer room, ?_⟩
  rintro _ ⟨k, rfl⟩ bound
  have old : s.nodes.length ≤ k := Nat.le_of_mul_le_mul_left ((le_max_left _ _).trans bound) wf.base
  have enough : (s.position + len + (s.baseSize - 1)) / s.baseSize ≤ k := by
    apply (Nat.div_le_iff_le_mul_add_pred wf.base).mpr
    have := (le_max_right _ _).trans bound
    omega
  apply Nat.mul_le_mul_left
  rw [least]
  exact max_le old enough

/-- What `recvmsg` leaves in a grown chain is what a write leaves. -/
theorem Wf.recvmsg (wf : Wf s) {d : List Byte} {count : ℕ} (least : s.nodes.length + count =
      max s.nodes.length ((s.position + d.length + (s.baseSize - 1)) / s.baseSize))
    (spans : Spans s.baseSize (s.grown count).nodes.length segments s.position (s.position + d.length)) :
    ∃ chain t, ByteArray.recvmsg d segments (s.grown count).nodes = .ok chain ∧ ByteArray.write d s = .done () t ∧
      (chain.map Node.ptr).flatten = t.bytes := by
  have sized := (wf.grown count).sized
  have room := wf.addCapacity_room least
  rw [← length_grown] at room
  obtain ⟨chain, received, _, _, content⟩ := Spans.transfer 0 (copyIn_keeps d sized room) spans
    ⟨sized, rfl, by rw [List.take_zero, List.splice_nil]⟩
  obtain ⟨more, t, wrote, overwrites, _⟩ := wf.overwrites d
  have same : more = count := by
    have := overwrites.least
    rw [overwrites.position, ← least] at this
    omega
  refine ⟨chain, t, received, wrote, ?_⟩
  rw [content, List.take_length, overwrites.bytes, same]
  rfl

/-- The segments of `getWriteBuffers` are the cells that a write of `len` bytes would overwrite. -/
theorem getWriteBuffers_spec (b : ℕ) (heap : ℕ → ℕ → Byte) (base : 1 ≤ b) (s : ByteArray)
    (reached : (machine b heap).Reachable s) (len : ℕ) :
    ∃ segments t, getWriteBuffers len s = .done (len, segments) t ∧
      t.position = s.position ∧ t.size = s.size ∧ s.bytes <+: t.bytes ∧
      (b ∣ t.capacity ∧ max s.capacity (s.position + len) ≤ t.capacity ∧
        ∀ c, b ∣ c → max s.capacity (s.position + len) ≤ c → t.capacity ≤ c) ∧
      (∀ v ∈ segments, v.InNode t.nodes) ∧ segments.Pairwise IoVec.Apart ∧
      (segments.map IoVec.len).sum = len ∧
      segments.flatMap (IoVec.cells b) = List.range' s.position len ∧
      ∀ d : List Byte, d.length = len → ∃ chain u, recvmsg d segments t.nodes = .ok chain ∧
        write d s = .done () u ∧ (chain.map Node.ptr).flatten = u.bytes := by
  obtain ⟨wf, rfl⟩ := reachable_wf base reached
  obtain ⟨count, segments, ran, least, spans⟩ := wf.getWriteBuffers len
  refine ⟨segments, _, ran, rfl, rfl, ?_, wf.capacity_grown_least least, spans.inNode (wf.grown count).sized,
    spans.apart, ?_, ?_, ?_⟩
  · rw [bytes_grown]
    exact List.prefix_append _ _
  · exact Nat.add_left_cancel spans.sum_len
  · have cells := spans.cells
    rwa [Nat.add_sub_cancel_left] at cells
  · rintro d rfl
    exact wf.recvmsg least spans

/-- Three bytes behind the end of a full node of two: the chain grows by two nodes. -/
theorem getWriteBuffers_spec_full : ∃ s segments t, (machine 2 fun _ _ => 0).Reachable s ∧ s.cur = none ∧
    getWriteBuffers 3 s = .done (3, segments) t ∧ segments.Pairwise IoVec.Apart ∧ 6 ≤ t.capacity := by
  have reached : (machine 2 fun _ _ => 0).Reachable _ :=
    ⟨_, [(.write [7, 8], .ok .unit)], rfl, .cons (t := _) rfl (.nil _)⟩
  obtain ⟨segments, t, ran, _, _, _, ⟨⟨k, capacity⟩, bound, _⟩, _, apart, _⟩ :=
    getWriteBuffers_spec 2 (fun _ _ => 0) (by decide) _ reached 3
  refine ⟨_, segments, t, reached, rfl, ran, apart, ?_⟩
  have five : 5 ≤ t.capacity := (le_max_right _ _).trans bound
  omega

end ByteArray

end Sylar
