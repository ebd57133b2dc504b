import Sylar.Model.ByteArray.File
import Sylar.Proofs.ByteArray.Runs

/-! # What `writeToFile` writes

From a node border on every round writes to the end of the node or to the end of the content. The first round
starts inside a node, and takes its offset in the node off what is left of the content if this is less than a node.
-/

namespace Sylar.ByteArray

variable {b : ℕ} {heap : ℕ → ℕ → Byte} {s : ByteArray} {nodes : List Node}

/-! ## The chunks of a file -/

/-- The chunks are positive, stay inside their nodes and lie behind each other from one offset of the chain to
another. -/
def Covers (b : ℕ) (nodes : List Node) : List Chunk → ℤ → ℤ → Prop
  | [], start, stop => start = stop
  | chunk :: chunks, start, stop =>
      (0 < chunk.len ∧ 0 ≤ chunk.diff ∧ ∃ node, nodes[chunk.node]? = some node ∧ chunk.diff + chunk.len ≤ node.size) ∧
        (b : ℤ) * chunk.node + chunk.diff = start ∧ Covers b nodes chunks (start + chunk.len) stop

/-- What a round passes to `ofs.write`. -/
def chunkAt (b cur : ℕ) (pos readSize : ℤ) : Chunk :=
  let diff := intOf (pos.toNat % b)
  ⟨cur, diff, (if readSize > b then (b : ℤ) else readSize) - diff⟩

theorem chunkAt_eq {i pos left : ℕ} (small : pos % b < 2 ^ 31) (bound : pos % b ≤ min left b) :
    chunkAt b i pos left = ⟨i, (pos % b : ℕ), (min left b - pos % b : ℕ)⟩ := by
  have length : (if (left : ℤ) > b then (b : ℤ) else left) = (min left b : ℕ) := by split_ifs <;> omega
  rw [chunkAt, Int.toNat_natCast, intOf_of_lt small, length, Nat.cast_sub bound]

theorem fileLoop_done {readSize : ℤ} (done : readSize ≤ 0) (chain : List Node) (cur : ℕ) (pos : ℤ) (file : File) :
    fileLoop b chain cur pos readSize file = .ok file := by
  cases chain with
  | nil => rw [fileLoop, if_neg (not_lt.mpr done)]
  | cons node rest => rw [fileLoop, if_neg (not_lt.mpr done)]

/-- A chunk inside a node is a slice of the concatenated memory. -/
theorem ofsWrite_eq (sized : Sized b nodes) {i d len : ℕ} (index : i < nodes.length) (pending : 0 < len)
    (inside : d + len ≤ b) (file : File) : ofsWrite i nodes[i] d len file =
      .ok ⟨file.chunks ++ [⟨i, d, len⟩],
        file.content ++ ((nodes.map Node.ptr).flatten.drop (b * i + d)).take len⟩ := by
  have memory : nodes[i].ptr.length = b := (sized _ (List.getElem_mem index)).2
  have block := List.slice_block (i := d) (n := len) sized.map_ptr (by rw [List.length_map]; exact index) inside
  rw [List.getElem_map] at block
  rw [ofsWrite, if_neg (by omega), if_pos (by omega), Int.toNat_natCast, Int.toNat_natCast, block]

/-- A round that starts at an offset of its node, with a positive length. -/
theorem fileLoop_round (sized : Sized b nodes) {i : ℕ} (pos left : ℕ) (index : i < nodes.length)
    (small : pos % b < 2 ^ 31)
    (positive : pos % b < min left b) (file : File) :
    fileLoop b (nodes.drop i) i pos left file =
      fileLoop b (nodes.drop (i + 1)) (i + 1) (pos + (min left b - pos % b) : ℕ) (left - (min left b - pos % b) : ℕ)
        ⟨file.chunks ++ [⟨i, (pos % b : ℕ), (min left b - pos % b : ℕ)⟩], file.content ++
          ((nodes.map Node.ptr).flatten.drop (b * i + pos % b)).take (min left b - pos % b)⟩ := by
  have chunk := chunkAt_eq (i := i) small positive.le
  have inside : pos % b + (min left b - pos % b) ≤ b := by omega
  have written := ofsWrite_eq sized index (Nat.sub_pos_of_lt positive) inside file
  have diff := congrArg Chunk.diff chunk
  have len := congrArg Chunk.len chunk
  dsimp only [chunkAt] at diff len
  rw [List.drop_eq_getElem_cons index, fileLoop, if_pos (by omega)]
  dsimp only
  rw [len, diff, written]
  show fileLoop _ _ _ _ _ _ = _
  congr 1
  omega

/-- A chunk inside a node, and the chunks behind it. -/
theorem covers_cons (sized : Sized b nodes) {i d len start stop : ℕ} {chunks : List Chunk} (index : i < nodes.length)
    (pending : 0 < len) (inside : d + len ≤ b) (offset : b * i + d = start)
    (behind : Covers b nodes chunks (start + len : ℕ) stop) : Covers b nodes (⟨i, d, len⟩ :: chunks) start stop := by
  have nodeSize : nodes[i].size = b := (sized _ (List.getElem_mem index)).1
  refine ⟨⟨?_, ?_, nodes[i], List.getElem?_eq_getElem index, ?_⟩, ?_, behind⟩
  · exact Int.natCast_pos.mpr pending
  · exact Int.natCast_nonneg d
  · rw [nodeSize]
    exact Int.ofNat_le.mpr inside
  · dsimp only
    rw [← offset]
    push_cast
    rfl

/-- From the border of a node on the rest of the content is written. -/
theorem fileLoop_aligned (base : 0 < b) (sized : Sized b nodes) (i left : ℕ) (room : b * i + left ≤ b * nodes.length)
    (file : File) : ∃ chunks, fileLoop b (nodes.drop i) i (b * i : ℕ) left file =
        .ok ⟨file.chunks ++ chunks, file.content ++ ((nodes.map Node.ptr).flatten.drop (b * i)).take left⟩ ∧
      Covers b nodes chunks (b * i : ℕ) (b * i + left : ℕ) := by
  induction left using Nat.strong_induction_on generalizing i file with
  | _ left ih =>
    rcases Nat.eq_zero_or_pos left with rfl | pending
    · refine ⟨[], ?_, rfl⟩
      rw [Nat.cast_zero, fileLoop_done le_rfl, List.append_nil, List.take_zero, List.append_nil]
    · have index : i < nodes.length := Nat.lt_of_mul_lt_mul_left (show b * i < b * nodes.length by omega)
      have border : b * i % b = 0 := Nat.mul_mod_right b i
      have round := fileLoop_round sized (b * i) left index (by omega) (by omega) file
      simp only [border, Nat.sub_zero, Nat.add_zero] at round
      rcases Nat.lt_or_ge b left with more | last
      · have next : b * i + b = b * (i + 1) := by ring
        rw [min_eq_right more.le, next] at round
        obtain ⟨chunks, ran, covers⟩ := ih (left - b) (by omega) (i + 1) (by omega)
          ⟨file.chunks ++ [⟨i, (0 : ℕ), b⟩], file.content ++ ((nodes.map Node.ptr).flatten.drop (b * i)).take b⟩
        refine ⟨⟨i, (0 : ℕ), b⟩ :: chunks, ?_, covers_cons sized index base (by omega) (by omega) ?_⟩
        · rw [round, ran, List.append_assoc, List.append_assoc, ← next, List.slice_append, Nat.add_sub_cancel' more.le]
          rfl
        · rw [next, show b * i + left = b * (i + 1) + (left - b) by omega]
          exact covers
      · rw [min_eq_left last, Nat.sub_self, Nat.cast_zero, fileLoop_done le_rfl] at round
        exact ⟨[⟨i, (0 : ℕ), left⟩], round, covers_cons sized index pending (by omega) (by omega) rfl⟩

/-! ## The file of a state -/

/-- The file is written in full: the chunks go from the cursor to the end of the content, and the stream is given
what `toString` returns. -/
def WritesToFile (s : ByteArray) : Prop :=
  ∃ file, writeToFile true s = .done (true, file) s ∧ Covers s.baseSize s.nodes file.chunks s.position s.size ∧
    toString s = .done file.content s

theorem Wf.writeToFile (wf : Wf s) (inside : s.position < s.capacity) :
    ByteArray.writeToFile true s =
      match fileLoop s.baseSize (s.nodes.drop (s.position / s.baseSize)) (s.position / s.baseSize) s.position
        (s.size - s.position : ℕ) ⟨[], []⟩ with
      | .error cause => .fault cause
      | .ok file => .done (true, file) s := by
  rw [ByteArray.writeToFile, if_pos rfl, wf.cur, cursorAt_of_lt (wf.capacity ▸ inside), wf.getReadSize]
  rfl

/-- A file whose loop gives the stream the rest of the content. -/
theorem Wf.writesToFile_of_loop (wf : Wf s) (inside : s.position < s.capacity) {file : File}
    (ran : fileLoop s.baseSize (s.nodes.drop (s.position / s.baseSize)) (s.position / s.baseSize) s.position
      (s.size - s.position : ℕ) ⟨[], []⟩ = .ok file)
    (covers : Covers s.baseSize s.nodes file.chunks s.position s.size)
    (content : file.content = (s.bytes.drop s.position).take (s.size - s.position)) : WritesToFile s := by
  refine ⟨file, ?_, covers, ?_⟩
  · rw [wf.writeToFile inside, ran]
  · rw [wf.toString, content]

theorem Wf.writesToFile_nil (wf : Wf s) (empty : s.position = s.size) : WritesToFile s := by
  have nothing : s.size - s.position = 0 := by omega
  refine ⟨⟨[], []⟩, ?_, ?_, ?_⟩
  · rw [ByteArray.writeToFile, if_pos rfl, wf.getReadSize, nothing, Nat.cast_zero, fileLoop_done le_rfl]
  · exact congrArg Nat.cast empty
  · rw [wf.toString, nothing, List.take_zero]

/-- At the border of a node. -/
theorem Wf.writesToFile_border (wf : Wf s) (pending : s.position < s.size) (border : s.position % s.baseSize = 0) :
    WritesToFile s := by
  have size := wf.size
  have offset : s.baseSize * (s.position / s.baseSize) = s.position := by
    have := Nat.div_add_mod s.position s.baseSize
    omega
  have capacity := wf.capacity
  obtain ⟨chunks, ran, covers⟩ := fileLoop_aligned wf.base wf.sized (s.position / s.baseSize)
    (s.size - s.position) (by omega) ⟨[], []⟩
  rw [offset] at ran covers
  rw [Nat.add_sub_cancel' pending.le] at covers
  exact wf.writesToFile_of_loop (by omega) ran covers rfl

/-- Inside a node, when what is left is no less than a node. -/
theorem Wf.writesToFile_long (wf : Wf s) (interior : 0 < s.position % s.baseSize)
    (small : s.position % s.baseSize < 2 ^ 31) (long : s.baseSize ≤ s.size - s.position) : WritesToFile s := by
  have base := wf.base
  have size := wf.size
  have capacity := wf.capacity
  have inNode := Nat.mod_lt s.position base
  have offset := Nat.div_add_mod s.position s.baseSize
  have index : s.position / s.baseSize < s.nodes.length := Nat.div_lt_of_lt_mul (by omega)
  have round := fileLoop_round wf.sized s.position (s.size - s.position) index small (by omega) ⟨[], []⟩
  generalize lenEq : s.baseSize - s.position % s.baseSize = len at *
  have next : s.position + len = s.baseSize * (s.position / s.baseSize + 1) := by
    rw [Nat.mul_add]
    omega
  rw [min_eq_right long, lenEq, next, offset] at round
  obtain ⟨chunks, ran, covers⟩ := fileLoop_aligned base wf.sized (s.position / s.baseSize + 1)
    (s.size - s.position - len) (by omega)
    ⟨[⟨s.position / s.baseSize, (s.position % s.baseSize : ℕ), len⟩], (s.bytes.drop s.position).take len⟩
  refine wf.writesToFile_of_loop (by omega) (round.trans ran) ?_ ?_
  · refine covers_cons wf.sized index (by omega) (by omega) offset ?_
    rw [next]
    rwa [show s.baseSize * (s.position / s.baseSize + 1) + (s.size - s.position - len) = s.size by omega] at covers
  · show (s.bytes.drop s.position).take len ++ _ = _
    have whole : len + (s.size - s.position - len) = s.size - s.position := by omega
    rw [← next]
    exact (List.slice_append ..).trans (by rw [whole])

/-! ## What a completed loop has written -/

theorem ofsWrite_chunks {cur : ℕ} {node : Node} {diff len : ℤ} {file next : File}
    (ran : ofsWrite cur node diff len file = .ok next) : next.chunks = file.chunks ++ [⟨cur, diff, len⟩] := by
  unfold ofsWrite at ran
  split_ifs at ran with empty inside
  · cases ran
    rfl
  · cases ran
    rfl

/-- A round of a loop that completes. -/
theorem fileLoop_inv {chain : List Node} {cur : ℕ} {pos readSize : ℤ} {file out : File}
    (ran : fileLoop b chain cur pos readSize file = .ok out) (pending : 0 < readSize) :
    ∃ next, next.chunks = file.chunks ++ [chunkAt b cur pos readSize] ∧
      fileLoop b chain.tail (cur + 1) (pos + (chunkAt b cur pos readSize).len)
        (readSize - (chunkAt b cur pos readSize).len) next = .ok out := by
  cases chain with
  | nil =>
    rw [fileLoop, if_pos pending] at ran
    cases ran
  | cons node rest =>
    rw [fileLoop, if_pos pending] at ran
    dsimp only at ran
    cases wrote : ofsWrite cur node (chunkAt b cur pos readSize).diff (chunkAt b cur pos readSize).len file with
    | error cause =>
      dsimp only [chunkAt] at wrote
      rw [wrote] at ran
      cases ran
    | ok next =>
      refine ⟨next, ofsWrite_chunks wrote, ?_⟩
      dsimp only [chunkAt] at wrote
      rw [wrote] at ran
      exact ran

/-- The chunks of a loop are put behind the earlier ones. -/
theorem fileLoop_prefix {chain : List Node} {cur : ℕ} {pos readSize : ℤ} {file out : File}
    (ran : fileLoop b chain cur pos readSize file = .ok out) : file.chunks <+: out.chunks := by
  induction chain generalizing cur pos readSize file with
  | nil =>
    rcases lt_or_ge 0 readSize with pending | done
    · rw [fileLoop, if_pos pending] at ran
      cases ran
    · rw [fileLoop_done done] at ran
      cases ran
      exact List.prefix_refl _
  | cons node rest ih =>
    rcases lt_or_ge 0 readSize with pending | done
    · obtain ⟨next, chunks, ran⟩ := fileLoop_inv ran pending
      have earlier : file.chunks <+: next.chunks := chunks ▸ List.prefix_append ..
      exact earlier.trans (ih ran)
    · rw [fileLoop_done done] at ran
      cases ran
      exact List.prefix_refl _

/-- A loop that completes and covers the content from inside a node starts at an offset that is an `int`, and has no
less than a node to write. -/
theorem covers_fileLoop {chain : List Node} {pos left : ℕ} {file : File} (pending : 0 < left)
    (interior : 0 < pos % b) (ran : fileLoop b chain (pos / b) pos left ⟨[], []⟩ = .ok file)
    (covers : Covers b nodes file.chunks pos (pos + left : ℕ)) : pos % b < 2 ^ 31 ∧ b ≤ left := by
  have offset : (b : ℤ) * (pos / b : ℕ) + (pos % b : ℕ) = pos := by exact_mod_cast Nat.div_add_mod pos b
  obtain ⟨next, chunks, rest⟩ := fileLoop_inv ran (Int.natCast_pos.mpr pending)
  obtain ⟨more, whole⟩ := fileLoop_prefix rest
  rw [chunks] at whole
  -- the first chunk starts at the cursor, so its offset is the one in the node
  have diff : intOf (pos % b) = (pos % b : ℕ) := by
    rw [← whole] at covers
    have placed : (b : ℤ) * (pos / b : ℕ) + intOf (pos % b) = pos := covers.2.1
    exact Int.add_left_cancel (placed.trans offset.symm)
  have small : pos % b < 2 ^ 31 := by
    have bound := intOf_lt (pos % b)
    omega
  refine ⟨small, ?_⟩
  by_contra short
  have len : (chunkAt b (pos / b) pos left).len = left - (pos % b : ℕ) := by
    rw [chunkAt, Int.toNat_natCast, diff]
    dsimp only
    rw [if_neg (by omega)]
  rw [len] at rest
  -- the offset is still to be written, and the second chunk would start before its node
  obtain ⟨second, others, rest⟩ := fileLoop_inv rest (by omega)
  obtain ⟨more, whole⟩ := fileLoop_prefix rest
  rw [others, chunks] at whole
  rw [← whole] at covers
  obtain ⟨-, -, ⟨-, nonneg, -⟩, placed, -⟩ := covers
  rw [len] at placed
  have node : ((chunkAt b (pos / b + 1) (pos + (left - (pos % b : ℕ))) (left - (left - (pos % b : ℕ)))).node : ℤ) =
      (pos / b : ℕ) + 1 := by
    exact Int.natCast_add ..
  rw [node, mul_add, mul_one] at placed
  omega

/-- From inside a node a file is written in full only if its offset there is an `int` and a node is left. -/
theorem Wf.of_writesToFile (wf : Wf s) (writes : WritesToFile s) (pending : s.position < s.size)
    (interior : 0 < s.position % s.baseSize) :
    s.position % s.baseSize < 2 ^ 31 ∧ s.baseSize ≤ s.size - s.position := by
  have size := wf.size
  obtain ⟨file, wrote, covers, -⟩ := writes
  rw [wf.writeToFile (by omega)] at wrote
  cases ran : fileLoop s.baseSize (s.nodes.drop (s.position / s.baseSize)) (s.position / s.baseSize) s.position
      (s.size - s.position : ℕ) ⟨[], []⟩ with
  | error cause =>
    rw [ran] at wrote
    cases wrote
  | ok out =>
    rw [ran] at wrote
    obtain rfl : out = file := by cases wrote; rfl
    rw [← Nat.add_sub_cancel' pending.le] at covers
    exact covers_fileLoop (by omega) interior ran covers

/-- A file is written in full exactly if nothing is left, or the cursor is at the border of a node, or its offset in
the node is an `int` and no less than a node is left. -/
theorem writesToFile_iff (b : ℕ) (heap : ℕ → ℕ → Byte) (base : 1 ≤ b) (s : ByteArray)
    (reached : (machine b heap).Reachable s) :
    WritesToFile s ↔ s.position = s.size ∨ s.position % b = 0 ∨
      (s.position % b < 2 ^ 31 ∧ b ≤ s.size - s.position) := by
  obtain ⟨wf, rfl⟩ := reachable_wf base reached
  constructor
  · intro writes
    rcases wf.position.eq_or_lt with empty | pending
    · exact .inl empty
    · rcases Nat.eq_zero_or_pos (s.position % s.baseSize) with border | interior
      · exact .inr (.inl border)
      · exact .inr (.inr (wf.of_writesToFile writes pending interior))
  · intro fits
    rcases wf.position.eq_or_lt with empty | pending
    · exact wf.writesToFile_nil empty
    · rcases Nat.eq_zero_or_pos (s.position % s.baseSize) with border | interior
      · exact wf.writesToFile_border pending border
      · rcases fits with empty | border | ⟨small, long⟩
        · omega
        · omega
        · exact wf.writesToFile_long interior small long

/-- Four of five bytes, from inside the first of two nodes. -/
theorem writesToFile_four : ∃ s, (machine 4 fun _ _ => 0).Reachable s ∧ WritesToFile s ∧
    s.position = 1 ∧ s.size = 5 := by
  have reached : (machine 4 fun _ _ => 0).Reachable _ :=
    ⟨_, [(.write [1, 2, 3, 4, 5], .ok .unit), (.setPosition 1, .ok .unit)], rfl,
      .cons (t := _) rfl (.cons (t := _) rfl (.nil _))⟩
  have holds := writesToFile_iff 4 (fun _ _ => 0) (by decide) _ reached
  exact ⟨_, reached, holds.mpr (.inr (.inr (by decide))), rfl, rfl⟩

/-- Three of five bytes: after the first of them the count is negative, and in the end a null node is followed. -/
theorem not_writesToFile : ∃ s, (machine 4 fun _ _ => 0).Reachable s ∧ ¬ WritesToFile s ∧
    s.position = 2 ∧ s.size = 5 ∧ (writeToFile true s).cause = some .nullNode := by
  have reached : (machine 4 fun _ _ => 0).Reachable _ :=
    ⟨_, [(.write [1, 2, 3, 4, 5], .ok .unit), (.setPosition 2, .ok .unit)], rfl,
      .cons (t := _) rfl (.cons (t := _) rfl (.nil _))⟩
  refine ⟨_, reached, ?_, rfl, rfl, rfl⟩
  rintro ⟨file, wrote, -⟩
  cases wrote

end Sylar.ByteArray
