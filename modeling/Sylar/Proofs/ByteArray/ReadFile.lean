import Sylar.Model.ByteArray.ReadFile
import Sylar.Proofs.ByteArray.Records

/-! # What `readFromFile` leaves, and when it ends

A well-formed state is determined by its bytes and its numbers, so two writes in a row leave the very state that one
write of both buffers leaves, wherever the node borders lie. The rounds of the loop therefore add up to one write. The
loop ends with the stream: the end of the file is the only thing that sets the flag it looks at.
-/

namespace Sylar.ByteArray

variable {b : ℕ} {heap : ℕ → ℕ → Byte} {s t u : ByteArray} {d e : List Byte} {count more : ℕ} {ifs : IfStream}

/-! ## Writes add up -/

/-- A chain of equal nodes is determined by its concatenated memory. -/
theorem Sized.ext {nodes others : List Node} (sized : Sized b nodes) (sized' : Sized b others)
    (length : nodes.length = others.length)
    (memory : (nodes.map Node.ptr).flatten = (others.map Node.ptr).flatten) : nodes = others := by
  induction nodes generalizing others with
  | nil => exact (List.length_eq_zero_iff.mp length.symm).symm
  | cons node rest ih =>
    cases others with
    | nil => cases length
    | cons other others =>
      obtain ⟨nodeSize, nodeMemory⟩ := sized node List.mem_cons_self
      obtain ⟨otherSize, otherMemory⟩ := sized' other List.mem_cons_self
      obtain ⟨here, behind⟩ := List.append_inj memory (nodeMemory.trans otherMemory.symm)
      have same : node = other := by
        cases node
        cases other
        exact Node.mk.injEq .. ▸ ⟨here, nodeSize.trans otherSize.symm⟩
      have tail := ih (fun x member => sized x (List.mem_cons_of_mem _ member))
        (fun x member => sized' x (List.mem_cons_of_mem _ member)) (Nat.succ.inj length) behind
      rw [same, tail]

theorem Overwrites.count_eq (first : Overwrites s d count t) (second : Overwrites s d more u) : count = more := by
  have same := first.least
  rw [first.position, ← second.position, ← second.least] at same
  omega

/-- The state a write leaves is determined. -/
theorem Overwrites.unique (first : Overwrites s d count t) (second : Overwrites s d more u) : t = u := by
  obtain rfl := first.count_eq second
  have base : t.baseSize = u.baseSize := first.baseSize.trans second.baseSize.symm
  have length : t.nodes.length = u.nodes.length := first.length.trans second.length.symm
  have nodes : t.nodes = u.nodes :=
    first.wf.sized.ext (base ▸ second.wf.sized) length (first.bytes.trans second.bytes.symm)
  have position : t.position = u.position := first.position.trans second.position.symm
  have size : t.size = u.size := by rw [first.size, second.size, position]
  have capacity : t.capacity = u.capacity := by rw [first.wf.capacity, second.wf.capacity, base, length]
  have cur : t.cur = u.cur := by rw [first.wf.cur, second.wf.cur, base, length, position]
  have endian : t.endian = u.endian := first.endian.trans second.endian.symm
  have memory : t.heap = u.heap := first.heap.trans second.heap.symm
  have allocated : t.allocated = u.allocated := first.allocated.trans second.allocated.symm
  cases t
  cases u
  congr

/-- The nodes of two growths are those of one. -/
theorem freshNodes_append (sameBase : t.baseSize = s.baseSize) (sameHeap : t.heap = s.heap)
    (allocated : t.allocated = s.allocated + count) :
    s.freshNodes count ++ t.freshNodes more = s.freshNodes (count + more) := by
  have shifted : t.freshNodes more =
      (List.range more).map fun i => Node.new s.baseSize (s.heap (s.allocated + (count + i))) := by
    simp only [freshNodes, sameBase, sameHeap, allocated, Nat.add_assoc]
  rw [shifted, freshNodes, freshNodes, List.range_add, List.map_append, List.map_map]
  rfl

/-- The cells of a chain stay where they are when it grows. -/
theorem Overwrites.room (wf : Wf s) (overwrites : Overwrites s d count t) :
    s.position + d.length ≤ (s.grown count).bytes.length := by
  have position := overwrites.wf.position.trans overwrites.wf.size
  rw [overwrites.position, overwrites.wf.capacity, overwrites.length, overwrites.baseSize] at position
  rwa [(wf.grown count).length_bytes, (wf.grown count).capacity, length_grown]

theorem Overwrites.trans (wf : Wf s) (first : Overwrites s d count t) (second : Overwrites t e more u) :
    Overwrites s (d ++ e) (count + more) u where
  wf := second.wf
  baseSize := second.baseSize.trans first.baseSize
  endian := second.endian.trans first.endian
  heap := second.heap.trans first.heap
  allocated := by rw [second.allocated, first.allocated, Nat.add_assoc]
  position := by rw [second.position, first.position, List.length_append, Nat.add_assoc]
  size := by
    have := second.position
    rw [second.size, first.size]
    omega
  length := by rw [second.length, first.length, Nat.add_assoc]
  least := by
    have later : (t.position + (s.baseSize - 1)) / s.baseSize ≤ (u.position + (s.baseSize - 1)) / s.baseSize := by
      apply Nat.div_le_div_right
      have := second.position
      omega
    have least := second.least
    rw [first.length, first.baseSize, first.least] at least
    rw [← Nat.add_assoc]
    have := first.least
    omega
  bytes := by
    have room := first.room wf
    have extended : (t.grown more).bytes = (s.grown (count + more)).bytes.splice s.position d := by
      rw [bytes_grown, first.bytes, List.splice_append room, bytes_grown, bytes_grown,
        ← freshNodes_append first.baseSize first.heap first.allocated, List.map_append, List.flatten_append,
        List.append_assoc]
    have start : s.position ≤ (s.grown (count + more)).bytes.length := by
      have := wf.start
      rw [bytes_grown, List.length_append]
      exact this.trans (Nat.le_add_right _ _)
    rw [second.bytes, extended, first.position, List.splice_splice start]

/-- Two writes in a row leave the state that one write of both buffers leaves. -/
theorem Wf.write_append (wf : Wf s) (d e : List Byte) :
    ByteArray.write (d ++ e) s = (do ByteArray.write d; ByteArray.write e : Op Unit) s := by
  obtain ⟨_, t, wrote, overwrites, _⟩ := wf.overwrites d
  obtain ⟨_, u, wrote', overwrites', _⟩ := overwrites.wf.overwrites e
  obtain ⟨_, v, whole, overwrites'', _⟩ := wf.overwrites (d ++ e)
  rw [Call.bind_done wrote, wrote', whole, overwrites''.unique (overwrites.trans wf overwrites')]

/-! ## The rounds of the loop -/

/-- An opened stream delivers `c` in blocks of at most `b` bytes and reports the end of the file on the last one. -/
structure Delivers (b : ℕ) (ifs : IfStream) (c : List Byte) : Prop where
  opened : ifs.eofbit = false
  ending : ifs.ending = .endOfFile
  blocks : ∀ block ∈ ifs.blocks, block.length ≤ b
  last : ifs.last.length ≤ b
  content : ifs.blocks.flatten ++ ifs.last = c

/-- Every content is delivered by a stream of full blocks with a short one, possibly empty, behind them. -/
theorem exists_delivers (base : 0 < b) (c : List Byte) :
    ∃ ifs, Delivers b ifs c ∧ (∀ block ∈ ifs.blocks, block.length = b) ∧ ifs.last.length < b := by
  induction length : c.length using Nat.strong_induction_on generalizing c with
  | _ n ih =>
    rcases Nat.lt_or_ge c.length b with short | long
    · refine ⟨⟨[], c, .endOfFile, false⟩, ⟨rfl, rfl, ?_, short.le, rfl⟩, ?_, short⟩
      · exact List.forall_mem_nil _
      · exact List.forall_mem_nil _
    · have rest : (c.drop b).length < n := by
        rw [List.length_drop]
        omega
      have first : (c.take b).length = b := List.length_take_of_le long
      obtain ⟨ifs, delivers, full, last⟩ := ih _ rest (c.drop b) rfl
      have whole : ∀ block ∈ c.take b :: ifs.blocks, block.length = b := List.forall_mem_cons.mpr ⟨first, full⟩
      refine ⟨⟨c.take b :: ifs.blocks, ifs.last, .endOfFile, false⟩, ?_, whole, last⟩
      refine ⟨rfl, rfl, fun block member => (whole block member).le, last.le, ?_⟩
      rw [List.flatten_cons, List.append_assoc, delivers.content, List.take_append_drop]

theorem readFileLoop_eof (ended : ifs.eofbit = true) (rounds : ℕ) (s : ByteArray) :
    readFileLoop rounds ifs s = .done true s := by
  cases rounds with
  | zero => rw [readFileLoop, ended, Call.pure_apply]
  | succ rounds => rw [readFileLoop, if_pos ended, Call.pure_apply]

theorem readFileLoop_round (pending : ifs.eofbit = false) (rounds : ℕ) :
    readFileLoop (rounds + 1) ifs = (do write ifs.read.1; readFileLoop rounds ifs.read.2 : Op Bool) := by
  rw [readFileLoop, if_neg (by rw [pending]; exact Bool.false_ne_true)]

/-- The rounds of a stream that reaches the end of the file write its blocks one after the other. -/
theorem Wf.readFileLoop (wf : Wf s) (opened : ifs.eofbit = false) (ending : ifs.ending = .endOfFile) {rounds : ℕ}
    (enough : ifs.blocks.length < rounds) :
    ∃ t, ByteArray.write (ifs.blocks.flatten ++ ifs.last) s = .done () t ∧
      ByteArray.readFileLoop rounds ifs s = .done true t := by
  obtain ⟨rounds, rfl⟩ : ∃ n, rounds = n + 1 := ⟨rounds - 1, by omega⟩
  obtain ⟨blocks, last, ending', eofbit⟩ := ifs
  obtain rfl : eofbit = false := opened
  obtain rfl : ending' = .endOfFile := ending
  induction blocks generalizing s rounds with
  | nil =>
    obtain ⟨t, wrote, _⟩ := wf.write last
    refine ⟨t, wrote, ?_⟩
    rw [readFileLoop_round rfl, IfStream.read, Call.bind_done wrote]
    exact readFileLoop_eof rfl rounds t
  | cons block blocks ih =>
    obtain ⟨t, wrote, written⟩ := wf.write block
    cases rounds with
    | zero => exact absurd enough (by simp)
    | succ rounds =>
      obtain ⟨u, wrote', ran⟩ := ih written.wf rounds (by simpa using enough)
      refine ⟨u, ?_, ?_⟩
      · rw [List.flatten_cons, List.append_assoc, wf.write_append, Call.bind_done wrote]
        exact wrote'
      · rw [readFileLoop_round rfl, IfStream.read, Call.bind_done wrote]
        exact ran

/-- No read of a stream that fails before the end of the file sets the flag. -/
theorem read_ioError (pending : ifs.eofbit = false) (failing : ifs.ending = .ioError) :
    ifs.read.2.eofbit = false ∧ ifs.read.2.ending = .ioError := by
  obtain ⟨blocks, last, ending, eofbit⟩ := ifs
  obtain rfl : ending = .ioError := failing
  cases blocks with
  | nil => exact ⟨rfl, rfl⟩
  | cons block blocks => exact ⟨pending, rfl⟩

theorem Wf.readFileLoop_ioError (wf : Wf s) (pending : ifs.eofbit = false) (failing : ifs.ending = .ioError)
    (rounds : ℕ) : ∃ t, ByteArray.readFileLoop rounds ifs s = .done false t := by
  induction rounds generalizing s ifs with
  | zero => exact ⟨s, by rw [ByteArray.readFileLoop, pending, Call.pure_apply]⟩
  | succ rounds ih =>
    obtain ⟨t, wrote, written⟩ := wf.write ifs.read.1
    obtain ⟨pending', failing'⟩ := read_ioError pending failing
    obtain ⟨u, ran⟩ := ih written.wf pending' failing'
    refine ⟨u, ?_⟩
    rw [readFileLoop_round pending, Call.bind_done wrote, ran]

/-! ## The whole call -/

theorem readFromFile_done {rounds : ℕ} {ended : Bool} (ran : readFileLoop rounds ifs s = .done ended t) :
    readFromFile rounds (some ifs) s = .done (if ended then some true else none) t := by
  rw [readFromFile, Call.bind_done ran, Call.pure_apply]

/-- Reading a file leaves the state that one write of its content leaves, whatever blocks it comes in. -/
theorem readFromFile_eq_write (b : ℕ) (heap : ℕ → ℕ → Byte) (base : 1 ≤ b) (s : ByteArray)
    (reached : (machine b heap).Reachable s) (c : List Byte) :
    (∃ ifs, Delivers b ifs c ∧ (∀ block ∈ ifs.blocks, block.length = b) ∧ ifs.last.length < b) ∧
      ∃ t, write c s = .done () t ∧ ∀ ifs, Delivers b ifs c → ∀ rounds, ifs.blocks.length < rounds →
        readFromFile rounds (some ifs) s = .done (some true) t := by
  obtain ⟨wf, _⟩ := reachable_wf base reached
  refine ⟨exists_delivers base c, ?_⟩
  obtain ⟨t, wrote, _⟩ := wf.write c
  refine ⟨t, wrote, ?_⟩
  intro ifs delivers rounds enough
  obtain ⟨u, wrote', ran⟩ := wf.readFileLoop delivers.opened delivers.ending enough
  rw [delivers.content, wrote] at wrote'
  cases wrote'
  exact readFromFile_done ran

/-- Four bytes in two full blocks and an empty one, behind a byte of the first node. -/
theorem readFromFile_eq_write_multiple : ∃ s t, (machine 2 fun _ _ => 0).Reachable s ∧ s.position = 1 ∧
    write [1, 2, 3, 4] s = .done () t ∧
    readFromFile 3 (some ⟨[[1, 2], [3, 4]], [], .endOfFile, false⟩) s = .done (some true) t := by
  have reached : (machine 2 fun _ _ => 0).Reachable _ :=
    ⟨_, [(.write [7], .ok .unit)], rfl, .cons (t := _) rfl (.nil _)⟩
  obtain ⟨_, t, wrote, reads⟩ := readFromFile_eq_write 2 (fun _ _ => 0) (by decide) _ reached [1, 2, 3, 4]
  refine ⟨_, t, reached, rfl, wrote, reads _ ⟨rfl, rfl, ?_, by decide, rfl⟩ 3 (by decide)⟩
  decide

/-- The loop ends exactly for the streams that reach the end of the file. -/
theorem readFromFile_ends_iff (b : ℕ) (heap : ℕ → ℕ → Byte) (base : 1 ≤ b) (s : ByteArray)
    (reached : (machine b heap).Reachable s) (ifs : IfStream) (opened : ifs.eofbit = false) :
    (∃ rounds result t, readFromFile rounds (some ifs) s = .done (some result) t) ↔ ifs.ending = .endOfFile := by
  obtain ⟨wf, _⟩ := reachable_wf base reached
  constructor
  · rintro ⟨rounds, result, t, ended⟩
    cases ending : ifs.ending with
    | endOfFile => rfl
    | ioError =>
      obtain ⟨u, ran⟩ := wf.readFileLoop_ioError opened ending rounds
      rw [readFromFile_done ran] at ended
      cases ended
  · intro ending
    obtain ⟨t, _, ran⟩ := wf.readFileLoop opened ending (Nat.lt_succ_self _)
    exact ⟨_, true, t, readFromFile_done ran⟩

/-- A file of one block. -/
theorem readFromFile_ends_block : ∃ rounds result t, readFromFile rounds
    (some ⟨[[1, 2]], [3], .endOfFile, false⟩) (new 2 fun _ _ => 0) = .done (some result) t :=
  (readFromFile_ends_iff 2 (fun _ _ => 0) (by decide) _ (.init rfl) _ rfl).mpr rfl

/-- A directory can be opened but not read: every round writes nothing and leaves the stream as it is. -/
theorem readFileLoop_directory (rounds : ℕ) :
    readFileLoop rounds ⟨[], [], .ioError, false⟩ s = .done false s := by
  induction rounds with
  | zero => rfl
  | succ rounds ih => exact ih

theorem readFromFile_directory : ¬ ∃ rounds result t,
    readFromFile rounds (some ⟨[], [], .ioError, false⟩) (new 4096 fun _ _ => 0) = .done (some result) t := by
  rintro ⟨rounds, result, t, ended⟩
  rw [readFromFile_done (readFileLoop_directory rounds)] at ended
  cases ended

end Sylar.ByteArray
