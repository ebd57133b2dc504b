import Mathlib.Data.List.Basic
import Mathlib.Tactic.Ring

/-! # Overwriting a slice of a list, and of a list cut into equal blocks

`splice l i d` stores `d` over the cells `i, …, i + |d| - 1` of `l`. The cells outside that range
keep their content, adjacent splices compose, and a slice read back is what was spliced in. When a
list is the concatenation of blocks of one length, splicing inside block `k` is splicing the
concatenation at the block's offset, and likewise for reading a slice of one block.
-/

namespace List

variable {α : Type*} {l : List α} {i j b k : ℕ} {d : List α}

/-- Store `d` over the cells of `l` from index `i` on. -/
def splice (l : List α) (i : ℕ) (d : List α) : List α := l.take i ++ d ++ l.drop (i + d.length)

theorem length_splice (room : i + d.length ≤ l.length) : (l.splice i d).length = l.length := by
  simp only [splice, length_append, length_take, length_drop]
  omega

@[simp] theorem splice_nil (l : List α) (i : ℕ) : l.splice i [] = l := by
  simp only [splice, append_nil, length_nil, Nat.add_zero, take_append_drop]

/-- Cells before and after the overwritten range are untouched. -/
theorem getElem?_splice_of_outside (start : i ≤ l.length) (outside : j < i ∨ i + d.length ≤ j) :
    (l.splice i d)[j]? = l[j]? := by
  have shorter : (l.take i).length = i := length_take_of_le start
  rw [splice, append_assoc]
  rcases outside with before | after
  · rw [getElem?_append_left (by omega), getElem?_take_of_lt before]
  · rw [getElem?_append_right (by omega), getElem?_append_right (by omega), getElem?_drop]
    congr 1
    omega

theorem drop_splice (start : i ≤ l.length) : (l.splice i d).drop i = d ++ l.drop (i + d.length) := by
  have shorter : (l.take i).length = i := length_take_of_le start
  rw [splice, append_assoc, drop_append_of_le_length (by omega), drop_of_length_le (by omega),
    nil_append]

/-- Reading the overwritten range gives back what was stored. -/
theorem slice_splice (start : i ≤ l.length) : ((l.splice i d).drop i).take d.length = d := by
  rw [drop_splice start, take_left]

/-- Cells appended behind the overwritten range may as well be appended first. -/
theorem splice_append (room : i + d.length ≤ l.length) (r : List α) :
    l.splice i d ++ r = (l ++ r).splice i d := by
  rw [splice, splice, take_append_of_le_length (by omega), drop_append_of_le_length room, append_assoc]

/-- Writing two adjacent pieces one after the other is writing their concatenation. -/
theorem splice_splice (start : i ≤ l.length) (first second : List α) :
    (l.splice i first).splice (i + first.length) second = l.splice i (first ++ second) := by
  have shorter : (l.take i).length = i := length_take_of_le start
  have head : (l.splice i first).take (i + first.length) = l.take i ++ first := by
    rw [splice, take_append_of_le_length (by rw [length_append]; omega),
      take_of_length_le (by rw [length_append]; omega)]
  have tail : (l.splice i first).drop (i + first.length + second.length) =
      l.drop (i + (first ++ second).length) := by
    rw [← drop_drop, ← drop_drop, drop_splice start, drop_left, drop_drop, length_append,
      Nat.add_assoc]
  rw [splice, head, tail, splice, append_assoc (l.take i)]

/-- Consecutive slices concatenate. -/
theorem slice_append (l : List α) (i m n : ℕ) :
    (l.drop i).take m ++ (l.drop (i + m)).take n = (l.drop i).take (m + n) := by
  rw [← drop_drop, take_add]

/-! ## Lists cut into blocks of one length -/

theorem length_flatten_of_blocks {blocks : List (List α)} (sized : ∀ x ∈ blocks, x.length = b) :
    blocks.flatten.length = b * blocks.length := by
  induction blocks with
  | nil => simp
  | cons x rest ih =>
    rw [flatten_cons, length_append, sized x mem_cons_self,
      ih (fun y member => sized y (mem_cons_of_mem _ member)), length_cons, Nat.mul_add, Nat.mul_one,
      Nat.add_comm]

/-- Block `k` of a concatenation starts at offset `b * k`, and replacing it touches nothing else. -/
theorem flatten_around {blocks : List (List α)} (sized : ∀ x ∈ blocks, x.length = b)
    (bound : k < blocks.length) :
    ∃ before after, before.length = b * k ∧ blocks.flatten = before ++ (blocks[k] ++ after) ∧
      ∀ x, (blocks.set k x).flatten = before ++ (x ++ after) := by
  refine ⟨(blocks.take k).flatten, (blocks.drop (k + 1)).flatten, ?_, ?_, ?_⟩
  · rw [length_flatten_of_blocks (fun x member => sized x (mem_of_mem_take member)),
      length_take_of_le (by omega)]
  · rw [← flatten_cons, getElem_cons_drop, ← flatten_append, take_append_drop]
  · intro x
    rw [set_eq_take_append_cons_drop, if_pos bound, flatten_append, flatten_cons]

/-- A slice inside one block is the slice of the concatenation at the block's offset. -/
theorem slice_block {blocks : List (List α)} (sized : ∀ x ∈ blocks, x.length = b)
    (bound : k < blocks.length) {n : ℕ} (inside : i + n ≤ b) :
    (blocks[k].drop i).take n = (blocks.flatten.drop (b * k + i)).take n := by
  obtain ⟨before, after, offset, whole, _⟩ := flatten_around sized bound
  have block : blocks[k].length = b := sized _ (getElem_mem bound)
  rw [whole, ← offset, ← drop_drop, drop_left, drop_append_of_le_length (by omega),
    take_append_of_le_length (by rw [length_drop]; omega)]

/-- Splicing inside one block splices the concatenation at the block's offset. -/
theorem flatten_set_splice {blocks : List (List α)} (sized : ∀ x ∈ blocks, x.length = b)
    (bound : k < blocks.length) (inside : i + d.length ≤ b) :
    (blocks.set k (blocks[k].splice i d)).flatten = blocks.flatten.splice (b * k + i) d := by
  obtain ⟨before, after, offset, whole, replaced⟩ := flatten_around sized bound
  have block : blocks[k].length = b := sized _ (getElem_mem bound)
  have head : (before ++ (blocks[k] ++ after)).take (before.length + i) =
      before ++ blocks[k].take i := by
    rw [take_length_add_append, take_append_of_le_length (by omega)]
  have tail : (before ++ (blocks[k] ++ after)).drop (before.length + i + d.length) =
      blocks[k].drop (i + d.length) ++ after := by
    rw [Nat.add_assoc, drop_length_add_append, drop_append_of_le_length (by omega)]
  rw [replaced, whole, ← offset, splice, splice, head, tail]
  simp only [append_assoc]

end List
