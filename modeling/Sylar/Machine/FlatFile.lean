import Sylar.ToMathlib.ListSplice

/-! # A flat file with a cursor

One array of cells, a cursor, and the length of the part that counts as content. Storing overwrites
the cells behind the cursor and may lengthen the array by cells of unspecified value; reading and
seeking never change a cell. This is the meaning a chunked or buffered representation is compared
with; it knows nothing about one.
-/

namespace Sylar

/-- Cells, cursor and length of content. -/
structure FlatFile (α : Type*) where
  cells : List α
  cursor : ℕ
  fill : ℕ

namespace FlatFile

variable {α : Type*} {f g h : FlatFile α} {d : List α} {n v : ℕ}

/-- The `n` cells behind the cursor. -/
def view (f : FlatFile α) (n : ℕ) : List α := (f.cells.drop f.cursor).take n

/-- Move the cursor over `n` cells. -/
def advance (f : FlatFile α) (n : ℕ) : FlatFile α := { f with cursor := f.cursor + n }

/-- Put the cursor at `v`, which then counts as content. -/
def seek (f : FlatFile α) (v : ℕ) : FlatFile α := { f with cursor := v, fill := max f.fill v }

/-- `g` is `f` after `d` has been stored behind the cursor. -/
structure Stores (f : FlatFile α) (d : List α) (g : FlatFile α) : Prop where
  stored : (g.cells.drop f.cursor).take d.length = d
  kept : ∀ i < f.cells.length, i < f.cursor ∨ f.cursor + d.length ≤ i → g.cells[i]? = f.cells[i]?
  longer : f.cells.length ≤ g.cells.length
  cursor : g.cursor = f.cursor + d.length
  fill : g.fill = max f.fill g.cursor

namespace Stores

/-- Splicing into a file that is long enough, after lengthening it, stores. -/
theorem of_splice {pad : List α} (start : f.cursor ≤ f.cells.length)
    (cells : g.cells = (f.cells ++ pad).splice f.cursor d) (longer : f.cells.length ≤ g.cells.length)
    (cursor : g.cursor = f.cursor + d.length) (fill : g.fill = max f.fill g.cursor) :
    f.Stores d g where
  stored := by rw [cells, List.slice_splice (by rw [List.length_append]; omega)]
  kept := by
    intro i inside outside
    rw [cells, List.getElem?_splice_of_outside (by rw [List.length_append]; omega) outside,
      List.getElem?_append_left inside]
  longer := longer
  cursor := cursor
  fill := fill

theorem nil (f : FlatFile α) (content : f.cursor ≤ f.fill) : f.Stores [] f :=
  ⟨by simp, fun _ _ _ => rfl, le_rfl, rfl, (max_eq_left content).symm⟩

/-- What has been stored lies within the lengthened file. -/
theorem room (stores : f.Stores d g) (start : f.cursor ≤ f.cells.length) :
    f.cursor + d.length ≤ g.cells.length := by
  have length := congrArg List.length stores.stored
  rw [List.length_take, List.length_drop] at length
  have := stores.longer
  omega

/-- Storing two pieces one after the other stores their concatenation. -/
theorem trans {e : List α} (first : f.Stores d g) (second : g.Stores e h)
    (start : f.cursor ≤ f.cells.length) : f.Stores (d ++ e) h where
  stored := by
    have room := first.room start
    have firstHalf : (h.cells.drop f.cursor).take d.length = d := by
      rw [← first.stored]
      apply List.ext_getElem?
      intro i
      rw [first.stored]
      simp only [List.getElem?_take, List.getElem?_drop]
      split
      · next inside =>
        rw [second.kept _ (by omega) (Or.inl (by rw [first.cursor]; omega))]
        conv_rhs => rw [← first.stored]
        rw [List.getElem?_take_of_lt inside, List.getElem?_drop]
      · next outside => rw [List.getElem?_eq_none (by omega)]
    have secondHalf := second.stored
    rw [first.cursor] at secondHalf
    rw [List.length_append, ← List.slice_append, firstHalf, secondHalf]
  kept := by
    intro i inside outside
    rw [List.length_append] at outside
    rw [second.kept i (inside.trans_le first.longer) (by rw [first.cursor]; omega),
      first.kept i inside (by omega)]
  longer := first.longer.trans second.longer
  cursor := by rw [second.cursor, first.cursor, List.length_append, Nat.add_assoc]
  fill := by
    have := second.cursor
    rw [second.fill, first.fill]
    omega

end Stores

end FlatFile

end Sylar
