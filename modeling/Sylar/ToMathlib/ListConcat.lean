import Mathlib.Data.List.Basic

/-! # A list with one more element -/

namespace List

variable {α : Type*} {l : List α} {a b : α} {i : ℕ}

/-- An element of the longer list is one of the list, or the new one at the end. -/
theorem getElem?_concat_eq_some_iff : (l ++ [a])[i]? = some b ↔ l[i]? = some b ∨ i = l.length ∧ b = a := by
  rcases Nat.lt_trichotomy i l.length with before | rfl | past
  · rw [getElem?_append_left before]
    exact (or_iff_left fun last => Nat.ne_of_lt before last.1).symm
  · rw [getElem?_concat_length, getElem?_eq_none (Nat.le_refl _)]
    constructor
    · intro same
      exact .inr ⟨rfl, (Option.some.inj same).symm⟩
    · rintro (none | ⟨-, rfl⟩)
      · cases none
      · rfl
  · rw [getElem?_eq_none (by rw [length_append]; exact past), getElem?_eq_none (Nat.le_of_lt past)]
    constructor
    · intro none
      cases none
    · rintro (none | ⟨rfl, -⟩)
      · cases none
      · exact absurd past (Nat.lt_irrefl _)

end List
