import Mathlib.Data.List.Basic

/-! # The first occurrence of a separator -/

namespace List

variable {α : Type*} [DecidableEq α] {a : α} {front front' back back' : List α}

theorem idxOf?_append_cons (absent : a ∉ front) : (front ++ a :: back).idxOf? a = some front.length := by
  induction front with
  | nil => simp [idxOf?_cons]
  | cons c front ih =>
    obtain ⟨ne, absent⟩ := not_or.mp (mem_cons.not.mp absent)
    rw [cons_append, idxOf?_cons, ih absent, if_neg (by simpa using Ne.symm ne)]
    rfl

/-- A list is cut at the first separator in one way only. -/
theorem append_cons_unique (absent : a ∉ front) (absent' : a ∉ front')
    (same : front ++ a :: back = front' ++ a :: back') : front = front' ∧ back = back' := by
  have position : (front ++ a :: back).idxOf? a = some front.length := idxOf?_append_cons absent
  rw [same, idxOf?_append_cons absent'] at position
  obtain ⟨rfl, rest⟩ := append_inj same (Option.some.inj position).symm
  exact ⟨rfl, (cons.inj rest).2⟩

end List
