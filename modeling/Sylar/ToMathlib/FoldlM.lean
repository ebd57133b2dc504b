import Mathlib.Data.List.Basic

/-! # Loops that can fail -/

namespace List

variable {α β : Type} {b c : β}

/-- A loop over the indices of a list is the loop over its elements. -/
theorem foldlM_range_getElem? (f : β → Option α → Option β) (l : List α) (b : β) :
    (range l.length).foldlM (fun b i => f b l[i]?) b = l.foldlM (fun b a => f b (some a)) b := by
  have elements : (range l.length).map (fun i => l[i]?) = l.map some := by
    apply List.ext_getElem
    · simp
    · intro i _ here
      have bound : i < l.length := by simpa using here
      simp [bound]
  rw [← foldlM_map (g := f), elements, foldlM_map]

/-- What every round keeps, the loop keeps. -/
theorem foldlM_invariant {f : β → α → Option β} {P : β → Prop} (round : ∀ b a c, P b → f b a = some c → P c)
    {l : List α} (ran : l.foldlM f b = some c) (before : P b) : P c := by
  induction l generalizing b with
  | nil =>
    obtain rfl := Option.some.inj ran
    exact before
  | cons a l ih =>
    rw [foldlM_cons, Option.bind_eq_bind] at ran
    obtain ⟨next, first, rest⟩ := Option.bind_eq_some_iff.mp ran
    exact ih rest (round b a next before first)

/-- A loop each of whose rounds adds its element to what the state stands for. -/
theorem foldlM_concat {f : β → α → Option β} {l : List α} (stands : List α → β) (done : List α)
    (round : ∀ done, ∀ a ∈ l, f (stands done) a = some (stands (done ++ [a]))) :
    l.foldlM f (stands done) = some (stands (done ++ l)) := by
  induction l generalizing done with
  | nil =>
    rw [append_nil]
    rfl
  | cons a l ih =>
    have rest := ih (done ++ [a]) fun done a member => round done a (mem_cons_of_mem _ member)
    rw [append_assoc] at rest
    rw [foldlM_cons, round done a mem_cons_self]
    exact rest

end List
