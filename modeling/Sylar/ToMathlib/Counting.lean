import Mathlib.Algebra.BigOperators.Group.Finset.Piecewise

/-! # Counting and selecting when one point or one label changes

The points of a finite family that have a property, when one of them is replaced; the labels of a list
that are counted or selected, when one comes in front or behind.
-/

namespace List

variable {α β : Type*}

theorem countP_cons_toNat (p : α → Bool) (a : α) (l : List α) :
    (a :: l).countP p = (p a).toNat + l.countP p := by
  rw [countP_cons, Nat.add_comm]
  cases p a <;> rfl

theorem filterMap_cons_toList (f : α → Option β) (a : α) (l : List α) :
    (a :: l).filterMap f = (f a).toList ++ l.filterMap f := by
  rw [filterMap_cons]
  cases f a <;> rfl

/-- The last label selected is the one behind, if it is. -/
theorem getLast?_filterMap_append (f : α → Option β) (l : List α) (a : α) (b : β) :
    ((l ++ [a]).filterMap f).getLast?.getD b = (f a).getD ((l.filterMap f).getLast?.getD b) := by
  rw [filterMap_append]
  cases found : f a with
  | none => simp [found]
  | some c => simp [found]

end List

namespace Sylar

variable {ι α : Type*} [Fintype ι] [DecidableEq ι]

theorem card_filter_update (p : α → Bool) (f : ι → α) (i : ι) (a : α) :
    (Finset.univ.filter fun j => p (Function.update f i a j) = true).card + (p (f i)).toNat =
      (Finset.univ.filter fun j => p (f j) = true).card + (p a).toNat := by
  have bit (b : Bool) : b.toNat = if b = true then 1 else 0 := by cases b <;> rfl
  have others : ∑ j ∈ Finset.univ.erase i, (p (Function.update f i a j)).toNat =
      ∑ j ∈ Finset.univ.erase i, (p (f j)).toNat :=
    Finset.sum_congr rfl fun j member => by rw [Function.update_of_ne (Finset.ne_of_mem_erase member)]
  simp only [Finset.card_filter, ← bit]
  rw [← Finset.add_sum_erase _ _ (Finset.mem_univ i),
    ← Finset.add_sum_erase _ (fun j => (p (f j)).toNat) (Finset.mem_univ i), others, Function.update_self]
  omega

end Sylar
