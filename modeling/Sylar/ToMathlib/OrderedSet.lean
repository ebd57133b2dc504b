import Mathlib.Data.Prod.Lex
import Mathlib.Data.List.Basic
import Mathlib.Data.List.TakeWhile

/-! # Ordered sets with a comparator, as their elements in iteration order

The set is the list of its elements in order and an iterator is an index into it, the length being the
end. The operations call the comparator only; what they do is stated for a comparator that compares
an injective key, and for a list on which that key is strictly increasing. The key may change between
two operations, as long as the list is increasing again whenever one is called.
-/

namespace Sylar.OrderedSet

variable {α : Type*} (lt : α → α → Bool)

/-- The first element that does not come before `v`. -/
def lowerBound (v : α) (s : List α) : ℕ := s.findIdx fun a => !lt a v

/-- The element equivalent to `v`, if there is one. -/
def find (v : α) (s : List α) : Option ℕ :=
  match s[lowerBound lt v s]? with
  | some a => if lt v a then none else some (lowerBound lt v s)
  | none => none

/-- Insert `v` unless an equivalent element is there; in either case say where it is. -/
def insert (v : α) (s : List α) : ℕ × List α :=
  let i := lowerBound lt v s
  if (find lt v s).isSome then (i, s) else (i, s.take i ++ v :: s.drop i)

/-- The key increases strictly along the list. -/
def Sorted {κ : Type*} [LT κ] (key : α → κ) (s : List α) : Prop := s.Pairwise fun a b => key a < key b

variable {κ : Type*} [LinearOrder κ] {lt} {key : α → κ} {s : List α} {a v : α} {i : ℕ}

theorem Sorted.nodup (sorted : Sorted key s) : s.Nodup :=
  sorted.imp fun less same => absurd (same ▸ less) (lt_irrefl _)

/-- Only the keys of the elements count. -/
theorem Sorted.congr {key' : α → κ} (sorted : Sorted key s) (same : ∀ a ∈ s, key' a = key a) :
    Sorted key' s :=
  sorted.imp_of_mem fun memberA memberB less => by rwa [same _ memberA, same _ memberB]

theorem Sorted.head_le (sorted : Sorted key s) {first : α} (head : s.head? = some first) (member : a ∈ s) :
    key first ≤ key a := by
  obtain ⟨rest, rfl⟩ := List.head?_eq_some_iff.mp head
  rcases List.mem_cons.mp member with rfl | later
  · exact le_rfl
  · exact (List.rel_of_pairwise_cons sorted later).le

section Keyed

variable (keyed : ∀ a b, lt a b = true ↔ key a < key b)

include keyed

/-- The elements in front of `lower_bound` are those before `v`. -/
theorem mem_take_lowerBound (sorted : Sorted key s) :
    a ∈ s.take (lowerBound lt v s) ↔ a ∈ s ∧ key a < key v := by
  induction s with
  | nil => simp
  | cons x rest ih =>
    obtain ⟨first, sorted⟩ := List.pairwise_cons.mp sorted
    rw [lowerBound, List.findIdx_cons]
    by_cases before : lt x v = true
    · simp only [before, Bool.not_true, cond_false, List.take_succ_cons, List.mem_cons]
      have less := (keyed x v).mp before
      rw [show rest.take (rest.findIdx fun a => !lt a v) = rest.take (lowerBound lt v rest) from rfl,
        ih sorted]
      constructor
      · rintro (rfl | ⟨member, smaller⟩)
        · exact ⟨Or.inl rfl, less⟩
        · exact ⟨Or.inr member, smaller⟩
      · rintro ⟨rfl | member, smaller⟩
        · exact Or.inl rfl
        · exact Or.inr ⟨member, smaller⟩
    · simp only [before, Bool.not_false, cond_true, List.take_zero, List.not_mem_nil, false_iff]
      rintro ⟨member, smaller⟩
      have least : key v ≤ key x := le_of_not_gt fun less => before ((keyed x v).mpr less)
      rcases List.mem_cons.mp member with rfl | later
      · exact absurd smaller (not_lt_of_ge least)
      · exact absurd (smaller.trans_le least) (not_lt_of_gt (first a later))

/-- The elements from `lower_bound` on are the others. -/
theorem mem_drop_lowerBound (sorted : Sorted key s) :
    a ∈ s.drop (lowerBound lt v s) ↔ a ∈ s ∧ key v ≤ key a := by
  have split : a ∈ s ↔ a ∈ s.take (lowerBound lt v s) ∨ a ∈ s.drop (lowerBound lt v s) := by
    rw [← List.mem_append, List.take_append_drop]
  have front := mem_take_lowerBound keyed (v := v) (a := a) sorted
  constructor
  · intro member
    refine ⟨split.mpr (Or.inr member), le_of_not_gt fun less => ?_⟩
    have disjoint : (s.take (lowerBound lt v s) ++ s.drop (lowerBound lt v s)).Nodup := by
      rw [List.take_append_drop]
      exact sorted.nodup
    exact (List.nodup_append.mp disjoint).2.2 a
      (front.mpr ⟨split.mpr (Or.inr member), less⟩) a member rfl
  · rintro ⟨member, notLess⟩
    rcases split.mp member with before | after
    · exact absurd (front.mp before).2 (not_lt_of_ge notLess)
    · exact after

/-- Where `find` points, there is `v`. -/
theorem getElem?_of_find (injective : Function.Injective key) (found : find lt v s = some i) :
    s[i]? = some v := by
  unfold find at found
  split at found
  · next a here =>
    split_ifs at found with less
    cases found
    have notBefore : ¬ lt a v = true := by
      obtain ⟨inside, rfl⟩ := List.getElem?_eq_some_iff.mp here
      have stopped : (!lt s[lowerBound lt v s] v) = true := List.findIdx_getElem (w := inside)
      simpa using stopped
    have same : key a = key v := le_antisymm
      (le_of_not_gt fun greater => less ((keyed v a).mpr greater))
      (le_of_not_gt fun smaller => notBefore ((keyed a v).mpr smaller))
    rw [here, injective same]
  · cases found

/-- On an increasing list `find` succeeds exactly on the elements. -/
theorem find_isSome_iff (injective : Function.Injective key) (sorted : Sorted key s) :
    (find lt v s).isSome ↔ v ∈ s := by
  constructor
  · intro some
    obtain ⟨i, found⟩ := Option.isSome_iff_exists.mp some
    exact List.mem_of_getElem? (getElem?_of_find keyed injective found)
  · intro member
    have behind := (mem_drop_lowerBound keyed (v := v) sorted).mpr ⟨member, le_rfl⟩
    obtain ⟨a, rest, tail⟩ := List.exists_cons_of_ne_nil (List.ne_nil_of_mem behind)
    have here : s[lowerBound lt v s]? = some a := by rw [← List.head?_drop, tail, List.head?_cons]
    have least : key a ≤ key v := by
      have increasing : Sorted key (a :: rest) := tail ▸ sorted.sublist (List.drop_sublist _ _)
      exact increasing.head_le List.head?_cons (tail ▸ behind)
    have notAfter : ¬ lt v a = true := fun less => absurd ((keyed v a).mp less) (not_lt_of_ge least)
    simp only [find, here, if_neg notAfter, Option.isSome_some]

theorem Sorted.insert (injective : Function.Injective key) (sorted : Sorted key s) :
    Sorted key (insert lt v s).2 := by
  unfold OrderedSet.insert
  dsimp only
  split_ifs with present
  · exact sorted
  · rw [find_isSome_iff keyed injective sorted] at present
    apply List.pairwise_append.mpr
    refine ⟨sorted.sublist (List.take_sublist _ _), ?_, ?_⟩
    · refine List.pairwise_cons.mpr ⟨?_, sorted.sublist (List.drop_sublist _ _)⟩
      intro a behind
      obtain ⟨member, notLess⟩ := (mem_drop_lowerBound keyed sorted).mp behind
      refine lt_of_le_of_ne notLess fun same => present ?_
      rwa [injective same]
    · intro a front c behind
      have less := ((mem_take_lowerBound keyed sorted).mp front).2
      rcases List.mem_cons.mp behind with rfl | later
      · exact less
      · exact less.trans_le ((mem_drop_lowerBound keyed sorted).mp later).2

theorem mem_insert (injective : Function.Injective key) (sorted : Sorted key s) :
    a ∈ (OrderedSet.insert lt v s).2 ↔ a = v ∨ a ∈ s := by
  unfold OrderedSet.insert
  dsimp only
  split_ifs with present
  · rw [find_isSome_iff keyed injective sorted] at present
    refine ⟨Or.inr, ?_⟩
    rintro (rfl | member)
    · exact present
    · exact member
  · conv_rhs => rw [← List.take_append_drop (lowerBound lt v s) s]
    simp only [List.mem_append, List.mem_cons]
    tauto

/-- Erasing what `find` points at removes `v` and nothing else. -/
theorem mem_eraseIdx (injective : Function.Injective key) (sorted : Sorted key s)
    (found : find lt v s = some i) : a ∈ s.eraseIdx i ↔ a ∈ s ∧ a ≠ v := by
  have here := getElem?_of_find keyed injective found
  rw [List.mem_eraseIdx_iff_getElem?]
  constructor
  · rintro ⟨j, other, there⟩
    refine ⟨List.mem_of_getElem? there, ?_⟩
    rintro rfl
    obtain ⟨inside, _⟩ := List.getElem?_eq_some_iff.mp here
    exact other (((List.getElem?_inj inside sorted.nodup).mp (here.trans there.symm)).symm)
  · rintro ⟨member, other⟩
    obtain ⟨j, there⟩ := List.mem_iff_getElem?.mp member
    refine ⟨j, ?_, there⟩
    rintro rfl
    rw [here] at there
    exact other (Option.some.inj there).symm

end Keyed

theorem Sorted.eraseIdx (sorted : Sorted key s) : Sorted key (s.eraseIdx i) :=
  sorted.sublist (List.eraseIdx_sublist _ _)

/-- Behind the elements that share the least value there are only greater ones. -/
theorem lt_of_mem_dropWhile (value : α → κ) {least : κ} {p : α → Bool}
    (least_iff : ∀ b, p b = true ↔ value b = least) (increasing : s.Pairwise fun b c => value b ≤ value c)
    (lower : ∀ b ∈ s, least ≤ value b) (member : a ∈ s.dropWhile p) : least < value a := by
  induction s with
  | nil => cases member
  | cons x rest ih =>
    obtain ⟨first, increasing⟩ := List.pairwise_cons.mp increasing
    obtain ⟨lowerX, lower⟩ := List.forall_mem_cons.mp lower
    rw [List.dropWhile_cons] at member
    split_ifs at member with tied
    · exact ih increasing lower member
    · have greater : least < value x := lt_of_le_of_ne lowerX fun same => tied ((least_iff x).mpr same.symm)
      rcases List.mem_cons.mp member with rfl | later
      · exact greater
      · exact greater.trans_le (first a later)

theorem drop_length_takeWhile (p : α → Bool) (s : List α) :
    s.drop (s.takeWhile p).length = s.dropWhile p := by
  have cut : (s.takeWhile p ++ s.dropWhile p).drop (s.takeWhile p).length = s.dropWhile p :=
    List.drop_append_length
  rwa [List.takeWhile_append_dropWhile] at cut

/-- A prefix that satisfies `p`, and behind which nothing does, is what `p` selects. -/
theorem take_eq_filter {p : α → Bool} (front : ∀ a ∈ s.take i, p a = true)
    (back : ∀ a ∈ s.drop i, ¬ p a = true) : s.take i = s.filter p :=
  calc s.take i = (s.take i).filter p ++ (s.drop i).filter p := by
        rw [List.filter_eq_self.mpr front, List.filter_eq_nil_iff.mpr back, List.append_nil]
    _ = s.filter p := by rw [← List.filter_append, List.take_append_drop]

end Sylar.OrderedSet
