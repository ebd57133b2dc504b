import Mathlib.Data.List.Basic
import Sylar.Model.Config.FromString

/-! # What a failed `fromString` leaves behind

A listener that throws ends the loop after it and those in front of it have been told the new value, which is then not
stored.
-/

namespace Sylar.Config.Var

open ConfigVar (Notification)

variable {V : Type} [DecidableEq V] {throws : ℕ → V → V → Bool} {old_value new_value : V} {cbs : List ℕ}
  {conv : Text → Option V} {val : Text} {var : Var V}

/-! ## The loop -/

omit [DecidableEq V] in
theorem callListeners_returns : (callListeners throws old_value new_value cbs).2 = true ↔
    ∀ i ∈ cbs, throws i old_value new_value = false := by
  induction cbs with
  | nil => simp [callListeners]
  | cons i cbs ih =>
    rw [callListeners, List.forall_mem_cons]
    split
    · next thrown => simp [thrown]
    · next quiet => simp [quiet, ih]

omit [DecidableEq V] in
theorem callListeners_quiet (quiet : ∀ i ∈ cbs, throws i old_value new_value = false) :
    callListeners throws old_value new_value cbs = (cbs.map fun i => ⟨i, old_value, new_value⟩, true) := by
  induction cbs with
  | nil => rfl
  | cons i cbs ih =>
    obtain ⟨here, quiet⟩ := List.forall_mem_cons.mp quiet
    rw [callListeners, if_neg (by simp [here]), ih quiet]
    rfl

omit [DecidableEq V] in
/-- Whoever is told something is told the new value. -/
theorem callListeners_new_value {notification : Notification V}
    (called : notification ∈ (callListeners throws old_value new_value cbs).1) :
    notification.new_value = new_value := by
  induction cbs with
  | nil => cases called
  | cons i cbs ih =>
    rw [callListeners] at called
    split at called
    · rw [List.mem_singleton.mp called]
    · rcases List.mem_cons.mp called with rfl | later
      · rfl
      · exact ih later

omit [DecidableEq V] in
theorem callListeners_ne_nil (throws : ℕ → V → V → Bool) (old_value new_value : V) (nonempty : cbs ≠ []) :
    (callListeners throws old_value new_value cbs).1 ≠ [] := by
  obtain ⟨i, cbs, rfl⟩ := List.exists_cons_of_ne_nil nonempty
  rw [callListeners]
  split <;> exact List.cons_ne_nil _ _

/-! ## `fromString` -/

omit [DecidableEq V] in
/-- The last one of some calls that a listener gets. -/
def lastCall (listener : ℕ) (calls : List (Notification V)) : Option (Notification V) :=
  (calls.filter (·.listener = listener)).getLast?

/-- If the call fails, the value is as it was, and each listener whose last call by it told a new value was told the
one that is stored. -/
def FailsInvisibly (throws : ℕ → V → V → Bool) (conv : Text → Option V) (val : Text) (var : Var V) : Prop :=
  (var.fromStringThrowing throws conv val).2 = false →
    (var.fromStringThrowing throws conv val).1.val = var.val ∧
      ∃ calls, (var.fromStringThrowing throws conv val).1.notified = var.notified ++ calls ∧
        ∀ listener notification, lastCall listener calls = some notification →
          notification.new_value = (var.fromStringThrowing throws conv val).1.val

/-- Where no listener throws, `fromString` stores the value it is given. -/
theorem fromStringThrowing_quiet
    (quiet : ∀ v, conv val = some v → v ≠ var.val → ∀ i ∈ var.cbs, throws i var.val v = false) :
    var.fromStringThrowing throws conv val = (var.fromString conv val, (conv val).isSome) := by
  unfold fromStringThrowing fromString
  cases converted : conv val with
  | none => rfl
  | some v =>
    change var.setValueThrowing throws v = (var.setValue v, true)
    unfold setValueThrowing setValue
    split
    · rfl
    · next changed =>
      rw [callListeners_quiet (quiet v converted changed)]
      rfl

/-- A listener that throws stops the call behind notifications that nothing takes back. -/
theorem fromStringThrowing_thrown {v : V} (converted : conv val = some v) (changed : v ≠ var.val)
    (thrown : ∃ i ∈ var.cbs, throws i var.val v = true) : var.fromStringThrowing throws conv val =
      ({ var with notified := var.notified ++ (callListeners throws var.val v var.cbs).1 }, false) := by
  have stopped : (callListeners throws var.val v var.cbs).2 = false := by
    obtain ⟨i, listed, thrown⟩ := thrown
    apply Bool.eq_false_iff.mpr
    intro returns
    rw [callListeners_returns.mp returns i listed] at thrown
    cases thrown
  unfold fromStringThrowing
  rw [converted]
  change var.setValueThrowing throws v = _
  rw [setValueThrowing, if_neg changed]
  simp only [stopped]
  rfl

/-- A failed call is invisible exactly if it is not a listener that fails it. -/
theorem failsInvisibly_iff (throws : ℕ → V → V → Bool) (conv : Text → Option V) (val : Text) (var : Var V) :
    FailsInvisibly throws conv val var ↔
      ∀ v, conv val = some v → v ≠ var.val → ∀ i ∈ var.cbs, throws i var.val v = false := by
  constructor
  · intro invisible v converted changed i listed
    by_contra thrown
    rw [Bool.not_eq_false] at thrown
    have failed := fromStringThrowing_thrown converted changed ⟨i, listed, thrown⟩
    rw [FailsInvisibly, failed] at invisible
    obtain ⟨-, calls, told, last⟩ := invisible rfl
    obtain rfl := List.append_cancel_left told
    -- the listener that was called first has been told the value
    obtain ⟨first, others, shape⟩ :=
      List.exists_cons_of_ne_nil (callListeners_ne_nil throws var.val v (List.ne_nil_of_mem listed))
    have called : lastCall first.listener (callListeners throws var.val v var.cbs).1 ≠ none := by
      rw [lastCall, shape, List.filter_cons_of_pos (by simp)]
      simp
    obtain ⟨notification, found⟩ := Option.ne_none_iff_exists'.mp called
    have new_value := callListeners_new_value (List.mem_filter.mp (List.mem_of_getLast? found)).1
    rw [last first.listener notification found] at new_value
    exact changed new_value.symm
  · intro quiet failed
    rw [fromStringThrowing_quiet quiet] at failed ⊢
    have converted : conv val = none := Option.isSome_eq_false_iff.mp failed |> Option.isNone_iff_eq_none.mp
    have kept : var.fromString conv val = var := by
      unfold fromString
      rw [converted]
    rw [kept]
    exact ⟨rfl, [], (List.append_nil _).symm, nofun⟩

/-- The second of three listeners throws: two have been told 2, and the value is 1. -/
theorem listener_throws :
    fromStringThrowing (fun i _ _ => i = 2) (fun _ => some 2) "2".toList ⟨1, [1, 2, 3], []⟩ =
        (⟨1, [1, 2, 3], [⟨1, 1, 2⟩, ⟨2, 1, 2⟩]⟩, false) ∧
      ¬FailsInvisibly (fun i _ _ => i = 2) (fun _ => some 2) "2".toList ⟨1, [1, 2, 3], []⟩ := by
  refine ⟨rfl, fun invisible => ?_⟩
  obtain ⟨-, calls, told, last⟩ := invisible rfl
  obtain rfl : [⟨1, 1, 2⟩, ⟨2, 1, 2⟩] = calls := told
  exact absurd (last 1 ⟨1, 1, 2⟩ rfl) (by decide)

end Sylar.Config.Var
