import Sylar.Model.HookedIo
import Sylar.Proofs.IOManager.Effects

/-! # What a change of the `IOManager` does to the fibers that wait

Whatever cancels or dispatches events takes some slots and schedules what they held. Seen from one fiber, which has
one slot at most, either its slot is left and it is scheduled as often as before, or its slot is taken and it is scheduled
once more.
-/

namespace Sylar.HookedIo

open IOManager (Event Handoff Consistent Effect Moves)

variable {m t : IOManager} {fd : ℕ} {event : Event} {fiber : FiberPtr} {q : Event → Bool}

/-- The fiber waits for the event. -/
def Holds (m : IOManager) (fd : ℕ) (event : Event) (fiber : FiberPtr) : Prop :=
  (m.slot fd event).map Prod.snd = some (.fiber fiber)

instance (m : IOManager) (fd : ℕ) (event : Event) (fiber : FiberPtr) : Decidable (Holds m fd event fiber) :=
  inferInstanceAs (Decidable (_ = _))

/-- Slots are kept or emptied, and a fiber that loses its only slot is scheduled for it. -/
structure Loses (m t : IOManager) : Prop where
  slots : ∀ fd event, t.slot fd event = m.slot fd event ∨ t.slot fd event = none
  kept : ∀ fiber, (∀ fd event, Holds m fd event fiber → Holds t fd event fiber) → queued t fiber = queued m fiber
  taken : ∀ fiber fd event, Holds m fd event fiber → (∀ fd' event', Holds m fd' event' fiber → fd' = fd ∧ event' = event) →
    t.slot fd event = none → queued t fiber = queued m fiber + 1

/-- How often a fiber is among the tasks of a list. -/
def named (fiber : FiberPtr) (out : List Handoff) : ℕ := (out.map Prod.snd).count (.fiber fiber)

theorem named_owned (m : IOManager) (fiber : FiberPtr) : named fiber (m.scheduled.map IOManager.owned) = queued m fiber := by
  rw [named, queued, List.map_map]
  rfl

theorem named_append (fiber : FiberPtr) (first second : List Handoff) :
    named fiber (first ++ second) = named fiber first + named fiber second := by
  rw [named, List.map_append, List.count_append]
  rfl

/-- How often it is named by a slot. -/
theorem named_slot (m : IOManager) (fd : ℕ) (event : Event) (fiber : FiberPtr) :
    named fiber (m.slot fd event).toList = if Holds m fd event fiber then 1 else 0 := by
  have holds : Holds m fd event fiber ↔ (m.slot fd event).map Prod.snd = some (.fiber fiber) := Iff.rfl
  simp only [holds]
  cases m.slot fd event with
  | none => rfl
  | some handoff =>
    simp only [named, Option.toList_some, List.map_cons, List.map_nil, List.count_singleton, Option.map_some,
      Option.some.injEq, beq_iff_eq]

/-- How often it is named by the slots of a set of events. -/
theorem named_released (m : IOManager) (fd : ℕ) (q : Event → Bool) (fiber : FiberPtr) :
    named fiber (IOManager.released q (m.slot fd)) =
      IOManager.Event.all.countP fun event => q event && decide (Holds m fd event fiber) := by
  have one (event : Event) : named fiber (if q event then (m.slot fd event).toList else []) =
      if (q event && decide (Holds m fd event fiber)) = true then 1 else 0 := by
    cases q event with
    | false => rfl
    | true => simpa only [if_pos, Bool.true_and, decide_eq_true_eq] using named_slot m fd event fiber
  rw [IOManager.released, IOManager.Event.all, List.flatMap_cons, List.flatMap_cons, List.flatMap_nil, List.append_nil,
    named_append, one, one, List.countP_cons, List.countP_cons, List.countP_nil, Nat.zero_add, Nat.add_comm]

theorem queued_of_moves {slots : Event → Option Handoff} {out : List Handoff} (moves : Moves m fd slots out t)
    (fiber : FiberPtr) : queued t fiber = queued m fiber + named fiber out := by
  rw [← named_owned, ← named_owned, moves.scheduled, named_append]

namespace Loses

theorem refl (m : IOManager) : Loses m m where
  slots _ _ := .inl rfl
  kept _ _ := rfl
  taken _ fd event holds _ none := by
    rw [Holds, none] at holds
    cases holds

theorem of_unchanged (unchanged : IOManager.Unchanged m t) : Loses m t := by
  have slots : t.slot = m.slot := by
    funext fd event
    rw [IOManager.slot, unchanged.context, IOManager.slot]
  have same (fiber : FiberPtr) : queued t fiber = queued m fiber := by rw [queued, unchanged.scheduled, queued]
  refine ⟨fun fd event => .inl (by rw [slots]), fun fiber _ => same fiber, ?_⟩
  intro fiber fd event holds _ none
  rw [slots] at none
  rw [Holds, none] at holds
  cases holds

/-- A set of events is triggered. -/
theorem of_trigger (moves : Moves m fd (IOManager.reset q (m.slot fd)) (IOManager.released q (m.slot fd)) t) :
    Loses m t where
  slots other event := by
    rcases eq_or_ne other fd with rfl | different
    · rw [moves.here, IOManager.reset]
      cases q event with
      | true => exact .inr rfl
      | false => exact .inl rfl
    · exact .inl (by rw [moves.elsewhere other different])
  kept fiber holds := by
    rw [queued_of_moves moves, named_released, List.countP_eq_zero.mpr, Nat.add_zero]
    intro event _ both
    obtain ⟨taken, here⟩ := Bool.and_eq_true_iff.mp both
    have after := holds fd event (of_decide_eq_true here)
    rw [Holds, moves.here, IOManager.reset, if_pos taken] at after
    cases after
  taken fiber other event holds only none := by
    have here : other = fd := by
      by_contra different
      rw [moves.elsewhere other different] at none
      rw [Holds, none] at holds
      cases holds
    subst here
    have triggered : q event = true := by
      by_contra untouched
      rw [moves.here, IOManager.reset, if_neg untouched] at none
      rw [Holds, none] at holds
      cases holds
    rw [queued_of_moves moves, named_released]
    congr 1
    have same : (fun event => q event && decide (Holds m other event fiber)) = fun event' => event' == event := by
      funext event'
      rcases eq_or_ne event' event with rfl | different
      · rw [triggered, decide_eq_true holds, beq_self_eq_true, Bool.and_true]
      · have free : ¬ Holds m other event' fiber := fun also => different (only other event' also).2
        rw [decide_eq_false free, Bool.and_false, beq_false_of_ne different]
    rw [same]
    cases event <;> rfl

/-- Whatever was registered there held no fiber. -/
theorem of_delete (moves : Moves m fd (IOManager.reset q (m.slot fd)) [] t)
    (free : ∀ event fiber, q event = true → ¬ Holds m fd event fiber) : Loses m t where
  slots other event := by
    rcases eq_or_ne other fd with rfl | different
    · rw [moves.here, IOManager.reset]
      cases q event with
      | true => exact .inr rfl
      | false => exact .inl rfl
    · exact .inl (by rw [moves.elsewhere other different])
  kept fiber _ := queued_of_moves moves fiber
  taken fiber other event holds _ none := by
    rcases eq_or_ne other fd with rfl | different
    · rw [moves.here, IOManager.reset] at none
      split_ifs at none with taken
      · exact absurd holds (free event fiber taken)
      · rw [Holds, none] at holds
        cases holds
    · rw [moves.elsewhere other different] at none
      rw [Holds, none] at holds
      cases holds

end Loses

/-- Of the functions that complete only `addEvent` does more than take slots, and `delEvent` schedules nobody. -/
theorem loses_of_effect {r : IOManager.Request} {result : Bool} (effect : Effect m (r, result) t)
    (added : ∀ fd event cb caller granted, r ≠ .addEvent fd event cb caller granted)
    (deleted : ∀ fd event granted, r = .delEvent fd event granted → ∀ fiber, ¬ Holds m fd event fiber) : Loses m t := by
  cases effect with
  | refused unchanged _ => exact .of_unchanged unchanged
  | @added fd event cb caller granted _ _ => exact absurd rfl (added fd event cb caller granted)
  | @deleted fd event granted _ _ moves =>
    apply Loses.of_delete moves
    intro other fiber same
    obtain rfl := beq_iff_eq.mp same
    exact deleted fd other granted rfl fiber
  | cancelled _ moves => exact .of_trigger moves
  | cancelledAll _ moves => exact .of_trigger moves
  | dispatched _ moves => exact .of_trigger moves

end Sylar.HookedIo
