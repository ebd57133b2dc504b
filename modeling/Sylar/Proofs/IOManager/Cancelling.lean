import Sylar.Proofs.IOManager.Effects

/-! # What a cancellation leaves

`cancelEvent` and `cancelAll` fail only if there is nothing to cancel or the kernel refuses its `epoll_ctl`, so that
nothing is registered behind one that is granted. `cancelAll` hands over all there was.
-/

namespace Sylar.IOManager

variable {m t : IOManager} {fd : ℕ} {event : Event} {result : Bool}

/-- A function other than `addEvent` leaves an empty slot empty. -/
theorem Effect.free {label : Request × Bool} (effect : Effect m label t)
    (elsewhere : ∀ other cb caller granted, label.1 ≠ .addEvent fd other cb caller granted)
    (free : m.slot fd event = none) : t.slot fd event = none := by
  have left {q : Event → Bool} {number : ℕ} {out : List Handoff}
      (moves : Moves m number (reset q (m.slot number)) out t) : t.slot fd event = none := by
    rcases eq_or_ne fd number with rfl | different
    · rw [moves.here, reset, free, ite_self]
    · rw [moves.elsewhere fd different, free]
  cases effect with
  | refused unchanged _ => rw [slot, unchanged.context, ← slot, free]
  | @added number other cb caller granted _ _ moves =>
    have different : fd ≠ number := by
      rintro rfl
      exact elsewhere other cb caller granted rfl
    rw [moves.elsewhere fd different, free]
  | deleted _ moves => exact left moves
  | cancelled _ moves => exact left moves
  | cancelledAll _ moves => exact left moves
  | dispatched _ moves => exact left moves

/-- A sequence that completes has completed its first part. -/
theorem ok_of_bind {α β ε : Type} {x : Except ε α} {f : α → Except ε β} {b : β} (ran : x >>= f = .ok b) :
    ∃ a, x = .ok a ∧ f a = .ok b := by
  cases x with
  | error fault => cases ran
  | ok a => exact ⟨a, rfl, ran⟩

/-- Every registration of an owned table can be triggered. -/
theorem Owned.ready (owned : Owned m) (set : m.registered fd event = true) : m.Ready fd event := by
  obtain ⟨⟨scheduler, task⟩, held⟩ := Option.isSome_iff_exists.mp set
  obtain ⟨owner, rfl⟩ := Option.isSome_iff_exists.mp (owned fd event _ held)
  exact ⟨owner, task, held⟩

/-- `cancelEvent` that the kernel refuses changes nothing. -/
theorem cancelEvent_refused (m : IOManager) (fd : ℕ) (event : Event) :
    m.cancelEvent fd event false = .ok (false, m) := by
  unfold IOManager.cancelEvent
  dsimp only
  split_ifs <;> rfl

namespace Consistent

theorem free_of_zero (consistent : Consistent m) (zero : (m.context fd).events = 0#32) (event : Event) :
    m.slot fd event = none := by
  rw [consistent.core.events, mask_eq_zero] at zero
  exact Option.not_isSome_iff_eq_none.mp (Bool.eq_false_iff.mp (zero event))

theorem epollCtl_del (consistent : Consistent m) (used : (m.context fd).events ≠ 0#32) :
    epollCtl .del fd 0#32 true m.epoll = some (Function.update m.epoll fd none) := by
  have present : (m.epoll fd).isSome := by
    rw [consistent.epoll, interest, if_neg used]
    rfl
  rw [epollCtl, present]
  rfl

/-- Behind `cancelEvent` the event is not registered. -/
theorem cancelEvent_clears (consistent : Consistent m) (ran : m.cancelEvent fd event true = .ok (result, t)) :
    t.slot fd event = none := by
  cases result with
  | true =>
    cases consistent.cancelEvent ran with
    | cancelled _ moves => rw [moves.here, reset, beq_self_eq_true, if_pos rfl]
  | false =>
    unfold IOManager.cancelEvent at ran
    dsimp only at ran
    split at ran
    next past =>
      cases ran
      exact consistent.core.outside fd past event
    split at ran
    next unset =>
      cases ran
      exact Option.not_isSome_iff_eq_none.mp (Bool.eq_false_iff.mp (consistent.unregistered unset))
    next set =>
      obtain ⟨handoff, -, ctl⟩ := consistent.consumes set true
      rw [ctl] at ran
      obtain ⟨_, -, ended⟩ := ok_of_bind ran
      cases ended

/-- `addEvent` of a fiber that is running completes where the event is not registered, and fails only if the kernel
refuses. -/
theorem addEvent_completes (consistent : Consistent m) (free : m.slot fd event = none) (scheduler : Option SchedulerPtr)
    (fiber : FiberPtr) (granted : Bool) :
    ∃ t, m.addEvent fd event none ⟨scheduler, fiber, true⟩ granted = .ok (granted, t) := by
  have inside (m : IOManager) (consistent : Consistent m) (free : m.slot fd event = none) (room : m.size > fd) :
      ∃ t, m.addEvent fd event none ⟨scheduler, fiber, true⟩ granted = .ok (granted, t) := by
    have unset : ¬ (m.context fd).events &&& event.bit ≠ 0#32 := by
      rw [consistent.core.events, ne_eq, mask_and_bit, registered, free]
      exact not_not.mpr rfl
    have blank : ¬ FdContext.getContext
        { m.context fd with events := (m.context fd).events ||| event.bit } event ≠ {} :=
      not_not.mpr ((getContext_events _ _ event).trans (consistent.core.empty fd event free))
    unfold IOManager.addEvent
    dsimp only
    rw [if_pos room, if_neg unset, epollCtl_grow (consistent.epoll fd)]
    cases granted with
    | false => exact ⟨_, rfl⟩
    | true => exact ⟨_, if_neg blank⟩
  by_cases room : m.size > fd
  · exact inside m consistent free room
  · have size := consistent.core.size
    obtain ⟨resized, core⟩ := consistent.core.contextResize (show m.size ≤ fd * 3 / 2 by omega)
    have larger : ({ m with size := fd * 3 / 2 } : IOManager).size > fd := show fd < fd * 3 / 2 by omega
    obtain ⟨t, ran⟩ := inside { m with size := fd * 3 / 2 } ⟨core, consistent.epoll⟩ free larger
    refine ⟨t, ?_⟩
    unfold IOManager.addEvent at ran ⊢
    rw [if_pos larger] at ran
    rwa [if_neg room, resized]

/-- `cancelAll` fails only if there is nothing to cancel, or the kernel refuses. -/
theorem cancelAll_failed (consistent : Consistent m) (ran : m.cancelAll fd true = .ok (false, t)) :
    t = m ∧ ∀ event, m.slot fd event = none := by
  unfold IOManager.cancelAll at ran
  split at ran
  next past =>
    cases ran
    exact ⟨rfl, consistent.core.outside fd past⟩
  split at ran
  next unused =>
    cases ran
    exact ⟨rfl, consistent.free_of_zero unused⟩
  next used =>
    rw [consistent.epollCtl_del used] at ran
    obtain ⟨_, -, ran⟩ := ok_of_bind ran
    obtain ⟨_, -, ran⟩ := ok_of_bind ran
    split at ran <;> cases ran

/-- Behind `cancelAll` nothing is registered. -/
theorem cancelAll_clears (consistent : Consistent m) (ran : m.cancelAll fd true = .ok (result, t)) (event : Event) :
    t.slot fd event = none := by
  cases result with
  | false =>
    obtain ⟨rfl, free⟩ := consistent.cancelAll_failed ran
    exact free event
  | true =>
    cases consistent.cancelAll ran with
    | cancelledAll _ moves =>
      rw [moves.here, reset, registered]
      cases m.slot fd event <;> rfl

end Consistent

end Sylar.IOManager
