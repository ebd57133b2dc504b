import Mathlib.Tactic.SplitIfs
import Sylar.Model.FiberSemaphore
import Sylar.ToMathlib.Counting

/-! # Permits and their order

A permit goes through the counter when nobody is queued and from hand to hand when somebody is. The books
of a run are kept by its labels: how many permits were put in and granted, who queued and who was handed
to which scheduler.
-/

namespace Sylar.FiberSemaphore

variable {s t : FiberSemaphore} {event : Event} {events later : List Event} {initial : BitVec 64}

namespace Event

/-- The call gave the caller, or the fiber it scheduled, a permit. -/
def grants : Event → Bool
  | .tryWait granted => granted
  | .wait _ _ granted => granted
  | .notify next => next.isSome

def isNotify : Event → Bool
  | .notify _ => true
  | _ => false

/-- Who was queued, with the scheduler it ran on. -/
def queues : Event → Option (SchedulerPtr × FiberPtr)
  | .wait scheduler fiber false => some (scheduler, fiber)
  | _ => none

/-- Who was handed to which scheduler. -/
def hands : Event → Option (SchedulerPtr × FiberPtr)
  | .notify next => next
  | _ => none

end Event

def granted (events : List Event) : ℕ := events.countP Event.grants
def notifies (events : List Event) : ℕ := events.countP Event.isNotify
def queued (events : List Event) : List (SchedulerPtr × FiberPtr) := events.filterMap Event.queues
def handed (events : List Event) : List (SchedulerPtr × FiberPtr) := events.filterMap Event.hands

/-! ## One critical section -/

/-- What a critical section does, with what it found. -/
inductive Acts (s : FiberSemaphore) : Event → FiberSemaphore → Prop
  | tryTake : s.concurrency > 0 → Acts s (.tryWait true) { s with concurrency := s.concurrency - 1 }
  | refuse : s.concurrency = 0 → Acts s (.tryWait false) s
  | take {scheduler : SchedulerPtr} {fiber : FiberPtr} : s.concurrency > 0 →
      Acts s (.wait scheduler fiber true) { s with concurrency := s.concurrency - 1 }
  | queue {scheduler : SchedulerPtr} {fiber : FiberPtr} : s.concurrency = 0 →
      Acts s (.wait scheduler fiber false) { s with waiters := s.waiters ++ [(scheduler, fiber)] }
  | hand {next : SchedulerPtr × FiberPtr} {waiters : List (SchedulerPtr × FiberPtr)} :
      s.waiters = next :: waiters → Acts s (.notify (some next)) { s with waiters }
  | release : s.waiters = [] → Acts s (.notify none) { s with concurrency := s.concurrency + 1 }

theorem eq_zero_of_not_pos {x : BitVec 64} (empty : ¬ x > 0) : x = 0 := by
  apply BitVec.eq_of_toNat_eq
  rw [gt_iff_lt, BitVec.lt_def] at empty
  exact Nat.eq_zero_of_not_pos empty

theorem acts_of_step (step : machine.Step s event t) : Acts s event t := by
  cases event with
  | tryWait granted =>
    have ran : s.tryWait = (granted, t) := step
    unfold tryWait at ran
    split_ifs at ran with free
    · cases ran
      exact .tryTake free
    · cases ran
      exact .refuse (eq_zero_of_not_pos free)
  | wait scheduler fiber granted =>
    have ran : s.wait scheduler fiber = (granted, t) := step
    unfold wait at ran
    split_ifs at ran with free
    · cases ran
      exact .take free
    · cases ran
      exact .queue (eq_zero_of_not_pos free)
  | notify next =>
    have ran : s.notify = (next, t) := step
    unfold notify at ran
    split at ran
    · next first rest waiting =>
      cases ran
      exact .hand waiting
    · next nobody =>
      cases ran
      exact .release nobody

namespace Acts

/-- Nobody is queued while permits are free, and nobody overtakes who is. -/
theorem exclusive (acts : Acts s event t) (before : s.concurrency > 0 → s.waiters = []) :
    t.concurrency > 0 → t.waiters = [] := by
  intro free
  cases acts with
  | tryTake was => exact before was
  | refuse _ => exact before free
  | take was => exact before was
  | queue empty =>
    rw [empty] at free
    cases free
  | hand waiting =>
    rw [before free] at waiting
    cases waiting
  | release nobody => exact nobody

/-- The counter and the permit granted take up what was there and what was put in. -/
theorem balance (acts : Acts s event t) : ∃ wraps, s.concurrency.toNat + event.isNotify.toNat =
    t.concurrency.toNat + event.grants.toNat + 2 ^ 64 * wraps := by
  have taken (free : s.concurrency > 0) : s.concurrency.toNat = (s.concurrency - 1).toNat + 1 := by
    rw [gt_iff_lt, BitVec.lt_def] at free
    bv_omega
  cases acts with
  | tryTake free => exact ⟨0, taken free⟩
  | refuse _ => exact ⟨0, rfl⟩
  | take free => exact ⟨0, taken free⟩
  | queue _ => exact ⟨0, rfl⟩
  | hand _ => exact ⟨0, rfl⟩
  | release _ =>
    refine ⟨(s.concurrency.toNat + 1) / 2 ^ 64, ?_⟩
    change s.concurrency.toNat + 1 = (s.concurrency + 1).toNat + 0 + _
    rw [BitVec.toNat_add, Nat.add_zero]
    exact (Nat.mod_add_div _ _).symm

/-- Who is queued goes behind those that wait, and who is handed over comes from their front. -/
theorem order (acts : Acts s event t) :
    s.waiters ++ event.queues.toList = event.hands.toList ++ t.waiters := by
  cases acts with
  | tryTake _ => exact List.append_nil _
  | refuse _ => exact List.append_nil _
  | take _ => exact List.append_nil _
  | queue _ => rfl
  | hand waiting => exact (List.append_nil _).trans waiting
  | release _ => exact List.append_nil _

/-- A `notify` that finds somebody waiting hands somebody over. -/
theorem hands_first (acts : Acts s event t) :
    min event.isNotify.toNat s.waiters.length ≤ event.hands.toList.length := by
  cases acts with
  | hand _ => exact Nat.min_le_left _ _
  | release nobody =>
    rw [nobody]
    exact Nat.min_le_right _ _
  | _ => exact Nat.min_le_left _ _

end Acts

/-! ## A whole run -/

/-- The counter of the end accounts for the permits put in and granted on the way. -/
theorem balance_of_path (path : machine.Path s events t) : ∃ wraps,
    s.concurrency.toNat + notifies events = t.concurrency.toNat + granted events + 2 ^ 64 * wraps := by
  induction path with
  | nil => exact ⟨0, rfl⟩
  | cons step _ ih =>
    obtain ⟨first, balanced⟩ := (acts_of_step step).balance
    obtain ⟨rest, balance⟩ := ih
    refine ⟨first + rest, ?_⟩
    rw [notifies, granted, List.countP_cons_toNat, List.countP_cons_toNat, Nat.mul_add]
    rw [notifies, granted] at balance
    omega

/-- Whoever waits at the start or queues on the way is handed over in this order, or waits at the end. -/
theorem order_of_path (path : machine.Path s events t) :
    s.waiters ++ queued events = handed events ++ t.waiters := by
  induction path with
  | nil => exact List.append_nil _
  | @cons s mid t event events step _ ih =>
    calc s.waiters ++ queued (event :: events)
        = (s.waiters ++ event.queues.toList) ++ queued events := by
          rw [queued, List.filterMap_cons_toList, List.append_assoc, queued]
      _ = event.hands.toList ++ (mid.waiters ++ queued events) := by
          rw [(acts_of_step step).order, List.append_assoc]
      _ = handed (event :: events) ++ t.waiters := by
          rw [ih, handed, handed, List.filterMap_cons_toList, List.append_assoc]

/-- Every `notify` hands over one of those that wait, as long as there are any. -/
theorem handed_of_path (path : machine.Path s events t) :
    min (notifies events) s.waiters.length ≤ (handed events).length := by
  induction path with
  | nil => exact Nat.min_le_left _ _
  | @cons s mid t event events step _ ih =>
    have acts := acts_of_step step
    have first := acts.hands_first
    have order := congrArg List.length acts.order
    have single : event.isNotify.toNat ≤ 1 := Bool.toNat_le _
    rw [List.length_append, List.length_append] at order
    rw [notifies, handed, List.countP_cons_toNat, List.filterMap_cons_toList, List.length_append]
    rw [notifies, handed] at ih
    omega

theorem exclusive_of_path (path : machine.Path s events t) (before : s.concurrency > 0 → s.waiters = []) :
    t.concurrency > 0 → t.waiters = [] :=
  path.preserves (P := fun s => s.concurrency > 0 → s.waiters = [])
    (fun _ _ _ before step => (acts_of_step step).exclusive before) before

theorem handed_append : handed (events ++ later) = handed events ++ handed later := List.filterMap_append

/-- Everybody queued so far has been handed over, in this order, once as many `notify` calls have come as
are waiting. -/
theorem prefix_handed (path : machine.Path s later t) (order : queued events = handed events ++ s.waiters)
    (enough : s.waiters.length ≤ notifies later) : queued events <+: handed (events ++ later) := by
  have served := handed_of_path path
  rw [Nat.min_eq_right enough] at served
  have waiting : s.waiters <+: handed later := by
    refine List.prefix_of_prefix_length_le (List.prefix_append _ (queued later)) ?_ served
    rw [order_of_path path]
    exact List.prefix_append _ _
  rw [order, handed_append]
  exact (List.prefix_append_right_inj _).mpr waiting

/-- In every run a permit is free only if nobody waits, the counter holds what was put in and not granted,
as a `size_t`, and whoever queued is handed to the scheduler it ran on, exactly once and in turn. -/
theorem permits_conserved (path : machine.Path (new initial) events s) :
    (s.concurrency > 0 → s.waiters = []) ∧
    granted events ≤ initial.toNat + notifies events ∧
    s.concurrency.toNat = (initial.toNat + notifies events - granted events) % 2 ^ 64 ∧
    (initial.toNat + notifies events = s.concurrency.toNat + granted events ↔
      initial.toNat + notifies events - granted events < 2 ^ 64) ∧
    queued events = handed events ++ s.waiters ∧
    ∀ later t, machine.Path s later t → s.waiters.length ≤ notifies later →
      queued events <+: handed (events ++ later) := by
  obtain ⟨wraps, balance⟩ := balance_of_path path
  have order : queued events = handed events ++ s.waiters := order_of_path path
  have bound := s.concurrency.isLt
  change initial.toNat + _ = _ at balance
  refine ⟨exclusive_of_path path fun _ => rfl, by omega, by omega, by omega, order, ?_⟩
  exact fun later t path enough => prefix_handed path order enough

/-- With one permit, three fibers of different schedulers wait, and the second is handed to its own. The
third will be as soon as another permit is put in. -/
theorem permits_conserved_three : ∃ s, machine.Path (new 1)
    [.wait 0 7 true, .wait 1 8 false, .wait 2 9 false, .notify (some (1, 8))] s ∧ s.waiters = [(2, 9)] ∧
    ∀ later t, machine.Path s later t → 1 ≤ notifies later → [(1, 8), (2, 9)] <+: handed
      ([.wait 0 7 true, .wait 1 8 false, .wait 2 9 false, .notify (some (1, 8))] ++ later) := by
  have path : machine.Path (new 1)
      [.wait 0 7 true, .wait 1 8 false, .wait 2 9 false, .notify (some (1, 8))] ⟨0, [(2, 9)]⟩ :=
    .cons rfl <| .cons rfl <| .cons rfl <| .cons rfl <| .nil _
  exact ⟨_, path, rfl, (permits_conserved path).2.2.2.2.2⟩

/-- A `notify` on a full counter makes it zero, and nobody has been granted a permit. -/
theorem permits_overflow : ∃ s, machine.Path (new (-1)) [.notify none] s ∧ s.concurrency = 0 ∧
    granted [.notify none] = 0 ∧
    (-1 : BitVec 64).toNat + notifies [.notify none] ≠ s.concurrency.toNat + granted [.notify none] := by
  have path : machine.Path (new (-1)) [.notify none] ⟨0, []⟩ := .cons rfl (.nil _)
  exact ⟨_, path, rfl, rfl, by decide⟩

end Sylar.FiberSemaphore
