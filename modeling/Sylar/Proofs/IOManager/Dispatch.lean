import Sylar.Proofs.IOManager.Effects

/-! # When a dispatch triggers exactly what is registered and reported

`idle` compares a report with the registered events only to see whether they meet; it then triggers
every reported event. Two kinds of report name an event that is not registered: one that an error or a
hang-up has widened to both events, and one that has been overtaken by a cancellation. Unless the report
and the registered events are disjoint, such an event fails the assertion of `triggerEvent`, and an event
that was added outside of any scheduler has none to go back to.
-/

namespace Sylar.IOManager

variable {m t : IOManager} {fd : ℕ} {event : Event}

/-- The event's bit is set in the mask of the descriptor. -/
def IsRegistered (m : IOManager) (fd : ℕ) (event : Event) : Prop :=
  (m.context fd).events &&& event.bit ≠ 0#32

/-- The event was added by a thread with a scheduler. -/
def HasScheduler (m : IOManager) (fd : ℕ) (event : Event) : Prop :=
  ((m.context fd).getContext event).scheduler.isSome = true

/-- The report names the event, or an error or hang-up, which stands for every event. -/
def IsReported (report : BitVec 32) (event : Event) : Prop :=
  report &&& event.bit ≠ 0#32 ∨ report &&& (EPOLLERR ||| EPOLLHUP) ≠ 0#32

instance : DecidablePred (IsRegistered m fd) := fun _ => inferInstanceAs (Decidable (_ ≠ _))

instance : DecidablePred (HasScheduler m fd) := fun _ => inferInstanceAs (Decidable (_ = _))

instance {report : BitVec 32} : DecidablePred (IsReported report) :=
  fun _ => inferInstanceAs (Decidable (_ ∨ _))

/-- What `epoll_wait` can report for a descriptor: events it is watched for, errors and hang-ups. -/
def Deliverable (m : IOManager) (fd : ℕ) (report : BitVec 32) : Prop :=
  ∃ watched, m.epoll fd = some watched ∧ report ≠ 0#32 ∧
    report &&& ~~~(watched &&& (READ ||| WRITE) ||| (EPOLLERR ||| EPOLLHUP)) = 0#32

/-- The events a dispatch should trigger. -/
def due (m : IOManager) (fd : ℕ) (report : BitVec 32) : List Event :=
  Event.all.filter fun event => IsRegistered m fd event ∧ IsReported report event

/-- The dispatch completes, hands over the registrations of exactly the events that are registered and
reported, in order, leaves exactly the others registered, and counts one less for each. -/
def DispatchesDue (m : IOManager) (fd : ℕ) (report : BitVec 32) (granted : Bool) : Prop :=
  ∃ result t, m.dispatch fd report granted = .ok (result, t) ∧
    t.scheduled.map owned = m.scheduled.map owned ++ (m.due fd report).filterMap (m.slot fd) ∧
    (∀ event, IsRegistered t fd event ↔ IsRegistered m fd event ∧ ¬ IsReported report event) ∧
    t.pendingEventCount + (m.due fd report).length = m.pendingEventCount

theorem Consistent.isRegistered_iff (consistent : Consistent m) :
    IsRegistered m fd event ↔ m.registered fd event = true := by
  rw [IsRegistered, consistent.core.events, ne_eq, mask_and_bit, Bool.not_eq_false]

theorem Consistent.ready_iff (consistent : Consistent m) :
    m.Ready fd event ↔ IsRegistered m fd event ∧ HasScheduler m fd event := by
  rw [consistent.isRegistered_iff, registered, Ready, slot, HasScheduler]
  rcases (m.context fd).getContext event with ⟨_ | scheduler, _ | fiber, _ | cb⟩ <;>
    simp [EventContext.handoff]

theorem isReported_iff {report : BitVec 32} : IsReported report event ↔ reported report event = true :=
  decide_eq_true_iff.symm

/-- An event is due if its bit is set on both sides. -/
theorem Consistent.due_eq (consistent : Consistent m) (report : BitVec 32) :
    m.due fd report = Event.all.filter fun event => m.registered fd event && reported report event := by
  apply List.filter_congr
  intro event _
  simp only [isReported_iff, consistent.isRegistered_iff, Bool.decide_and, Bool.decide_eq_true]

/-- Handing over the reported registrations is handing over those that are due. -/
theorem Consistent.released_due (consistent : Consistent m) (report : BitVec 32) :
    released (reported report) (m.slot fd) = (m.due fd report).filterMap (m.slot fd) := by
  rw [consistent.due_eq, released, List.filterMap_filter, List.filterMap_eq_flatMap_toList]
  congr 1
  funext event
  rw [registered]
  cases m.slot fd event <;> cases reported report event <;> rfl

/-- The events of a set are those outside another set and those inside it. -/
theorem countP_split (p q : Event → Bool) :
    (Event.all.countP fun event => p event && !q event) +
      (Event.all.filter fun event => p event && q event).length = Event.all.countP p := by
  have table : ∀ r w r' w' : Bool,
      (if w && !w' then 1 else 0) + (if r && !r' then 1 else 0) +
        ((if w && w' then 1 else 0) + if r && r' then 1 else 0) =
      (if w then 1 else 0) + (if r then 1 else 0) := by decide
  rw [← List.countP_eq_length_filter]
  simp only [Event.all, List.countP_cons, List.countP_nil, Nat.zero_add]
  exact table _ _ _ _

/-- Resetting the reported slots and handing them over is all a dispatch should do. -/
theorem Moves.dispatchesDue (consistent : Consistent m) {report : BitVec 32} {result : Bool}
    (ran : m.dispatch fd report granted = .ok (result, t))
    (moves : Moves m fd (reset (reported report) (m.slot fd)) (released (reported report) (m.slot fd)) t) :
    DispatchesDue m fd report granted := by
  have left (event : Event) : (reset (reported report) (m.slot fd) event).isSome =
      (m.registered fd event && !reported report event) := by
    rw [reset, registered]
    cases reported report event <;> simp
  refine ⟨result, t, ran, ?_, ?_, ?_⟩
  · rw [moves.scheduled, consistent.released_due]
  · intro event
    rw [moves.consistent.isRegistered_iff, consistent.isRegistered_iff, isReported_iff, registered,
      moves.here, left, Bool.and_eq_true, Bool.not_eq_true', Bool.not_eq_true]
  · have counted := moves.pending consistent.core
    simp only [left] at counted
    have split := countP_split (m.registered fd) (reported report)
    rw [consistent.due_eq]
    omega

/-- If no registered event is reported, there is nothing to reset and nothing to hand over. -/
theorem Consistent.moves_self (consistent : Consistent m) {report : BitVec 32}
    (disjoint : ∀ event, m.registered fd event = true → reported report event = false) :
    Moves m fd (reset (reported report) (m.slot fd)) (released (reported report) (m.slot fd)) m where
  consistent := consistent
  here := by
    funext event
    rw [reset]
    split_ifs with hit
    · have free : m.registered fd event = false := by
        by_contra set
        rw [disjoint event (Bool.eq_true_of_not_eq_false set)] at hit
        cases hit
      simpa [registered] using free
    · rfl
  elsewhere := fun _ _ => rfl
  scheduled := by
    have nothing : m.due fd report = [] := by
      rw [consistent.due_eq, List.filter_eq_nil_iff]
      rintro event - both
      obtain ⟨set, hit⟩ := Bool.and_eq_true_iff.mp both
      rw [disjoint event set] at hit
      cases hit
    rw [consistent.released_due, nothing, List.filterMap_nil, List.append_nil]

/-- A dispatch triggers exactly the events that are registered and reported if and only if the report
meets none of the registered events or names registered events only, all of them with a scheduler. -/
theorem dispatch_iff (m : IOManager) (reached : machine.Reachable m) (fd : ℕ) (report : BitVec 32) :
    DispatchesDue m fd report true ↔
      (∀ event, IsRegistered m fd event → ¬ IsReported report event) ∨
        ∀ event, IsReported report event → IsRegistered m fd event ∧ HasScheduler m fd event := by
  have consistent := reachable_consistent reached
  simp only [← consistent.ready_iff]
  simp only [consistent.isRegistered_iff, isReported_iff, Bool.not_eq_true]
  constructor
  · rintro ⟨result, t, ran, -⟩
    by_contra neither
    push Not at neither
    obtain ⟨⟨event, set, hit⟩, unready⟩ := neither
    obtain ⟨fault, failed⟩ :=
      consistent.dispatch_uncovered ⟨set, Bool.eq_true_of_not_eq_false hit⟩ unready
    rw [failed] at ran
    cases ran
  · intro clean
    by_cases disjoint : ∀ event, m.registered fd event = true → reported report event = false
    · exact (consistent.moves_self disjoint).dispatchesDue consistent (consistent.dispatch_disjoint disjoint)
    · have covered := clean.resolve_left disjoint
      push Not at disjoint
      obtain ⟨event, set, hit⟩ := disjoint
      obtain ⟨t, ran, moves⟩ :=
        consistent.dispatch_covered ⟨set, Bool.eq_true_of_not_eq_false hit⟩ covered
      exact moves.dispatchesDue consistent ran

/-- A report of input alone triggers the reader. -/
theorem dispatch_iff_input : DispatchesDue oneReader 5 EPOLLIN true :=
  (dispatch_iff oneReader oneReader_reachable.of_restrict 5 EPOLLIN).mpr
    (.inr fun event hit => by cases event <;> revert hit <;> decide)

/-- A hang-up, which the kernel reports unasked, fails the assertion on the writer that is not there. -/
theorem dispatch_hangup_aborts : machine.Reachable oneReader ∧ Deliverable oneReader 5 EPOLLHUP ∧
    oneReader.dispatch 5 EPOLLHUP true = .error .assertion ∧
    ¬ DispatchesDue oneReader 5 EPOLLHUP true := by
  have aborts : oneReader.dispatch 5 EPOLLHUP true = .error .assertion := rfl
  refine ⟨oneReader_reachable.of_restrict, ⟨EPOLLET ||| READ, rfl, by decide, by decide⟩, aborts, ?_⟩
  rintro ⟨result, t, ran, -⟩
  rw [aborts] at ran
  cases ran

end Sylar.IOManager
