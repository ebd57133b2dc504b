import Mathlib.Data.List.TakeWhile
import Sylar.Proofs.Timer.Effects

/-! # When `listExpiredCb` may look at the front of the set

Between its emptiness check and its locked part a thread relies on the set staying non-empty. Only two
critical sections can empty the set: cancelling its only timer, and expiring all of them when none
recurs. If neither happens while another thread is between the two, no thread reads `begin()` of an
empty set; if one does, the very next step of that thread may.
-/

namespace Sylar.TimerManager

variable {m : TimerManager} {now : BitVec 64} {probe a : TimerPtr}

/-! ## What the locked part removes -/

/-- A probe that is in no use does not disturb the order. -/
theorem Ordered.sorted_probe (ordered : Ordered m) (fresh : m.live probe = false) (now : BitVec 64) :
    probe ∉ m.timers ∧
      OrderedSet.Sorted (Timer.key (Function.update m.heap probe (Timer.probe now))) m.timers := by
  have absent : probe ∉ m.timers := fun member => by simp [ordered.live probe member] at fresh
  refine ⟨absent, ordered.sorted.congr fun b member => ?_⟩
  exact Timer.key_update m.heap probe _ (Or.inl (ne_of_mem_of_not_mem member absent))

/-- The timers in front of the end iterator are due. -/
theorem Ordered.due (ordered : Ordered m) (fresh : m.live probe = false)
    (expired : a ∈ m.timers.take (m.expiredEnd false now probe)) : (m.heap a).next ≤ now := by
  obtain ⟨absent, sorted⟩ := ordered.sorted_probe fresh now
  unfold expiredEnd at expired
  dsimp only at expired
  rw [if_neg Bool.false_ne_true, List.take_add, List.mem_append] at expired
  rcases expired with before | tied
  · obtain ⟨member, less⟩ := (OrderedSet.mem_take_lowerBound (Timer.before_iff _) sorted).mp before
    have other : a ≠ probe := ne_of_mem_of_not_mem member absent
    rw [Timer.key_lt_iff, Function.update_of_ne other, Function.update_self] at less
    rcases less with earlier | ⟨same, _⟩
    · exact BitVec.le_of_lt earlier
    · exact BitVec.le_of_eq same
  · rw [← List.prefix_iff_eq_take.mp (List.takeWhile_prefix _)] at tied
    have same := List.mem_takeWhile_imp tied
    exact BitVec.le_of_eq (by simpa using same)

theorem insert_timers_ne_nil (m : TimerManager) (val : TimerPtr) : (m.insert val).2.timers ≠ [] := by
  unfold insert OrderedSet.insert
  dsimp only
  split_ifs with present
  · intro empty
    have empty : m.timers = [] := empty
    simp [OrderedSet.find, OrderedSet.lowerBound, empty] at present
  · simp

/-- The loop leaves an empty set only if nothing was in it and nothing expired recurs. -/
theorem expireAll_eq_nil (expired : List TimerPtr) (empty : (expireAll now expired m).2.timers = []) :
    m.timers = [] ∧ ∀ a ∈ expired, (m.heap a).recurring = false := by
  induction expired generalizing m with
  | nil => exact ⟨empty, fun a member => absurd member List.not_mem_nil⟩
  | cons timer rest ih =>
    obtain ⟨none, others⟩ := ih empty
    have once : (m.heap timer).recurring = false ∧ m.timers = [] := by
      unfold expire at none
      dsimp only at none
      split_ifs at none with recurs
      · exact absurd none (insert_timers_ne_nil _ _)
      · exact ⟨by simpa using recurs, none⟩
    refine ⟨once.2, List.forall_mem_cons.mpr ⟨once.1, fun a member => ?_⟩⟩
    rw [← expire_recurring now timer]
    exact others a member

/-- Every timer of the set has expired and none recurs. -/
def AllExpire (now : BitVec 64) (m : TimerManager) : Prop :=
  ∀ timer ∈ m.timers, (m.heap timer).recurring = false ∧
    ((m.detectClockRollover now).1 = true ∨ (m.heap timer).next ≤ now)

theorem Ordered.allExpire (ordered : Ordered m) (fresh : m.live probe = false)
    {cbs : List (Option Callback)} {after : TimerManager}
    (ran : m.listExpiredCbLocked now probe = .ok (cbs, after)) (empty : after.timers = []) :
    AllExpire now m := by
  rcases listExpiredCbLocked_cases ran with early | ⟨it, ended, loop⟩
  · cases early
    intro timer member
    have none : m.timers = [] := empty
    simp [none] at member
  · have emptied : (TimerManager.expireAll now (m.timers.take it)
        { m with previousTime := now, timers := m.timers.drop it }).2.timers = [] := by
      rw [← loop]
      exact empty
    obtain ⟨left, once⟩ := expireAll_eq_nil _ emptied
    intro timer member
    have taken : timer ∈ m.timers.take it := by
      rw [← List.take_append_drop it m.timers] at member
      have left : m.timers.drop it = [] := left
      rwa [left, List.append_nil] at member
    refine ⟨once timer taken, ?_⟩
    cases back : (m.detectClockRollover now).1 with
    | true => exact Or.inl rfl
    | false =>
      rw [← ended, back] at taken
      exact Or.inr (ordered.due fresh taken)

/-- The only fault is reading `begin()` of an empty set. -/
theorem listExpiredCbLocked_error (cause : Fault) (failed : m.listExpiredCbLocked now probe = .error cause) :
    m.timers = [] := by
  rw [listExpiredCbLocked_eq] at failed
  cases test : m.nothingExpired (m.detectClockRollover now).1 now with
  | error cause =>
    unfold nothingExpired at test
    split_ifs at test
    split at test
    · assumption
    · cases test
  | ok nothing => rw [test] at failed; cases nothing <;> cases failed

/-! ## Runs in which nobody empties the set under another thread -/

/-- The critical section takes the last timers out of the set. -/
def Empties (s : State) : Event → Prop
  | .cancel self _ => s.manager.timers = [self] ∧ (s.manager.heap self).cb.isSome
  | .listExpiredCbLocked thread _ _ =>
      ∃ now, s.phase thread = .checked now ∧ AllExpire now s.manager
  | _ => False

/-- The thread whose `listExpiredCb` the critical section ends. -/
def Event.expirer : Event → Option ℕ
  | .listExpiredCbLocked thread _ _ => some thread
  | _ => none

/-- No thread but the one at work is between its emptiness check and its locked part when the critical
section takes the last timers out. -/
def Undisturbed (s : State) (event : Event) : Prop :=
  Empties s event → ∀ thread now, s.phase thread = .checked now → event.expirer = some thread

/-- A thread behind its emptiness check finds the set as non-empty as it saw it. -/
structure Guarded (s : State) : Prop where
  ordered : Ordered s.manager
  nonempty : ∀ thread now, s.phase thread = .checked now → s.manager.timers ≠ []

theorem addTimerLocked_ne_nil (m : TimerManager) (val : TimerPtr) :
    (m.addTimerLocked val).manager.timers ≠ [] := by
  obtain ⟨tickled, left⟩ := addTimerLocked_eq m val
  rw [left]
  exact insert_timers_ne_nil m val

theorem cancel_timers_ne_nil {self : TimerPtr} (ordered : Ordered m) (some : m.timers ≠ [])
    (spared : ¬ (m.timers = [self] ∧ (m.heap self).cb.isSome)) :
    (m.cancel self).manager.timers ≠ [] := by
  unfold cancel
  dsimp only
  split_ifs with none
  · exact some
  · split
    · next it found =>
      have emptied : Ordered (m.set self { m.heap self with cb := Option.none }) :=
        ordered.set (Or.inr rfl)
      intro empty
      have only : ∀ a ∈ m.timers, a = self := by
        intro a member
        by_contra other
        have left := (emptied.mem_erase found).mpr ⟨member, other⟩
        rw [empty] at left
        exact List.not_mem_nil left
      apply spared
      refine ⟨?_, by simpa [Option.isSome_iff_ne_none] using none⟩
      obtain ⟨first, rest, timers⟩ := List.exists_cons_of_ne_nil some
      have distinct := ordered.sorted.nodup
      rw [timers] at only distinct ⊢
      obtain rfl := only first List.mem_cons_self
      obtain ⟨apart, _⟩ := List.nodup_cons.mp distinct
      cases rest with
      | nil => rfl
      | cons second rest =>
        have same := only second (List.mem_cons_of_mem _ List.mem_cons_self)
        exact absurd (same ▸ List.mem_cons_self) apart
    · exact some

theorem refresh_timers_ne_nil {self : TimerPtr} (some : m.timers ≠ []) :
    (m.refresh self now).manager.timers ≠ [] := by
  unfold refresh
  dsimp only
  split
  · exact some
  · split
    · exact some
    · exact addTimerLocked_ne_nil _ _

theorem resetLocked_timers_ne_nil {self : TimerPtr} {ms : BitVec 64} {fromNow : Bool}
    (some : m.timers ≠ []) : (m.resetLocked self ms fromNow now).manager.timers ≠ [] := by
  unfold resetLocked
  dsimp only
  split
  · exact some
  · split
    · exact some
    · exact addTimerLocked_ne_nil _ _

/-- Leaving a phase does not put another thread behind its emptiness check. -/
private theorem checked_of_enter {s : State} {thread other : ℕ} {phase : Phase}
    (not : ∀ now, phase ≠ .checked now) (checked : (s.enter thread phase).phase other = .checked now) :
    other ≠ thread ∧ s.phase other = .checked now := by
  rcases eq_or_ne other thread with rfl | different
  · exact absurd ((Function.update_self _ _ _).symm.trans checked) (not now)
  · exact ⟨different, (Function.update_of_ne different _ _).symm.trans checked⟩

theorem Guarded.step {s t : State} {event : Event} (guarded : Guarded s)
    (undisturbed : Undisturbed s event) (step : Step s event t) : Guarded t where
  ordered := guarded.ordered.step step
  nonempty := by
    intro thread now checked
    cases step with
    | addTimer _ => exact addTimerLocked_ne_nil _ _
    | cancel _ =>
      refine cancel_timers_ne_nil guarded.ordered (guarded.nonempty thread now checked) fun empties => ?_
      cases undisturbed empties thread now checked
    | refresh _ => exact refresh_timers_ne_nil (guarded.nonempty thread now checked)
    | resetSkip _ _ => exact guarded.nonempty thread now checked
    | resetEnter _ _ _ =>
      exact guarded.nonempty thread now (checked_of_enter (fun _ => Phase.noConfusion) checked).2
    | resetLocked _ =>
      have before := (checked_of_enter (fun _ => Phase.noConfusion) checked).2
      exact resetLocked_timers_ne_nil (guarded.nonempty thread now before)
    | getNextTimer =>
      rw [getNextTimer_manager]
      exact guarded.nonempty thread now checked
    | listExpiredCbEmpty _ => exact guarded.nonempty thread now checked
    | listExpiredCbEnter _ some => exact some
    | listExpiredCbLocked entered fresh ran =>
      obtain ⟨other, before⟩ := checked_of_enter (fun _ => Phase.noConfusion) checked
      intro empty
      have empties := guarded.ordered.allExpire fresh ran empty
      have same := undisturbed ⟨_, entered, empties⟩ thread now before
      exact other (Option.some.inj same).symm
    | release _ _ _ => exact guarded.nonempty thread now checked

/-- In every run in which no critical section takes the last timers out while another thread is between
its emptiness check and its locked part, `listExpiredCb` never reads `begin()` of an empty set. -/
theorem listExpiredCb_never_faults (s : State)
    (reached : (machine.restrict Undisturbed).Reachable s) (thread : ℕ) (now : BitVec 64)
    (entered : s.phase thread = .checked now) (probe : TimerPtr) (cause : Fault) :
    s.manager.listExpiredCbLocked now probe ≠ .error cause := by
  have guarded : Guarded s := by
    apply reached.invariant (P := Guarded)
    · rintro _ ⟨start, heap, rfl⟩
      exact {
        ordered := reachable_ordered (.init ⟨start, heap, rfl⟩)
        nonempty := fun thread now checked => Phase.noConfusion checked }
    · rintro s event t guarded ⟨undisturbed, step⟩
      exact guarded.step undisturbed step
  intro failed
  exact guarded.nonempty thread now entered (listExpiredCbLocked_error cause failed)

/-- One of two timers is cancelled behind an emptiness check. -/
theorem listExpiredCb_never_faults_two : ∃ s, (machine.restrict Undisturbed).Reachable s ∧
    s.phase 0 = .checked 20 ∧ s.manager.timers = [3] ∧
      s.manager.listExpiredCbLocked 20 7 ≠ .error .emptySet := by
  have start : (machine.restrict Undisturbed).Reachable ⟨new 0 fun _ => Timer.probe 0, fun _ => .idle⟩ :=
    .init ⟨_, _, rfl⟩
  have first := start.restrict_step (@Step.addTimer _ 5 10 (some 1) false 0 rfl) False.elim
  have second := first.restrict_step (@Step.addTimer _ 3 4 (some 2) false 6 rfl) False.elim
  have entered := second.restrict_step (@Step.listExpiredCbEnter _ 0 20 rfl (by decide)) False.elim
  have cancelled := entered.restrict_step (@Step.cancel _ 5 rfl)
    fun empties => absurd empties.1 (by decide)
  exact ⟨_, cancelled, rfl, rfl, listExpiredCb_never_faults _ cancelled 0 20 rfl 7 .emptySet⟩

/-- The only timer is cancelled behind an emptiness check, and the front of the empty set is read. -/
theorem listExpiredCb_faults : ∃ s, machine.Reachable s ∧ s.phase 0 = .checked 20 ∧
    s.manager.live 7 = false ∧ s.manager.listExpiredCbLocked 20 7 = .error .emptySet := by
  have start : machine.Reachable ⟨new 0 fun _ => Timer.probe 0, fun _ => .idle⟩ := .init ⟨_, _, rfl⟩
  have added := start.step (@Step.addTimer _ 5 10 (some 1) false 0 rfl)
  have entered := added.step (@Step.listExpiredCbEnter _ 0 20 rfl (by decide))
  have cancelled := entered.step (@Step.cancel _ 5 rfl)
  exact ⟨_, cancelled, rfl, rfl, rfl⟩

end Sylar.TimerManager
