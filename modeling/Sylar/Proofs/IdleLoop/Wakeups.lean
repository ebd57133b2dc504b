import Sylar.Model.IdleLoop
import Sylar.Proofs.Timer.Effects

/-! # Which wake-ups reach the worker

The worker counts itself as idle before it looks at the timers, so whoever adds an earlier timer behind
its back finds an idle thread and writes the pipe. It looks at the queue before it counts itself, and a
`tickle` in between writes nothing.
-/

namespace Sylar

/-! ## Timers that are not inserted at the front -/

namespace TimerManager

variable {m : TimerManager} {self : TimerPtr} {it : ℕ}

/-- Nothing in the set is due before everything that was in it. -/
def NotEarlier (m after : TimerManager) : Prop :=
  ∀ a ∈ after.timers, ∃ b ∈ m.timers, (m.heap b).next ≤ (after.heap a).next

theorem NotEarlier.refl (m : TimerManager) : NotEarlier m m :=
  fun a member => ⟨a, member, BitVec.le_refl _⟩

/-- An insertion that is not reported while `m_tickled` is down is behind some other timer. -/
theorem Ordered.addTimerLocked_not_atFront (ordered : Ordered m) (down : m.tickled = false)
    (behind : (m.addTimerLocked self).atFront = false) :
    (m.addTimerLocked self).manager.tickled = false ∧
      ∃ b ∈ m.timers, (m.heap b).next ≤ (m.heap self).next := by
  have front : (m.addTimerLocked self).atFront = ((m.insert self).1 == 0 && !m.tickled) := rfl
  rw [front, down] at behind
  have place : (m.insert self).1 ≠ 0 := by simpa using behind
  constructor
  · unfold TimerManager.addTimerLocked
    dsimp only
    rw [if_neg fun front => place (by simpa using (Bool.and_eq_true_iff.mp front).1)]
    exact down
  · have iterator : (m.insert self).1 = OrderedSet.lowerBound (Timer.before m.heap) self m.timers := by
      unfold TimerManager.insert OrderedSet.insert
      dsimp only
      split_ifs <;> rfl
    rw [iterator] at place
    obtain ⟨inside, _⟩ : 0 < m.timers.length ∧ True := by
      refine ⟨List.length_pos_iff.mpr fun empty => place ?_, trivial⟩
      rw [empty]
      rfl
    obtain ⟨b, rest, timers⟩ := List.exists_cons_of_ne_nil (List.length_pos_iff.mp inside)
    have taken : b ∈ m.timers.take (OrderedSet.lowerBound (Timer.before m.heap) self m.timers) := by
      obtain ⟨k, place⟩ := Nat.exists_eq_succ_of_ne_zero place
      rw [place, timers]
      exact List.mem_cons_self
    obtain ⟨member, less⟩ :=
      (OrderedSet.mem_take_lowerBound (Timer.before_iff m.heap) ordered.sorted).mp taken
    refine ⟨b, member, ?_⟩
    rcases Timer.key_lt_iff.mp less with earlier | ⟨same, _⟩
    · exact BitVec.le_of_lt earlier
    · exact BitVec.le_of_eq same

/-- The same, for a timer that is put into the set again or for the first time. -/
theorem Ordered.notEarlier_of_linked {rest : TimerManager} {timer : Timer} (ordered : Ordered rest)
    (absent : self ∉ rest.timers) (subset : ∀ a ∈ rest.timers, a ∈ m.timers)
    (heap : rest.heap = m.heap) (down : m.tickled = false) (flag : rest.tickled = m.tickled)
    (behind : ((rest.set self timer).addTimerLocked self).atFront = false) :
    ((rest.set self timer).addTimerLocked self).manager.tickled = false ∧
      NotEarlier m ((rest.set self timer).addTimerLocked self).manager := by
  have changed : Ordered (rest.set self timer) := ordered.set (Or.inl absent)
  obtain ⟨stays, b, member, late⟩ :=
    changed.addTimerLocked_not_atFront (flag.trans down) behind
  have others {a : TimerPtr} (inRest : a ∈ rest.timers) : (rest.set self timer).heap a = m.heap a := by
    rw [set_heap, Function.update_of_ne (ne_of_mem_of_not_mem inRest absent), heap]
  refine ⟨stays, fun a inSet => ?_⟩
  rw [addTimerLocked_heap]
  rcases changed.mem_addTimerLocked.mp inSet with rfl | old
  · exact ⟨b, subset b member, others member ▸ late⟩
  · exact ⟨a, subset a old, others old ▸ BitVec.le_refl _⟩

theorem Ordered.notEarlier_of_relinked {timer : Timer} (ordered : Ordered m) (found : m.find self = some it)
    (down : m.tickled = false)
    (behind : (((m.erase it).set self timer).addTimerLocked self).atFront = false) :
    (((m.erase it).set self timer).addTimerLocked self).manager.tickled = false ∧
      NotEarlier m (((m.erase it).set self timer).addTimerLocked self).manager := by
  have absent : self ∉ (m.erase it).timers := fun member =>
    ((ordered.mem_erase found).mp member).2 rfl
  exact (ordered.erase it).notEarlier_of_linked absent
    (fun a member => ((ordered.mem_erase found).mp member).1) rfl down rfl behind

theorem Ordered.refresh_not_atFront {now : BitVec 64} (ordered : Ordered m) (down : m.tickled = false)
    (behind : (m.refresh self now).atFront = false) :
    (m.refresh self now).manager.tickled = false ∧ NotEarlier m (m.refresh self now).manager := by
  unfold TimerManager.refresh at behind ⊢
  dsimp only at behind ⊢
  split_ifs at behind ⊢
  · exact ⟨down, .refl _⟩
  · split at behind
    · exact ⟨down, .refl _⟩
    · next found => exact ordered.notEarlier_of_relinked found down behind

theorem Ordered.resetLocked_not_atFront {ms : BitVec 64} {fromNow : Bool} {now : BitVec 64}
    (ordered : Ordered m) (down : m.tickled = false)
    (behind : (m.resetLocked self ms fromNow now).atFront = false) :
    (m.resetLocked self ms fromNow now).manager.tickled = false ∧
      NotEarlier m (m.resetLocked self ms fromNow now).manager := by
  unfold TimerManager.resetLocked at behind ⊢
  dsimp only at behind ⊢
  by_cases dead : (m.heap self).cb.isNone = true
  · rw [if_pos dead]
    exact ⟨down, .refl _⟩
  · rw [if_neg dead] at behind ⊢
    cases found : m.find self with
    | none => exact ⟨down, .refl _⟩
    | some it =>
      rw [found] at behind
      exact ordered.notEarlier_of_relinked found down behind

end TimerManager

namespace IdleLoop

open TimerManager (Ordered NotEarlier)

/-- A critical section that does not call `onTimerInsertedAtFront`, entered with `m_tickled` down,
leaves it down and brings in nothing earlier. -/
theorem notEarlier_of_not_atFront {s t : TimerManager.State} {thread : ℕ} {event : TimerManager.Event}
    (ordered : Ordered s.manager) (step : TimerManager.Step s event t) (openTo : OpenTo thread event)
    (behind : atFront s event = false) (down : s.manager.tickled = false) :
    t.manager.tickled = false ∧ NotEarlier s.manager t.manager := by
  cases step with
  | @addTimer self _ _ _ _ fresh =>
    have absent : self ∉ s.manager.timers := fun member => by simp [ordered.live self member] at fresh
    have allocated : Ordered { s.manager with live := Function.update s.manager.live self true } := {
      sorted := ordered.sorted
      live := by
        intro a member
        have other : a ≠ self := ne_of_mem_of_not_mem member absent
        exact (Function.update_of_ne other true s.manager.live).trans (ordered.live a member) }
    exact allocated.notEarlier_of_linked absent (fun _ member => member) rfl down rfl behind
  | @cancel self _ =>
    rcases TimerManager.cancel_cases s.manager self with ⟨_, left⟩ | ⟨armed, _, heap, _, flag⟩
    · rw [left]
      exact ⟨down, .refl _⟩
    · refine ⟨flag.trans down, fun a member => ?_⟩
      · obtain ⟨old, other⟩ := (ordered.mem_cancel armed).mp member
        refine ⟨a, old, ?_⟩
        rw [heap, Function.update_of_ne other]
        exact BitVec.le_refl _
  | refresh _ => exact ordered.refresh_not_atFront down behind
  | resetSkip _ _ => exact ⟨down, .refl _⟩
  | resetEnter _ _ _ => exact ⟨down, .refl _⟩
  | resetLocked resetting =>
    rw [atFront, resetting] at behind
    exact ordered.resetLocked_not_atFront down behind
  | getNextTimer =>
    rw [TimerManager.getNextTimer_manager]
    exact ⟨rfl, .refl _⟩
  | listExpiredCbEmpty _ => exact openTo.elim
  | listExpiredCbEnter _ _ => exact openTo.elim
  | listExpiredCbLocked _ _ _ => exact openTo.elim
  | release _ _ _ => exact ⟨down, .refl _⟩

/-! ## The idle count and the calls of `tickle` -/

/-- The worker is between `++m_idleThreadCount` and `--m_idleThreadCount`. -/
def Location.counted : Location → Bool
  | .scan | .running _ | .finished | .idling | .exited => false
  | _ => true

variable {s t : IdleLoop} {action : Action} {thread : ℕ} {cause : Cause}

theorem counted_step (counted : s.idleThreadCount = s.location.counted.toNat) (step : Step s action t) :
    t.idleThreadCount = t.location.counted.toNat := by
  cases step with
  | take located _ => rw [located] at counted; exact counted
  | rest located _ =>
    rw [located] at counted
    refine counted.trans ?_
    change _ = (ite _ _ _ : Location).counted.toNat
    split_ifs <;> rfl
  | finish located _ => rw [located] at counted; exact counted
  | again located _ => exact counted
  | top located _ => rw [located] at counted; exact counted
  | raise located => rw [located] at counted; exact congrArg (· + 1) counted
  | getNextTimer located _ => rw [located] at counted; exact counted
  | stopping located =>
    rw [located] at counted
    refine counted.trans ?_
    change _ = (ite _ _ _ : Location).counted.toNat
    split_ifs <;> rfl
  | ready located _ => rw [located] at counted; exact counted
  | timeout located _ => rw [located] at counted; exact counted
  | listExpiredCbEmpty located _ => rw [located] at counted; exact counted
  | listExpiredCbEnter located _ => rw [located] at counted; exact counted
  | listExpiredCbLocked located _ => rw [located] at counted; exact counted
  | scheduleExpired located =>
    rw [located] at counted
    split_ifs <;> exact counted
  | drain located _ =>
    rw [located] at counted
    split_ifs
    · exact counted
    · exact counted.trans (by rw [located])
  | trigger _ _ => exact counted
  | yield located _ => rw [located] at counted; exact counted
  | lower located => rw [located] at counted; exact congrArg (· - 1) counted
  | timer _ _ _ => exact counted
  | schedule _ => exact counted
  | checkIdle _ => exact counted
  | write _ => exact counted
  | events => exact counted
  | autoStop => exact counted
  | stop _ _ => exact counted

/-- The wake-up pipe is non-empty, or a thread called `tickle` for this cause and has not finished. -/
def Called (cause : Cause) (s : IdleLoop) : Prop :=
  0 < s.pipe ∨ ∃ thread idle, s.tickling thread = some ⟨cause, idle⟩

/-- A thread that was in no call enters one. -/
theorem Called.setTickling (called : Called cause s) (free : s.tickling thread = none)
    (tickle : Option Tickle) : Called cause (s.setTickling thread tickle) := by
  refine called.imp_right ?_
  rintro ⟨other, idle, calling⟩
  have different : other ≠ thread := fun same => by
    rw [same, free] at calling
    cases calling
  exact ⟨other, idle, (Function.update_of_ne different _ _).trans calling⟩

theorem called_tickleIf (cause : Cause) (s : IdleLoop) (thread : ℕ) :
    Called cause (s.tickleIf thread cause true) :=
  Or.inr ⟨thread, false, Function.update_self _ _ _⟩

/-- While the worker is counted, looking at the count leads on to the write. -/
theorem Called.checkIdle (called : Called cause s) (counted : 0 < s.idleThreadCount) {reason : Cause}
    (calling : s.tickling thread = some ⟨reason, false⟩) :
    Called cause (s.setTickling thread
      (if 0 < s.idleThreadCount then some ⟨reason, true⟩ else none)) := by
  rw [if_pos counted]
  refine called.imp_right ?_
  rintro ⟨caller, idle, called⟩
  rcases eq_or_ne caller thread with same | different
  · rw [same, calling] at called
    cases called
    exact ⟨thread, true, Function.update_self _ _ _⟩
  · exact ⟨caller, idle, (Function.update_of_ne different _ _).trans called⟩

theorem Called.write (cause : Cause) (s : IdleLoop) (thread : ℕ) :
    Called cause ({ s with pipe := s.pipe + 2 }.setTickling thread none) :=
  Or.inl (Nat.succ_pos _)

/-! ## Timers -/

/-- What the worker saw at the front of the set when it last asked, until it is woken. -/
def Location.saw : Location → Option (Option (BitVec 64))
  | .observed earliest _ => some earliest
  | .waiting earliest _ => some earliest
  | _ => none

/-- A deadline before what was seen; an empty set is behind everything. -/
def Before (deadline : BitVec 64) (earliest : Option (BitVec 64)) : Prop :=
  ∀ seen, earliest = some seen → deadline < seen

/-- Behind `getNextTimer`, both `m_tickled` and an earlier timer mean that the worker is called. -/
structure Awake (s : IdleLoop) : Prop where
  ordered : Ordered s.timers.manager
  counted : s.idleThreadCount = s.location.counted.toNat
  flagged : ∀ earliest, s.location.saw = some earliest → s.timers.manager.tickled = true →
    Called .timer s
  earlier : ∀ earliest, s.location.saw = some earliest →
    (∃ a ∈ s.timers.manager.timers, Before (s.timers.manager.heap a).next earliest) → Called .timer s

theorem Location.counted_of_saw {location : Location} {earliest : Option (BitVec 64)}
    (saw : location.saw = some earliest) : location.counted = true := by
  cases location <;> first | rfl | cases saw

/-- The worker need not be called while it is not about to sleep. -/
theorem Awake.of_saw_none (ordered : Ordered s.timers.manager)
    (counted : s.idleThreadCount = s.location.counted.toNat) (none : s.location.saw = none) : Awake s where
  ordered := ordered
  counted := counted
  flagged := fun earliest saw => by rw [none] at saw; cases saw
  earlier := fun earliest saw => by rw [none] at saw; cases saw

/-- A step that leaves the timers and the location and does not silence a call. -/
theorem Awake.of_called (awake : Awake s) (timers : t.timers = s.timers) (location : t.location = s.location)
    (count : t.idleThreadCount = s.idleThreadCount)
    (called : ∀ earliest, s.location.saw = some earliest → Called .timer s → Called .timer t) : Awake t where
  ordered := timers ▸ awake.ordered
  counted := by rw [count, location, awake.counted]
  flagged := by
    rw [timers, location]
    exact fun earliest saw flag => called earliest saw (awake.flagged earliest saw flag)
  earlier := by
    rw [timers, location]
    exact fun earliest saw before => called earliest saw (awake.earlier earliest saw before)

/-- The front of the set is the earliest. -/
theorem not_before_earliest {m : TimerManager} (ordered : Ordered m) {a : TimerPtr} (member : a ∈ m.timers) :
    ¬ Before (m.heap a).next (earliest m) := by
  obtain ⟨first, rest, timers⟩ := List.exists_cons_of_ne_nil (List.ne_nil_of_mem member)
  have head : m.timers.head? = some first := by rw [timers, List.head?_cons]
  intro before
  have less : (m.heap a).next < (m.heap first).next := before _ (by rw [earliest, head, Option.map_some])
  rcases (ordered.sorted.head_le head member).lt_or_eq with below | same
  · rcases Timer.key_lt_iff.mp below with earlier | ⟨tie, _⟩
    · exact absurd (BitVec.lt_trans less earlier) (BitVec.lt_irrefl _)
    · exact absurd (tie ▸ less) (BitVec.lt_irrefl _)
  · rw [Timer.key_injective _ same] at less
    exact BitVec.lt_irrefl _ less

/-- A critical section of some thread, and the call of `tickle` behind it. -/
theorem Awake.timer (awake : Awake s) {event : TimerManager.Event} {timers : TimerManager.State}
    (free : s.Free thread) (openTo : OpenTo thread event) (step : TimerManager.Step s.timers event timers) :
    Awake (tickleIf thread .timer (atFront s.timers event) { s with timers := timers }) := by
  cases front : atFront s.timers event with
  | true =>
    have called := called_tickleIf .timer { s with timers := timers } thread
    exact ⟨awake.ordered.step step, awake.counted, fun _ _ _ => called, fun _ _ _ => called⟩
  | false =>
    have kept {earliest} (saw : s.location.saw = some earliest) (called : Called .timer s) :
        Called .timer (tickleIf thread .timer false { s with timers := timers }) :=
      Called.setTickling (s := { s with timers := timers }) called free.1 _
    have down {earliest} (saw : s.location.saw = some earliest) (quiet : ¬ Called .timer s) :
        s.timers.manager.tickled = false :=
      Bool.eq_false_iff.mpr fun flag => quiet (awake.flagged earliest saw flag)
    refine ⟨awake.ordered.step step, awake.counted, fun earliest saw flag => ?_,
      fun earliest saw before => ?_⟩
    · by_cases called : Called .timer s
      · exact kept saw called
      · have stays := (notEarlier_of_not_atFront awake.ordered step openTo front (down saw called)).1
        exact absurd (stays.symm.trans flag) Bool.false_ne_true
    · by_cases called : Called .timer s
      · exact kept saw called
      · obtain ⟨a, member, before⟩ := before
        obtain ⟨b, old, late⟩ :=
          (notEarlier_of_not_atFront awake.ordered step openTo front (down saw called)).2 a member
        exact absurd (awake.earlier earliest saw
          ⟨b, old, fun seen same => Nat.lt_of_le_of_lt late (before seen same)⟩) called

theorem Awake.step (awake : Awake s) (step : Step s action t) : Awake t := by
  have counted := counted_step awake.counted step
  cases step with
  | take located _ => exact .of_saw_none awake.ordered counted rfl
  | rest located _ =>
    refine .of_saw_none awake.ordered counted ?_
    change (ite _ _ _ : Location).saw = none
    split_ifs <;> rfl
  | finish located _ => exact .of_saw_none awake.ordered counted rfl
  | again located _ => exact .of_saw_none awake.ordered counted (congrArg Location.saw located)
  | top located _ => exact .of_saw_none awake.ordered counted rfl
  | raise located => exact .of_saw_none awake.ordered counted rfl
  | getNextTimer located step =>
    cases step with
    | getNextTimer =>
      refine ⟨awake.ordered.step .getNextTimer, counted, fun earliest saw flag => ?_,
        fun earliest saw before => ?_⟩
      · rw [TimerManager.getNextTimer_manager] at flag
        cases flag
      · cases saw
        rw [TimerManager.getNextTimer_manager] at before
        obtain ⟨a, member, before⟩ := before
        exact absurd before (not_before_earliest awake.ordered member)
  | @stopping earliest timeout located =>
    have saw : s.location.saw = some earliest := by rw [located]; rfl
    by_cases ends : s.stopping timeout = true
    · rw [if_pos ends] at counted ⊢
      exact .of_saw_none awake.ordered counted rfl
    · rw [if_neg ends] at counted ⊢
      exact ⟨awake.ordered, counted, fun _ same flag => awake.flagged _ (saw.trans same) flag,
        fun _ same before => awake.earlier _ (saw.trans same) before⟩
  | ready located _ => exact .of_saw_none awake.ordered counted rfl
  | timeout located _ => exact .of_saw_none awake.ordered counted rfl
  | listExpiredCbEmpty located _ => exact .of_saw_none awake.ordered counted rfl
  | listExpiredCbEnter located step => exact .of_saw_none (awake.ordered.step step) counted rfl
  | listExpiredCbLocked located step => exact .of_saw_none (awake.ordered.step step) counted rfl
  | @scheduleExpired _ cbs located =>
    cases cbs with
    | nil => exact .of_saw_none awake.ordered counted rfl
    | cons cb rest => exact .of_saw_none awake.ordered counted rfl
  | drain located _ =>
    by_cases empty : s.pipe = 0
    · rw [if_pos empty] at counted ⊢
      exact .of_saw_none awake.ordered counted rfl
    · rw [if_neg empty] at counted ⊢
      exact .of_saw_none awake.ordered counted (congrArg Location.saw located)
  | trigger located _ => exact .of_saw_none awake.ordered counted (congrArg Location.saw located)
  | yield located _ => exact .of_saw_none awake.ordered counted rfl
  | lower located => exact .of_saw_none awake.ordered counted rfl
  | timer free openTo step => exact awake.timer free openTo step
  | schedule free =>
    exact awake.of_called rfl rfl rfl fun _ _ called =>
      Called.setTickling (s := { s with fibers := s.fibers ++ _ }) called free.1 _
  | checkIdle calling =>
    refine awake.of_called rfl rfl rfl fun earliest saw called => called.checkIdle ?_ calling
    rw [awake.counted, Location.counted_of_saw saw]
    exact Nat.one_pos
  | write calling => exact awake.of_called rfl rfl rfl fun _ _ _ => .write _ _ _
  | events => exact awake.of_called rfl rfl rfl fun _ _ called => called
  | autoStop => exact awake.of_called rfl rfl rfl fun _ _ called => called
  | stop _ free =>
    exact awake.of_called rfl rfl rfl fun _ _ called =>
      Called.setTickling (s := { s with stopRequested := true }) called free.1 _

/-! ## From the counter to `epoll_wait` -/

/-- The worker has counted itself, asked for the next timer at clock 0 and called `epoll_wait`. -/
def asleep (s : IdleLoop) : IdleLoop :=
  { s with
    timers := ⟨(s.timers.manager.getNextTimer 0).2, s.timers.phase⟩
    idleThreadCount := s.idleThreadCount + 1
    location := .waiting (earliest s.timers.manager) (epollTimeout (s.timers.manager.getNextTimer 0).1) }

/-- Nothing but `stopping` keeps a worker that has found nothing from falling asleep. -/
theorem asleep_path (located : s.location = .idling)
    (goesOn : s.stopping (s.timers.manager.getNextTimer 0).1 = false) :
    machine.Path s [.raise, .getNextTimer 0, .stopping] (asleep s) := by
  refine .cons (.raise located) (.cons (.getNextTimer rfl .getNextTimer) (.cons ?_ (.nil _)))
  have step := @Step.stopping { asleep s with
    location := .observed (earliest s.timers.manager) (s.timers.manager.getNextTimer 0).1 } _ _ rfl
  rw [if_neg (by exact Bool.not_eq_true _ ▸ goesOn)] at step
  exact step

private def firstState : IdleLoop := started ⟨.new 0 fun _ => Timer.probe 0, fun _ => .idle⟩

private theorem firstState_init : machine.Init firstState := ⟨_, ⟨_, _, rfl⟩, rfl⟩

/-- On a new manager the first scan finds nothing. -/
private theorem firstScan : machine.Reachable (firstState.goto .idling) := by
  have start : machine.Reachable firstState := .init firstState_init
  exact start.step (.rest rfl rfl)

/-- Once the worker has asked for the next timer and until it is woken, a timer due before what it saw is
accompanied by a byte in the pipe or a thread that inserted at the front and has its `tickle` to run. -/
theorem timer_wakeup_not_lost (s : IdleLoop) (reached : machine.Reachable s)
    (earliest : Option (BitVec 64)) (saw : s.location.saw = some earliest) (timer : TimerPtr)
    (member : timer ∈ s.timers.manager.timers)
    (before : Before (s.timers.manager.heap timer).next earliest) :
    0 < s.pipe ∨ ∃ thread idle, s.tickling thread = some ⟨.timer, idle⟩ := by
  have awake : Awake s := by
    apply reached.invariant (P := Awake)
    · rintro _ ⟨timers, init, rfl⟩
      exact .of_saw_none (TimerManager.reachable_ordered (.init init)) rfl rfl
    · intro s action t awake step
      exact awake.step step
  exact awake.earlier earliest saw ⟨timer, member, before⟩

/-- A timer is added while the worker sleeps on an empty set, and its `tickle` is yet to run. -/
theorem timer_wakeup_not_lost_first : ∃ s, machine.Reachable s ∧ s.location = .waiting none 3000 ∧
    s.timers.manager.timers = [5] ∧
    (0 < s.pipe ∨ ∃ thread idle, s.tickling thread = some ⟨.timer, idle⟩) := by
  have slept := firstScan.path (asleep_path rfl rfl)
  have added := slept.step (@Step.timer _ 1 (.addTimer 5 10 (some 1) false 0) _ ⟨rfl, nofun⟩ trivial
    (.addTimer rfl))
  exact ⟨_, added, rfl, rfl, timer_wakeup_not_lost _ added none rfl 5 List.mem_cons_self nofun⟩

/-! ## Tasks -/

/-- The last scan found nothing, and the worker does not scan again before it is woken. -/
def Location.fruitless : Location → Bool
  | .idling | .raised | .observed _ _ | .waiting _ _ => true
  | _ => false

theorem Location.eq_idling {location : Location} (fruitless : location.fruitless = true)
    (uncounted : location.counted = false) : location = .idling := by
  cases location <;> first | rfl | exact Bool.noConfusion fruitless | exact Bool.noConfusion uncounted

/-- A task is queued, the worker is in `epoll_wait`, the pipe is empty and no thread that scheduled has
its `tickle` to run. -/
def Lost (s : IdleLoop) : Prop :=
  (∃ earliest timeout, s.location = .waiting earliest timeout) ∧ s.fibers ≠ [] ∧ ¬ Called .schedule s

/-- No call of `tickle` looks at the idle count between a scan that found nothing and
`++m_idleThreadCount`, unless the queue is empty, the pipe is not, or another thread that scheduled has
its `tickle` to run. -/
def Heard (s : IdleLoop) : Action → Prop
  | .checkIdle thread => s.location = .idling → s.fibers ≠ [] →
      0 < s.pipe ∨ ∃ other idle, other ≠ thread ∧ s.tickling other = some ⟨.schedule, idle⟩
  | _ => True

/-- A worker whose scan found nothing is called when there is a task. -/
structure Attentive (s : IdleLoop) : Prop where
  counted : s.idleThreadCount = s.location.counted.toNat
  queued : s.location.fruitless = true → s.fibers ≠ [] → Called .schedule s

theorem Attentive.of_awake (counted : s.idleThreadCount = s.location.counted.toNat)
    (awake : s.location.fruitless = false) : Attentive s where
  counted := counted
  queued := fun fruitless => absurd (awake.symm.trans fruitless) Bool.false_ne_true

/-- A step that leaves the queue, and the worker where it does not scan. -/
theorem Attentive.of_called (attentive : Attentive s) (counted : t.idleThreadCount = t.location.counted.toNat)
    (fibers : t.fibers = s.fibers) (location : t.location.fruitless = true → s.location.fruitless = true)
    (called : s.location.fruitless = true → Called .schedule s → Called .schedule t) : Attentive t where
  counted := counted
  queued := by
    intro fruitless queued
    rw [fibers] at queued
    exact called (location fruitless) (attentive.queued (location fruitless) queued)

theorem Attentive.step (attentive : Attentive s) (heard : Heard s action) (step : Step s action t) :
    Attentive t := by
  have counted := counted_step attentive.counted step
  cases step with
  | take located _ => exact .of_awake counted rfl
  | rest located empty => exact ⟨counted, fun _ queued => absurd empty queued⟩
  | finish located _ => exact .of_awake counted rfl
  | again located _ => exact .of_awake counted (congrArg Location.fruitless located)
  | top located _ => exact .of_awake counted rfl
  | raise located =>
    exact attentive.of_called counted rfl (fun _ => by rw [located]; rfl) fun _ called => called
  | getNextTimer located _ =>
    exact attentive.of_called counted rfl (fun _ => by rw [located]; rfl) fun _ called => called
  | stopping located =>
    exact attentive.of_called counted rfl (fun _ => by rw [located]; rfl) fun _ called => called
  | ready located _ => exact .of_awake counted rfl
  | timeout located _ => exact .of_awake counted rfl
  | listExpiredCbEmpty located _ => exact .of_awake counted rfl
  | listExpiredCbEnter located _ => exact .of_awake counted rfl
  | listExpiredCbLocked located _ => exact .of_awake counted rfl
  | @scheduleExpired _ cbs located =>
    cases cbs with
    | nil => exact .of_awake counted rfl
    | cons cb rest => exact .of_awake counted rfl
  | drain located _ =>
    by_cases empty : s.pipe = 0
    · rw [if_pos empty] at counted ⊢
      exact .of_awake counted rfl
    · rw [if_neg empty] at counted ⊢
      exact .of_awake counted (congrArg Location.fruitless located)
  | trigger located _ => exact .of_awake counted (congrArg Location.fruitless located)
  | yield located _ => exact .of_awake counted rfl
  | lower located => exact .of_awake counted rfl
  | timer free _ _ =>
    exact attentive.of_called counted rfl id fun _ called =>
      Called.setTickling (s := { s with timers := _ }) called free.1 _
  | @schedule _ task free =>
    refine ⟨counted, fun fruitless _ => ?_⟩
    cases empty : s.fibers with
    | nil =>
      have calls : s.fibers.isEmpty = true := by rw [empty]; rfl
      rw [IdleLoop.schedule, calls]
      exact called_tickleIf _ _ _
    | cons first rest =>
      have called := attentive.queued fruitless (by rw [empty]; exact List.cons_ne_nil _ _)
      exact Called.setTickling (s := { s with fibers := s.fibers ++ [task] }) called free.1 _
  | @checkIdle thread cause calling =>
    cases place : s.location.counted with
    | true =>
      refine attentive.of_called counted rfl id fun _ called => called.checkIdle ?_ calling
      rw [attentive.counted, place]
      exact Nat.one_pos
    | false =>
      refine ⟨counted, fun fruitless queued => ?_⟩
      have located : s.location = .idling := Location.eq_idling fruitless place
      refine (heard located queued).imp_right ?_
      rintro ⟨other, idle, different, called⟩
      exact ⟨other, idle, (Function.update_of_ne different _ _).trans called⟩
  | write calling => exact attentive.of_called counted rfl id fun _ _ => .write _ _ _
  | events => exact attentive.of_called counted rfl id fun _ called => called
  | autoStop => exact attentive.of_called counted rfl id fun _ called => called
  | stop _ free =>
    exact attentive.of_called counted rfl id fun _ called =>
      Called.setTickling (s := { s with stopRequested := true }) called free.1 _

theorem attentive_of_reachable (reached : (machine.restrict Heard).Reachable s) : Attentive s := by
  apply reached.invariant (P := Attentive)
  · rintro _ ⟨timers, _, rfl⟩
    exact .of_awake rfl rfl
  · rintro s action t attentive ⟨heard, step⟩
    exact attentive.step heard step

/-- In every run in which no `tickle` misses a worker that is about to count itself, no task is queued
behind the back of a worker in `epoll_wait`; and a `tickle` that misses it can be followed by just that. -/
theorem task_wakeup_not_lost (s : IdleLoop) (reached : (machine.restrict Heard).Reachable s) :
    ¬ Lost s ∧ ∀ thread t, Step s (.checkIdle thread) t → ¬ Heard s (.checkIdle thread) →
      ∃ actions u, machine.Path t actions u ∧ Lost u := by
  have attentive := attentive_of_reachable reached
  constructor
  · rintro ⟨⟨earliest, timeout, located⟩, queued, quiet⟩
    exact quiet (attentive.queued (by rw [located]; rfl) queued)
  · intro thread t step missed
    cases step with
    | @checkIdle _ cause calling =>
      obtain ⟨located, missed⟩ := Classical.not_imp.mp missed
      obtain ⟨queued, missed⟩ := Classical.not_imp.mp missed
      obtain ⟨empty, quiet⟩ := not_or.mp missed
      have uncounted : ¬ 0 < s.idleThreadCount := by
        rw [attentive.counted, located]
        exact Nat.lt_irrefl 0
      rw [if_neg uncounted]
      have goesOn : (s.setTickling thread none).stopping
          ((s.setTickling thread none).timers.manager.getNextTimer 0).1 = false := by
        have busy : s.fibers.isEmpty = false := by simpa using queued
        simp [stopping, schedulerStopping, setTickling, busy]
      refine ⟨_, _, asleep_path located goesOn, ⟨⟨_, _, rfl⟩, queued, ?_⟩⟩
      rintro (bytes | ⟨other, idle, calls⟩)
      · exact empty bytes
      · have calls : Function.update s.tickling thread none other = some ⟨.schedule, idle⟩ := calls
        rcases eq_or_ne other thread with same | different
        · rw [same, Function.update_self] at calls
          cases calls
        · rw [Function.update_of_ne different] at calls
          exact quiet ⟨other, idle, different, calls⟩

/-- A task is scheduled in front of the counter, and `tickle` comes behind it. -/
theorem task_wakeup_not_lost_late : ∃ s, (machine.restrict Heard).Reachable s ∧
    s.fibers = [.cb 1] ∧ s.idleThreadCount = 1 ∧ s.tickling 1 = some ⟨.schedule, true⟩ ∧ ¬ Lost s := by
  have start : (machine.restrict Heard).Reachable firstState := .init firstState_init
  have scanned := start.restrict_step (.rest rfl rfl) trivial
  have scheduled := scanned.restrict_step (@Step.schedule _ 1 (.cb 1) ⟨rfl, nofun⟩) trivial
  have counted := scheduled.restrict_step (.raise rfl) trivial
  have checked := counted.restrict_step (@Step.checkIdle _ 1 .schedule rfl) fun idling => nomatch idling
  exact ⟨_, checked, rfl, rfl, rfl, (task_wakeup_not_lost _ checked).1⟩

/-- A task is scheduled between the scan and the counter, and `tickle` finds no idle thread. -/
theorem task_wakeup_lost : ∃ s, machine.Reachable s ∧ Lost s := by
  have scheduled := firstScan.step (@Step.schedule (firstState.goto .idling) 1 (.cb 1) ⟨rfl, nofun⟩)
  have missed := scheduled.step (@Step.checkIdle ((firstState.goto .idling).schedule 1 [.cb 1]) 1 .schedule rfl)
  have slept := missed.path (asleep_path rfl rfl)
  refine ⟨_, slept, ⟨_, _, rfl⟩, List.cons_ne_nil _ _, ?_⟩
  rintro (bytes | ⟨thread, idle, calls⟩)
  · exact Nat.lt_irrefl 0 bytes
  · rcases eq_or_ne thread 1 with same | different
    · rw [same] at calls
      cases calls
    · have calls : Function.update (Function.update (fun _ => none) 1 (some (⟨.schedule, false⟩ : Tickle)))
          1 none thread = some ⟨.schedule, idle⟩ := calls
      rw [Function.update_of_ne different, Function.update_of_ne different] at calls
      cases calls

end IdleLoop

end Sylar
