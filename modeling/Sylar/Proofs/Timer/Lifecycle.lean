import Sylar.Proofs.Timer.Effects

/-! # The life of a timer from `addTimer` to its release

An address is used again once nothing refers to the timer there, so a timer is followed from the
critical section that adds it for as long as it is not released. Each critical section leaves it
alone, cancels it or hands its callback out; which timers a `listExpiredCb` takes is not in its label
and is observed in the state it runs in.
-/

namespace Sylar.TimerManager

variable {s t : State} {event : Event} {self : TimerPtr}

/-- The timers whose callbacks the critical section hands out. -/
def handedOut (s : State) : Event → List TimerPtr
  | .listExpiredCbLocked thread probe _ =>
      match s.phase thread with
      | .checked now => s.manager.expired now probe
      | _ => []
  | _ => []

theorem handedOut_subset (s : State) (event : Event) (handed : self ∈ handedOut s event) :
    self ∈ s.manager.timers := by
  unfold handedOut at handed
  split at handed
  · split at handed
    · exact expired_subset _ _ _ _ handed
    · cases handed
  · cases handed

/-- What a critical section means to one timer. -/
inductive Fate (self : TimerPtr) (s : State) (event : Event) (t : State) : Prop
  | kept (mem : self ∈ t.manager.timers ↔ self ∈ s.manager.timers)
      (cb : (t.manager.heap self).cb = (s.manager.heap self).cb)
      (notCancelled : event ≠ .cancel self true) (notHanded : self ∉ handedOut s event)
  | cancelled (mem : self ∉ t.manager.timers) (cb : (t.manager.heap self).cb = none)
      (armed : (s.manager.heap self).cb.isSome) (isCancel : event = .cancel self true)
  | handed (once : (handedOut s event).count self = 1) (notCancelled : event ≠ .cancel self true)
      (mem : self ∈ t.manager.timers ↔ (s.manager.heap self).recurring = true)
      (cb : (t.manager.heap self).cb =
        if (s.manager.heap self).recurring then (s.manager.heap self).cb else none)

/-- A timer in use stays in use until it is released, and recurs as it did. -/
structure Carries (timer : TimerPtr) (s t : State) : Prop where
  live : t.manager.live timer = true
  recurring : (t.manager.heap timer).recurring = (s.manager.heap timer).recurring

theorem Relinks.fate {other : TimerPtr} {locked : Locked}
    (relinks : Relinks other s.manager locked) (isLive : s.manager.live self = true)
    (left : t.manager = locked.manager) (notCancelled : event ≠ .cancel self true)
    (notHanded : self ∉ handedOut s event) : Carries self s t ∧ Fate self s event t := by
  refine ⟨⟨?_, ?_⟩, .kept ?_ ?_ notCancelled notHanded⟩
  · rw [left, relinks.live, isLive]
  · rw [left, relinks.recurring]
  · rw [left, relinks.mem]
  · rw [left, relinks.cb]

theorem Ordered.fate (ordered : Ordered s.manager) (step : Step s event t)
    (isLive : s.manager.live self = true) (notReleased : event ≠ .release self) :
    Carries self s t ∧ Fate self s event t := by
  cases step with
  | @addTimer other ms cb recurring now fresh =>
    have different : self ≠ other := fun same => by simp [same, fresh] at isLive
    refine ⟨⟨?_, ?_⟩, .kept ?_ ?_ Event.noConfusion List.not_mem_nil⟩
    · rw [addTimer_live, Function.update_of_ne different, isLive]
    · rw [addTimer_heap, Function.update_of_ne different]
    · rw [ordered.mem_addTimer fresh]
      exact or_iff_right different
    · rw [addTimer_heap, Function.update_of_ne different]
  | @cancel other _ =>
    rcases cancel_cases s.manager other with ⟨_, left⟩ | ⟨armed, result, heap, live, _⟩
    · rw [left]
      exact ⟨⟨isLive, rfl⟩, .kept Iff.rfl rfl (by simp) List.not_mem_nil⟩
    · rw [result]
      rcases eq_or_ne self other with rfl | different
      · refine ⟨⟨?_, ?_⟩, .cancelled ?_ ?_ armed rfl⟩
        · rw [live, isLive]
        · rw [heap, Function.update_self]
        · rw [ordered.mem_cancel armed]
          exact fun both => both.2 rfl
        · rw [heap, Function.update_self]
      · refine ⟨⟨?_, ?_⟩, .kept ?_ ?_ (by simpa using different.symm) List.not_mem_nil⟩
        · rw [live, isLive]
        · rw [heap, Function.update_of_ne different]
        · rw [ordered.mem_cancel armed]
          exact and_iff_left different
        · rw [heap, Function.update_of_ne different]
  | refresh _ =>
    exact (ordered.refresh_relinks _).fate isLive rfl Event.noConfusion List.not_mem_nil
  | resetSkip _ _ => exact ⟨⟨isLive, rfl⟩, .kept Iff.rfl rfl Event.noConfusion List.not_mem_nil⟩
  | resetEnter _ _ _ => exact ⟨⟨isLive, rfl⟩, .kept Iff.rfl rfl Event.noConfusion List.not_mem_nil⟩
  | resetLocked _ =>
    exact (ordered.resetLocked_relinks _ _ _).fate isLive rfl Event.noConfusion List.not_mem_nil
  | getNextTimer =>
    rw [getNextTimer_manager]
    exact ⟨⟨isLive, rfl⟩, .kept Iff.rfl rfl Event.noConfusion List.not_mem_nil⟩
  | listExpiredCbEmpty _ =>
    exact ⟨⟨isLive, rfl⟩, .kept Iff.rfl rfl Event.noConfusion List.not_mem_nil⟩
  | listExpiredCbEnter _ _ =>
    exact ⟨⟨isLive, rfl⟩, .kept Iff.rfl rfl Event.noConfusion List.not_mem_nil⟩
  | @listExpiredCbLocked thread now probe cbs after entered _ ran =>
    have hands := ordered.handsOut ran
    have observed : handedOut s (.listExpiredCbLocked thread probe cbs) = s.manager.expired now probe := by
      rw [handedOut, entered]
    refine ⟨⟨?_, hands.recurring self⟩, ?_⟩
    · exact (congrFun hands.live self).trans isLive
    · by_cases taken : self ∈ s.manager.expired now probe
      · refine .handed ?_ Event.noConfusion ?_ ?_
        · rw [observed]
          exact (ordered.expired_nodup now probe).count.trans (if_pos taken)
        · refine (hands.mem self).trans ?_
          have present := expired_subset now probe s.manager self taken
          simp only [present, taken, true_and, forall_const]
        · refine (hands.cb self).trans ?_
          cases (s.manager.heap self).recurring <;> simp [taken]
      · refine .kept ?_ ?_ Event.noConfusion (by rwa [observed])
        · exact (hands.mem self).trans (and_iff_left fun member => absurd member taken)
        · exact (hands.cb self).trans (if_neg fun both => taken both.1)
  | @release other _ _ _ =>
    have different : self ≠ other := fun same => notReleased (by rw [same])
    refine ⟨⟨?_, rfl⟩, .kept Iff.rfl rfl Event.noConfusion List.not_mem_nil⟩
    exact (Function.update_of_ne different _ _).trans isLive

/-! ## The account of one timer -/

/-- Whether the critical section is a `cancel` of this timer that returned true. -/
def Event.cancels (self : TimerPtr) : Event → Bool
  | .cancel other result => other == self && result
  | _ => false

theorem Event.cancels_iff : event.cancels self = true ↔ event = .cancel self true := by
  cases event <;> simp [cancels]

/-- How often the run handed the callback of this timer out. -/
def handOuts (self : TimerPtr) (run : List (Event × List TimerPtr)) : ℕ :=
  (run.flatMap Prod.snd).count self

/-- How often a `cancel` of this timer returned true in the run. -/
def cancellations (self : TimerPtr) (run : List (Event × List TimerPtr)) : ℕ :=
  run.countP fun label => label.1.cancels self

/-- A timer was added at `self` with the callback `cb`, `run` is what happened since, and the timer
has not been released. -/
def Lives (self : TimerPtr) (cb : Callback) (recurring : Bool) (run : List (Event × List TimerPtr))
    (t : State) : Prop :=
  ∃ s ms now added, machine.Reachable s ∧ Step s (.addTimer self ms (some cb) recurring now) added ∧
    (machine.observe handedOut).Path added run t ∧ ∀ label ∈ run, label.1 ≠ .release self

/-- The books on one timer. -/
structure Account (timer : TimerPtr) (cb : Callback) (recurring : Bool)
    (run : List (Event × List TimerPtr)) (t : State) : Prop where
  ordered : Ordered t.manager
  live : t.manager.live timer = true
  recurs : (t.manager.heap timer).recurring = recurring
  armed : (t.manager.heap timer).cb = if timer ∈ t.manager.timers then some cb else none
  balance : (if timer ∈ t.manager.timers then 1 else 0) +
    (if recurring then 0 else handOuts timer run) + cancellations timer run = 1

theorem handOuts_snoc (run : List (Event × List TimerPtr)) (label : Event × List TimerPtr) :
    handOuts self (run ++ [label]) = handOuts self run + label.2.count self := by
  simp [handOuts]

theorem cancellations_snoc (run : List (Event × List TimerPtr)) (label : Event × List TimerPtr) :
    cancellations self (run ++ [label]) =
      cancellations self run + if label.1.cancels self then 1 else 0 := by
  rw [cancellations, List.countP_append, List.countP_singleton, ← cancellations]

theorem Account.step {cb : Callback} {recurring : Bool} {run : List (Event × List TimerPtr)}
    (account : Account self cb recurring run s) (step : Step s event t)
    (notReleased : event ≠ .release self) :
    Account self cb recurring (run ++ [(event, handedOut s event)]) t := by
  obtain ⟨carries, fate⟩ := account.ordered.fate step account.live notReleased
  refine ⟨account.ordered.step step, carries.live, carries.recurring.trans account.recurs, ?_, ?_⟩
  · cases fate with
    | kept mem cb _ _ => simp only [cb, mem, account.armed]
    | cancelled mem cb _ _ => rw [cb, if_neg mem]
    | handed once _ mem cb =>
      have taken : self ∈ handedOut s event := List.count_pos_iff.mp (once ▸ Nat.one_pos)
      have present := handedOut_subset s event taken
      rw [cb, account.armed, if_pos present]
      simp only [mem]
  · have balance := account.balance
    rw [handOuts_snoc, cancellations_snoc]
    cases fate with
    | kept mem _ notCancelled notHanded =>
      rw [if_neg (mt Event.cancels_iff.mp notCancelled), List.count_eq_zero_of_not_mem notHanded]
      simpa only [mem, Nat.add_zero, Bool.false_eq_true, if_false] using balance
    | cancelled mem _ armed isCancel =>
      have present : self ∈ s.manager.timers := by
        by_contra absent
        simp [account.armed, absent] at armed
      rw [if_pos present] at balance
      subst isCancel
      rw [if_neg mem, if_pos (Event.cancels_iff.mpr rfl)]
      change 0 + (if recurring then 0 else handOuts self run + 0) + (cancellations self run + 1) = 1
      rw [Nat.add_zero]
      omega
    | handed once notCancelled mem _ =>
      have taken : self ∈ handedOut s event := List.count_pos_iff.mp (once ▸ Nat.one_pos)
      have present := handedOut_subset s event taken
      rw [if_pos present] at balance
      rw [if_neg (mt Event.cancels_iff.mp notCancelled), once]
      cases recurring with
      | true => simpa [mem, account.recurs] using balance
      | false =>
        simp only [mem, account.recurs, Bool.false_eq_true, if_false] at balance ⊢
        omega

/-- The books stay right for as long as the timer is not released. -/
theorem Account.path {cb : Callback} {recurring : Bool} {run later : List (Event × List TimerPtr)}
    (account : Account self cb recurring run s) (path : (machine.observe handedOut).Path s later t)
    (unreleased : ∀ label ∈ later, label.1 ≠ .release self) :
    Account self cb recurring (run ++ later) t := by
  induction path generalizing run with
  | nil => rwa [List.append_nil]
  | @cons s mid t label rest step _ ih =>
    obtain ⟨event, handed⟩ := label
    obtain ⟨step, observed⟩ := step
    obtain rfl : handedOut s event = handed := observed
    obtain ⟨notReleased, unreleased⟩ := List.forall_mem_cons.mp unreleased
    rw [List.append_cons]
    exact ih (account.step step notReleased) unreleased

/-- A timer that has left the set is not handed out any more. -/
theorem Account.dead {cb : Callback} {recurring : Bool} {run later : List (Event × List TimerPtr)}
    (account : Account self cb recurring run s) (absent : self ∉ s.manager.timers)
    (path : (machine.observe handedOut).Path s later t)
    (unreleased : ∀ label ∈ later, label.1 ≠ .release self) :
    self ∉ t.manager.timers ∧ handOuts self later = 0 := by
  induction path generalizing run with
  | nil => exact ⟨absent, rfl⟩
  | @cons s mid t label rest step _ ih =>
    obtain ⟨event, handed⟩ := label
    obtain ⟨step, observed⟩ := step
    obtain rfl : handedOut s event = handed := observed
    obtain ⟨notReleased, unreleased⟩ := List.forall_mem_cons.mp unreleased
    have notHanded : self ∉ handedOut s event := mt (handedOut_subset s event) absent
    have gone : self ∉ mid.manager.timers := by
      cases (account.ordered.fate step account.live notReleased).2 with
      | kept mem _ _ _ => rwa [mem]
      | cancelled mem _ _ _ => exact mem
      | handed once _ _ _ => exact absurd (List.count_pos_iff.mp (once ▸ Nat.one_pos)) notHanded
    obtain ⟨stays, none⟩ := ih (account.step step notReleased) gone unreleased
    refine ⟨stays, ?_⟩
    rw [handOuts, List.flatMap_cons, List.count_append, List.count_eq_zero_of_not_mem notHanded, Nat.zero_add]
    exact none

theorem Lives.account {cb : Callback} {recurring : Bool} {run : List (Event × List TimerPtr)}
    (lives : Lives self cb recurring run t) : Account self cb recurring run t := by
  obtain ⟨s, ms, now, added, reached, add, path, unreleased⟩ := lives
  have start : Account self cb recurring [] added := by
    cases add with
    | addTimer fresh =>
      have ordered := reachable_ordered reached
      have heap : (s.manager.addTimer self ms (some cb) recurring now).manager.heap self =
          Timer.new ms (some cb) recurring now := by
        rw [addTimer_heap, Function.update_self]
      have live : (s.manager.addTimer self ms (some cb) recurring now).manager.live self = true := by
        rw [addTimer_live, Function.update_self]
      have present := (ordered.mem_addTimer fresh ms (some cb) recurring now).mpr (Or.inl rfl)
      refine ⟨ordered.addTimer fresh _ _ _ _, live, ?_, ?_, ?_⟩
      · rw [heap]; rfl
      · rw [heap, if_pos present]; rfl
      · rw [if_pos present]
        cases recurring <;> rfl
  exact start.path path unreleased

/-- `m_cb` is non-empty as long as the timer is in the set. -/
theorem Account.armed_iff {cb : Callback} {recurring : Bool} {run : List (Event × List TimerPtr)}
    (account : Account self cb recurring run t) :
    self ∈ t.manager.timers ↔ (t.manager.heap self).cb.isSome := by
  rw [account.armed]
  split_ifs with present
  · exact iff_of_true present rfl
  · exact iff_of_false present Bool.false_ne_true

/-- A timer created with a callback is in the set exactly as long as it has the callback. If it does not
recur it is pending, handed out once or cancelled once, and only one of these; if it recurs it is pending
or cancelled once. Behind a `cancel` that returned true nothing hands it out, and it leaves the set in no
other way than by such a `cancel` or, unless it recurs, by being handed out. -/
theorem timer_life_cycle (self : TimerPtr) (cb : Callback) (recurring : Bool)
    (run : List (Event × List TimerPtr)) (t : State) (lives : Lives self cb recurring run t) :
    (self ∈ t.manager.timers ↔ (t.manager.heap self).cb.isSome) ∧
    (if self ∈ t.manager.timers then 1 else 0) + (if recurring then 0 else handOuts self run) +
      cancellations self run = 1 ∧
    (∀ before label later, run = before ++ label :: later → label.1 = .cancel self true →
      handOuts self later = 0) ∧
    (∀ event after, Step t event after → self ∈ t.manager.timers → self ∉ after.manager.timers →
      event = .cancel self true ∨ recurring = false ∧ self ∈ handedOut t event) ∧
    (∀ thread probe cbs after, Step t (.listExpiredCbLocked thread probe cbs) after →
      cbs = (handedOut t (.listExpiredCbLocked thread probe cbs)).map fun a => (t.manager.heap a).cb) := by
  have account := lives.account
  refine ⟨account.armed_iff, account.balance, ?_, ?_, ?_⟩
  · rintro before label later rfl isCancel
    obtain ⟨s, ms, now, added, reached, add, path, unreleased⟩ := lives
    obtain ⟨mid, left, right⟩ := Machine.Path.append_iff.mp path
    obtain ⟨after, step, right⟩ := Machine.Path.cons_iff.mp right
    obtain ⟨unreleasedBefore, unreleased⟩ := List.forall_mem_append.mp unreleased
    obtain ⟨notReleased, unreleased⟩ := List.forall_mem_cons.mp unreleased
    have reached : Account self cb recurring before mid :=
      Lives.account ⟨s, ms, now, added, reached, add, left, unreleasedBefore⟩
    have next := reached.step step.1 notReleased
    have gone : self ∉ after.manager.timers := by
      cases (reached.ordered.fate step.1 reached.live notReleased).2 with
      | kept _ _ notCancelled _ => exact absurd isCancel notCancelled
      | cancelled mem _ _ _ => exact mem
      | handed _ notCancelled _ _ => exact absurd isCancel notCancelled
    exact (next.dead gone right unreleased).2
  · intro event after step present gone
    have notReleased : event ≠ .release self := by
      rintro rfl
      cases step with
      | release _ absent _ => exact absent present
    cases (account.ordered.fate step account.live notReleased).2 with
    | kept mem _ _ _ => exact absurd (mem.mpr present) gone
    | cancelled _ _ _ isCancel => exact Or.inl isCancel
    | handed once _ mem _ =>
      refine Or.inr ⟨?_, List.count_pos_iff.mp (once ▸ Nat.one_pos)⟩
      rw [mem, account.recurs] at gone
      simpa using gone
  · intro thread probe cbs after step
    cases step with
    | listExpiredCbLocked entered fresh ran =>
      rw [handedOut, entered]
      exact (account.ordered.handsOut ran).cbs

private theorem newManager : machine.Reachable ⟨new 0 fun _ => Timer.probe 0, fun _ => .idle⟩ :=
  .init ⟨_, _, rfl⟩

/-- A timer of ten milliseconds is looked at twenty milliseconds later. -/
private theorem fired : ∃ run t, Lives 5 1 false run t ∧ handOuts 5 run = 1 ∧ t.manager.timers = [] ∧
    (t.manager.heap 5).ms = 10 := by
  let added : State :=
    ⟨(TimerManager.addTimer 5 10 (some 1) false 0 (new 0 fun _ => Timer.probe 0)).manager, fun _ => .idle⟩
  have enters : Step added (.listExpiredCbEnter 0 20) (added.enter 0 (.checked 20)) :=
    .listExpiredCbEnter rfl (by decide)
  have expires := @Step.listExpiredCbLocked (added.enter 0 (.checked 20)) 0 20 7 [some 1] _ rfl rfl rfl
  refine ⟨[(.listExpiredCbEnter 0 20, []), (.listExpiredCbLocked 0 7 [some 1], [5])], _,
    ⟨_, 10, 0, added, newManager, .addTimer rfl, .cons ⟨enters, rfl⟩ (.cons ⟨expires, rfl⟩ (.nil _)),
      by simp⟩, rfl, rfl, rfl⟩

/-- A timer that has fired is in none of the other two states. -/
theorem timer_life_cycle_fired : ∃ run t, Lives 5 1 false run t ∧ handOuts 5 run = 1 ∧
    (t.manager.heap 5).cb = none ∧ cancellations 5 run = 0 := by
  obtain ⟨run, t, lives, once, empty, _⟩ := fired
  obtain ⟨armed, balance, _⟩ := timer_life_cycle 5 1 false run t lives
  refine ⟨run, t, lives, once, ?_, ?_⟩
  · simpa [empty] using armed
  · simpa [empty, once] using balance

/-! ## What the operations answer -/

/-- The answer is whether the timer was pending, and a refusal changes nothing. -/
def Reports (self : TimerPtr) (m : TimerManager) (locked : Locked) : Prop :=
  (locked.result = true ↔ self ∈ m.timers) ∧ (locked.result = false → locked.manager = m)

/-- The same, and the timer is pending behind an answer of true. -/
def Rearms (self : TimerPtr) (m : TimerManager) (locked : Locked) : Prop :=
  Reports self m locked ∧ (locked.result = true → self ∈ locked.manager.timers)

theorem Relinks.rearms {m : TimerManager} {locked : Locked} (relinks : Relinks self m locked)
    (armed : self ∈ m.timers ↔ (m.heap self).cb.isSome) : Rearms self m locked := by
  have answer : locked.result = true ↔ self ∈ m.timers :=
    relinks.result.trans (and_iff_right_of_imp armed.mp)
  exact ⟨⟨answer, relinks.unchanged⟩, fun done => (relinks.mem self).mpr (answer.mp done)⟩

/-- `cancel`, `refresh` and the locked part of `reset` report the truth about every timer created with
a callback. `reset` does so exactly on a timer that is pending, or when it is asked for another delay
or for a delay from now on: asked for the delay a dead timer already has, it answers true. -/
theorem operations_report (self : TimerPtr) (cb : Callback) (recurring : Bool)
    (run : List (Event × List TimerPtr)) (t : State) (lives : Lives self cb recurring run t) :
    Reports self t.manager (t.manager.cancel self) ∧
    (∀ now, Rearms self t.manager (t.manager.refresh self now)) ∧
    (∀ ms fromNow now, Rearms self t.manager (t.manager.resetLocked self ms fromNow now)) ∧
    ∀ ms fromNow now, Rearms self t.manager (t.manager.reset self ms fromNow now) ↔
      self ∈ t.manager.timers ∨ ms ≠ (t.manager.heap self).ms ∨ fromNow = true := by
  have account := lives.account
  have armed := account.armed_iff
  have locked (ms : BitVec 64) (fromNow : Bool) (now : BitVec 64) :
      Rearms self t.manager (t.manager.resetLocked self ms fromNow now) :=
    (account.ordered.resetLocked_relinks ms fromNow now).rearms armed
  refine ⟨?_, fun now => (account.ordered.refresh_relinks now).rearms armed, locked, ?_⟩
  · rcases cancel_cases t.manager self with ⟨none, left⟩ | ⟨some, result, _⟩
    · rw [left]
      refine ⟨iff_of_false Bool.false_ne_true ?_, fun _ => rfl⟩
      rw [armed, none]
      exact Bool.false_ne_true
    · exact ⟨iff_of_true result (armed.mpr some), fun failed => absurd (result.symm.trans failed) nofun⟩
  · intro ms fromNow now
    by_cases skips : t.manager.resetSkips self ms fromNow = true
    · rw [reset, if_pos skips]
      obtain ⟨sameMs, notNow⟩ : ms = (t.manager.heap self).ms ∧ fromNow = false := by
        simpa [resetSkips] using skips
      constructor
      · intro rearms
        exact Or.inl (rearms.1.1.mp rfl)
      · rintro (present | other | isNow)
        · exact ⟨⟨iff_of_true rfl present, fun _ => rfl⟩, fun _ => present⟩
        · exact absurd sameMs other
        · exact absurd (notNow.symm.trans isNow) Bool.false_ne_true
    · rw [reset, if_neg skips]
      refine iff_of_true (locked ms fromNow now) (Or.inr ?_)
      by_contra none
      obtain ⟨sameMs, notNow⟩ := not_or.mp none
      refine skips ?_
      simp [resetSkips, not_not.mp sameMs, notNow]

/-- A fired timer is asked for another delay, and says that it is not pending. -/
theorem operations_report_fired : ∃ run t, Lives 5 1 false run t ∧
    Rearms 5 t.manager (t.manager.reset 5 25 false 30) ∧ 5 ∉ t.manager.timers := by
  obtain ⟨run, t, lives, _, empty, delay⟩ := fired
  have reports := (operations_report 5 1 false run t lives).2.2.2 25 false 30
  refine ⟨run, t, lives, reports.mpr (Or.inr (Or.inl ?_)), by simp [empty]⟩
  rw [delay]
  decide

/-- A fired timer is asked for the delay it had, and says that it will fire. -/
theorem reset_of_fired_lies : ∃ run t, Lives 5 1 false run t ∧ 5 ∉ t.manager.timers ∧
    (t.manager.reset 5 10 false 30).result = true ∧
    5 ∉ (t.manager.reset 5 10 false 30).manager.timers := by
  obtain ⟨run, t, lives, _, empty, delay⟩ := fired
  have skips : t.manager.reset 5 10 false 30 = ⟨true, false, t.manager⟩ := by
    rw [reset, resetSkips, delay]
    rfl
  refine ⟨run, t, lives, by simp [empty], ?_⟩
  rw [skips]
  exact ⟨rfl, by simp [empty]⟩

end Sylar.TimerManager
