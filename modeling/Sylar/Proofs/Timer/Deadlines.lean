import Sylar.Proofs.Timer.Exact

/-! # What the deadline of a timer is counted from

The clock value a deadline was computed from is stored nowhere; `reset` finds it again as the deadline
less the delay. Each critical section either starts one timer anew from a clock value, gives it another
delay while the difference stays, or changes neither. Which of these it was is observed from the side of
one timer, and a deadline is the last start of its run and the delay of now.
-/

namespace Sylar.TimerManager

variable {m : TimerManager} {now : BitVec 64} {self other a : TimerPtr} {s t : State} {event : Event}

/-- A change of the deadline of one timer. -/
inductive Retiming where
  /-- Counted from this clock value on. -/
  | started (now : BitVec 64)
  /-- Counted from where it was, with this delay. -/
  | delayed (ms : BitVec 64)
deriving DecidableEq

/-- What a critical section that succeeds does to the deadline of `self`. -/
def retiming (self : TimerPtr) (s : State) : Event → Option Retiming
  | .addTimer other _ _ _ now => if other = self then some (.started now) else none
  | .refresh other now result => if other = self ∧ result = true then some (.started now) else none
  | .resetSkip other ms _ => if other = self then some (.delayed ms) else none
  | .resetLocked thread now result =>
      match s.phase thread with
      | .resetting other ms fromNow =>
          if other = self ∧ result = true then some (if fromNow then .started now else .delayed ms)
          else none
      | _ => none
  | .listExpiredCbLocked thread probe _ =>
      match s.phase thread with
      | .checked now =>
          if self ∈ s.manager.expired now probe ∧ (s.manager.heap self).recurring = true then
            some (.started now)
          else none
      | _ => none
  | _ => none

/-- The clock values the timer was started from in the run. -/
def starts (run : List (Event × Option Retiming)) : List (BitVec 64) :=
  run.filterMap fun label =>
    match label.2 with
    | some (.started now) => some now
    | _ => none

/-- The delays it was given while it ran on. -/
def delays (run : List (Event × Option Retiming)) : List (BitVec 64) :=
  run.filterMap fun label =>
    match label.2 with
    | some (.delayed ms) => some ms
    | _ => none

/-! ## One critical section -/

/-- The timer is pending with a callback, so that `reset` finds it. -/
def Armed (self : TimerPtr) (m : TimerManager) : Prop := (m.heap self).cb.isSome ∧ self ∈ m.timers

/-- Nothing comes to life. -/
structure Persists (timer : TimerPtr) (m after : TimerManager) : Prop where
  live : after.live timer = true → m.live timer = true
  armed : Armed timer after → Armed timer m

/-- A change of the deadline of `self`, told from the managers around it. -/
inductive Retimes (self : TimerPtr) (m after : TimerManager) : Option Retiming → Prop
  | started {now : BitVec 64} (next : (after.heap self).next = now + (after.heap self).ms) :
      Retimes self m after (some (.started now))
  | delayed {ms : BitVec 64} (persists : Persists self m after) (delay : (after.heap self).ms = ms)
      (next : (after.heap self).next = (m.heap self).next - (m.heap self).ms + ms)
      (armed : ms ≠ (m.heap self).ms → Armed self m) : Retimes self m after (some (.delayed ms))
  | untouched (persists : Persists self m after) (delay : (after.heap self).ms = (m.heap self).ms)
      (next : (after.heap self).next = (m.heap self).next) : Retimes self m after none

theorem refresh_heap (self : TimerPtr) (now : BitVec 64) (m : TimerManager) :
    (m.refresh self now).manager.heap = if (m.refresh self now).result = true then
      Function.update m.heap self { m.heap self with next := now + (m.heap self).ms } else m.heap := by
  unfold refresh
  dsimp only
  split
  · rfl
  · split
    · rfl
    · rw [addTimerLocked_heap]
      rfl

theorem resetLocked_heap (self : TimerPtr) (ms : BitVec 64) (fromNow : Bool) (now : BitVec 64)
    (m : TimerManager) : (m.resetLocked self ms fromNow now).manager.heap =
      if (m.resetLocked self ms fromNow now).result = true then Function.update m.heap self
        { m.heap self with
          ms := ms
          next := (if fromNow then now else (m.heap self).next - (m.heap self).ms) + ms }
      else m.heap := by
  unfold resetLocked
  dsimp only
  split
  · rfl
  · split
    · rfl
    · rw [addTimerLocked_heap]
      rfl

theorem Relinks.persists {locked : Locked} (relinks : Relinks other m locked) :
    Persists self m locked.manager where
  live := fun isLive => by rwa [relinks.live] at isLive
  armed := fun both => ⟨by rw [← relinks.cb]; exact both.1, (relinks.mem self).mp both.2⟩

theorem Ordered.retimes_refresh (ordered : Ordered m) (now : BitVec 64) :
    Retimes self m (m.refresh other now).manager
      (if other = self ∧ (m.refresh other now).result = true then some (.started now) else none) := by
  have persists : Persists self m _ := (ordered.refresh_relinks now : Relinks other m _).persists
  have heap := refresh_heap other now m
  cases result : (m.refresh other now).result with
  | false =>
    rw [result, if_neg Bool.false_ne_true] at heap
    rw [if_neg fun both => Bool.false_ne_true both.2]
    exact .untouched persists (by rw [heap]) (by rw [heap])
  | true =>
    rw [result, if_pos rfl] at heap
    rcases eq_or_ne other self with rfl | different
    · rw [if_pos ⟨rfl, rfl⟩]
      exact .started (by rw [heap, Function.update_self])
    · rw [if_neg fun both => different both.1]
      refine .untouched persists ?_ ?_ <;> rw [heap, Function.update_of_ne different.symm]

theorem Ordered.retimes_resetLocked (ordered : Ordered m) (ms : BitVec 64) (fromNow : Bool)
    (now : BitVec 64) : Retimes self m (m.resetLocked other ms fromNow now).manager
      (if other = self ∧ (m.resetLocked other ms fromNow now).result = true then
        some (if fromNow then .started now else .delayed ms) else none) := by
  have relinks := (ordered.resetLocked_relinks ms fromNow now : Relinks other m _)
  have persists : Persists self m _ := relinks.persists
  have heap := resetLocked_heap other ms fromNow now m
  cases result : (m.resetLocked other ms fromNow now).result with
  | false =>
    rw [result, if_neg Bool.false_ne_true] at heap
    rw [if_neg fun both => Bool.false_ne_true both.2]
    exact .untouched persists (by rw [heap]) (by rw [heap])
  | true =>
    rw [result, if_pos rfl] at heap
    rcases eq_or_ne other self with rfl | different
    · rw [if_pos ⟨rfl, rfl⟩]
      have armed : Armed other m := relinks.result.mp result
      cases fromNow with
      | true => exact .started (by rw [heap, Function.update_self]; rfl)
      | false =>
        exact .delayed persists (by rw [heap, Function.update_self])
          (by rw [heap, Function.update_self]; rfl) fun _ => armed
    · rw [if_neg fun both => different both.1]
      refine .untouched persists ?_ ?_ <;> rw [heap, Function.update_of_ne different.symm]

theorem Ordered.retimes_cancel (ordered : Ordered m) :
    Retimes self m (m.cancel other).manager none := by
  rcases cancel_cases m other with ⟨_, left⟩ | ⟨armed, _, heap, live, _⟩
  · rw [left]
    exact .untouched ⟨id, id⟩ rfl rfl
  · have persists : Persists self m (m.cancel other).manager := by
      refine ⟨fun isLive => by rwa [live] at isLive, fun both => ?_⟩
      obtain ⟨member, different⟩ := (ordered.mem_cancel armed).mp both.2
      refine ⟨?_, member⟩
      rw [← Function.update_of_ne different { m.heap other with cb := none } m.heap, ← heap]
      exact both.1
    rcases eq_or_ne self other with rfl | different
    · refine .untouched persists ?_ ?_ <;> rw [heap, Function.update_self]
    · refine .untouched persists ?_ ?_ <;> rw [heap, Function.update_of_ne different]

theorem Ordered.retimes_listExpiredCb (ordered : Ordered m) {probe : TimerPtr}
    {cbs : List (Option Callback)} {after : TimerManager}
    (ran : m.listExpiredCbLocked now probe = .ok (cbs, after)) :
    Retimes self m after
      (if self ∈ m.expired now probe ∧ (m.heap self).recurring = true then some (.started now)
        else none) := by
  have hands := ordered.handsOut ran
  have left := ordered.listExpiredCbLocked_heap ran self
  have persists : Persists self m after := by
    refine ⟨fun isLive => by rwa [hands.live] at isLive, fun both => ?_⟩
    obtain ⟨armed, member⟩ := both
    refine ⟨?_, ((hands.mem self).mp member).1⟩
    rw [hands.cb] at armed
    split_ifs at armed
    · exact absurd armed Bool.false_ne_true
    · exact armed
  by_cases taken : self ∈ m.expired now probe
  · rw [if_pos taken, Timer.expire] at left
    split_ifs with again
    · rw [if_pos again.2] at left
      exact .started (by rw [left])
    · rw [if_neg fun recurs => again ⟨taken, recurs⟩] at left
      exact .untouched persists (by rw [left]) (by rw [left])
  · rw [if_neg taken] at left
    rw [if_neg fun both => taken both.1]
    exact .untouched persists (by rw [left]) (by rw [left])

/-- Every critical section does to the deadline of a timer what is observed of it. -/
theorem Ordered.retimes (ordered : Ordered s.manager) (step : Step s event t) :
    Retimes self s.manager t.manager (retiming self s event) := by
  cases step with
  | @addTimer other ms cb recurring now fresh =>
    have heap := addTimer_heap s.manager other ms cb recurring now
    have live := addTimer_live s.manager other ms cb recurring now
    unfold retiming
    dsimp only
    split_ifs with same
    · subst same
      exact .started (by rw [heap, Function.update_self]; rfl)
    · have different : self ≠ other := fun eq => same eq.symm
      refine .untouched ⟨fun isLive => ?_, fun both => ⟨?_, ?_⟩⟩ ?_ ?_
      · rwa [live, Function.update_of_ne different] at isLive
      · have armed := both.1
        rwa [heap, Function.update_of_ne different] at armed
      · exact ((ordered.mem_addTimer fresh ms cb recurring now).mp both.2).resolve_left different
      · rw [heap, Function.update_of_ne different]
      · rw [heap, Function.update_of_ne different]
  | cancel _ => exact ordered.retimes_cancel
  | refresh _ => exact ordered.retimes_refresh _
  | @resetSkip other ms fromNow _ skips =>
    unfold retiming
    dsimp only
    split_ifs with same
    · subst same
      obtain ⟨delay, _⟩ : ms = (s.manager.heap other).ms ∧ fromNow = false := by
        simpa [resetSkips] using skips
      exact .delayed ⟨id, id⟩ delay.symm (by rw [delay, BitVec.sub_add_cancel])
        fun different => absurd delay different
    · exact .untouched ⟨id, id⟩ rfl rfl
  | resetEnter _ _ _ => exact .untouched ⟨id, id⟩ rfl rfl
  | @resetLocked thread other ms fromNow now entered =>
    have observed : retiming self s (.resetLocked thread now
        (s.manager.resetLocked other ms fromNow now).result) =
          if other = self ∧ (s.manager.resetLocked other ms fromNow now).result = true then
            some (if fromNow then .started now else .delayed ms) else none := by
      unfold retiming
      dsimp only
      rw [entered]
    rw [observed]
    exact ordered.retimes_resetLocked ms fromNow now
  | getNextTimer =>
    rw [getNextTimer_manager]
    exact .untouched ⟨id, id⟩ rfl rfl
  | listExpiredCbEmpty _ => exact .untouched ⟨id, id⟩ rfl rfl
  | listExpiredCbEnter _ _ => exact .untouched ⟨id, id⟩ rfl rfl
  | @listExpiredCbLocked thread now probe cbs after entered _ ran =>
    have observed : retiming self s (.listExpiredCbLocked thread probe cbs) =
        if self ∈ s.manager.expired now probe ∧ (s.manager.heap self).recurring = true then
          some (.started now) else none := by
      unfold retiming
      dsimp only
      rw [entered]
    rw [observed]
    exact ordered.retimes_listExpiredCb ran
  | @release other _ _ _ =>
    refine .untouched ⟨fun isLive => ?_, id⟩ rfl rfl
    rcases eq_or_ne self other with rfl | different
    · exact absurd ((Function.update_self _ _ _).symm.trans isLive) Bool.false_ne_true
    · exact (Function.update_of_ne different _ _).symm.trans isLive

/-! ## Runs -/

theorem starts_snoc (run : List (Event × Option Retiming)) (label : Event × Option Retiming) :
    starts (run ++ [label]) = starts run ++ starts [label] := List.filterMap_append

theorem delays_snoc (run : List (Event × Option Retiming)) (label : Event × Option Retiming) :
    delays (run ++ [label]) = delays run ++ delays [label] := List.filterMap_append

/-- A live timer is due one delay behind its last start. -/
structure Started (timer : TimerPtr) (run : List (Event × Option Retiming)) (t : State) : Prop where
  ordered : Ordered t.manager
  next : t.manager.live timer = true →
    ∃ start, (starts run).getLast? = some start ∧ (t.manager.heap timer).next = start + (t.manager.heap timer).ms

theorem Started.step {run : List (Event × Option Retiming)} (started : Started self run s)
    (step : Step s event t) : Started self (run ++ [(event, retiming self s event)]) t where
  ordered := started.ordered.step step
  next := by
    intro isLive
    have retimes : Retimes self s.manager t.manager _ := started.ordered.retimes step
    rw [starts_snoc]
    generalize retiming self s event = change at retimes ⊢
    cases retimes with
    | @started now next => exact ⟨now, List.getLast?_concat, next⟩
    | delayed persists delay next _ =>
      obtain ⟨start, last, before⟩ := started.next (persists.live isLive)
      refine ⟨start, (congrArg List.getLast? (List.append_nil _)).trans last, ?_⟩
      rw [next, before, BitVec.add_sub_cancel, delay]
    | untouched persists delay next =>
      obtain ⟨start, last, before⟩ := started.next (persists.live isLive)
      refine ⟨start, (congrArg List.getLast? (List.append_nil _)).trans last, ?_⟩
      rw [next, before, delay]

/-- As long as a timer is not started anew its deadline less its delay stays, its delay is the last it
was given, and it is given another one only if it was pending with a callback to begin with. -/
structure Continues (timer : TimerPtr) (s : State) (run : List (Event × Option Retiming)) (t : State) :
    Prop where
  ordered : Ordered t.manager
  start : (t.manager.heap timer).next - (t.manager.heap timer).ms =
    (s.manager.heap timer).next - (s.manager.heap timer).ms
  delay : (t.manager.heap timer).ms = (delays run).getLast?.getD (s.manager.heap timer).ms
  armed : Armed timer t.manager → Armed timer s.manager
  changed : (t.manager.heap timer).ms ≠ (s.manager.heap timer).ms → Armed timer s.manager

theorem Continues.step {mid : State} {run : List (Event × Option Retiming)}
    (continues : Continues self s run mid) (step : Step mid event t)
    (unstarted : starts [(event, retiming self mid event)] = []) :
    Continues self s (run ++ [(event, retiming self mid event)]) t := by
  have retimes : Retimes self mid.manager t.manager _ := continues.ordered.retimes step
  have ordered := continues.ordered.step step
  generalize retiming self mid event = change at retimes unstarted ⊢
  cases retimes with
  | started _ => cases unstarted
  | @delayed ms persists delay next armed =>
    refine ⟨ordered, ?_, ?_, fun is => continues.armed (persists.armed is), fun different => ?_⟩
    · rw [next, delay, BitVec.add_sub_cancel, continues.start]
    · rw [delays_snoc, delay]
      exact (congrArg (Option.getD · _) List.getLast?_concat).symm
    · rw [delay] at different
      by_cases same : ms = (mid.manager.heap self).ms
      · exact continues.changed (same ▸ different)
      · exact continues.armed (armed same)
  | untouched persists delay next =>
    refine ⟨ordered, ?_, ?_, fun is => continues.armed (persists.armed is), fun different => ?_⟩
    · rw [next, delay, continues.start]
    · rw [delays_snoc, delay, continues.delay]
      exact congrArg (fun ms => (List.getLast? ms).getD _) (List.append_nil _).symm
    · rw [delay] at different
      exact continues.changed different

theorem Continues.path {mid : State} {run later : List (Event × Option Retiming)}
    (continues : Continues self s run mid) (path : (machine.observe (retiming self)).Path mid later t)
    (unstarted : starts later = []) : Continues self s (run ++ later) t := by
  induction path generalizing run with
  | nil => rwa [List.append_nil]
  | @cons mid next t label rest step _ ih =>
    obtain ⟨event, observed⟩ := label
    obtain ⟨step, same⟩ := step
    obtain rfl : retiming self mid event = observed := same
    obtain ⟨first, unstarted⟩ := List.append_eq_nil_iff.mp
      ((List.filterMap_append (l := [_])).symm.trans unstarted)
    rw [List.append_cons]
    exact ih (continues.step step first) unstarted

/-- What `reset` does to a timer that is asked to keep running. -/
theorem Ordered.reset_heap (ordered : Ordered m) {ms : BitVec 64}
    (armed : ms ≠ (m.heap self).ms → Armed self m) (now : BitVec 64) :
    (m.reset self ms false now).result = true ∧
    ((m.reset self ms false now).manager.heap self).ms = ms ∧
    ((m.reset self ms false now).manager.heap self).next = (m.heap self).next - (m.heap self).ms + ms := by
  unfold reset
  split
  · next skips =>
    have same : ms = (m.heap self).ms := by simpa [resetSkips] using skips
    exact ⟨rfl, same.symm, by rw [same, BitVec.sub_add_cancel]⟩
  · next goes =>
    have different : ms ≠ (m.heap self).ms := by simpa [resetSkips] using goes
    have done := (ordered.resetLocked_relinks ms false now).result.mpr (armed different)
    have heap := resetLocked_heap self ms false now m
    rw [done, if_pos rfl] at heap
    refine ⟨done, ?_, ?_⟩
    · rw [heap, Function.update_self]
    · rw [heap, Function.update_self]
      rfl

/-- A pending timer is due one delay behind the clock value it was last started from: when it was added,
refreshed, reset from then on or, if it recurs, taken by `listExpiredCb`. From any state of a run on,
as long as it is not started anew, the `reset`s that let it run on have the effect of the last one. -/
theorem deadline_counts_from_last_start (self : TimerPtr) (initial s : State)
    (run : List (Event × Option Retiming)) (isInit : machine.Init initial)
    (path : (machine.observe (retiming self)).Path initial run s) :
    (self ∈ s.manager.timers → ∃ start, (starts run).getLast? = some start ∧
      (s.manager.heap self).next = start + (s.manager.heap self).ms) ∧
    ∀ later t ms now, (machine.observe (retiming self)).Path s later t → starts later = [] →
      (delays later).getLast? = some ms →
      (s.manager.reset self ms false now).result = true ∧
      (t.manager.heap self).next = ((s.manager.reset self ms false now).manager.heap self).next ∧
      (t.manager.heap self).ms = ((s.manager.reset self ms false now).manager.heap self).ms := by
  have started : Started self run s := by
    have start : Started self [] initial := by
      obtain ⟨now, heap, rfl⟩ := isInit
      exact ⟨reachable_ordered (.init ⟨now, heap, rfl⟩), fun isLive => Bool.noConfusion isLive⟩
    refine path.history (P := fun run t => Started self run t) ?_ start
    rintro before s ⟨event, observed⟩ t started ⟨step, same⟩
    obtain rfl : retiming self s event = observed := same
    exact started.step step
  refine ⟨fun pending => started.next (started.ordered.live self pending), ?_⟩
  intro later t ms now path unstarted last
  have start : Continues self s [] s := ⟨started.ordered, rfl, rfl, id, fun different => absurd rfl different⟩
  have continues := start.path path unstarted
  have delay : (t.manager.heap self).ms = ms := by
    rw [continues.delay, List.nil_append, last]
    rfl
  have changed := continues.changed
  rw [delay] at changed
  obtain ⟨done, sameDelay, sameNext⟩ := started.ordered.reset_heap changed now
  refine ⟨done, ?_, delay.trans sameDelay.symm⟩
  rw [sameNext, ← continues.start, delay, BitVec.sub_add_cancel]

/-- A timer of ten milliseconds is given the ten again and then twenty-five of them. -/
theorem deadline_counts_from_last_start_twice : ∃ s t later, machine.Reachable s ∧
    (machine.observe (retiming 5)).Path s later t ∧ delays later = [10, 25] ∧
    (∃ start, (s.manager.heap 5).next = start + (s.manager.heap 5).ms) ∧
    (t.manager.heap 5).next = ((s.manager.reset 5 25 false 9).manager.heap 5).next := by
  let start : State := ⟨new 0 fun _ => Timer.probe 0, fun _ => .idle⟩
  let added : State := ⟨(TimerManager.addTimer 5 10 (some 1) false 0 start.manager).manager, start.phase⟩
  have isInit : machine.Init start := ⟨_, _, rfl⟩
  have adds : Step start (.addTimer 5 10 (some 1) false 0) added := .addTimer rfl
  have skips : Step added (.resetSkip 5 10 false) added := .resetSkip rfl rfl
  have enters := @Step.resetEnter added 0 5 25 false rfl rfl rfl
  have resets := @Step.resetLocked (added.enter 0 (.resetting 5 25 false)) 0 5 25 false 8 rfl
  have path : (machine.observe (retiming 5)).Path start [(_, some (.started 0))] added :=
    .cons ⟨adds, rfl⟩ (.nil _)
  have later : (machine.observe (retiming 5)).Path added
      [(_, some (.delayed 10)), (_, none), (_, some (.delayed 25))] _ :=
    .cons ⟨skips, rfl⟩ (.cons ⟨enters, rfl⟩ (.cons ⟨resets, rfl⟩ (.nil _)))
  obtain ⟨counts, continues⟩ := deadline_counts_from_last_start 5 start added _ isInit path
  obtain ⟨from0, _, next⟩ := counts (by decide)
  exact ⟨added, _, _, ⟨start, _, isInit, path.of_observe⟩, later, rfl, ⟨from0, next⟩,
    (continues _ _ 25 9 later rfl rfl).2.1⟩

end Sylar.TimerManager
