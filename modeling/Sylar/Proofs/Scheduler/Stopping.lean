import Sylar.Proofs.Scheduler.Accounting

/-! # When the stop condition stays true

The counter is lowered before a fiber that yielded `READY` is pushed again, and in between the fiber is
neither counted nor queued. If a worker stands there when `stopping()` holds, it makes it false again;
if none does, nothing in the pool can.
-/

namespace Sylar.Scheduler

variable {n : ℕ} {s t : Scheduler n} {w : Fin n}

/-- The counter is lowered, and a fiber that is `READY` is to be pushed. -/
def Location.pushing (fiber : FiberPtr → Fiber) : Location → Bool
  | .settling slot f => slot != .idle && (fiber f).state == .ready
  | .rescheduling _ => true
  | _ => false

/-- The code of a task executes. -/
def Location.inTask : Location → Bool
  | .executing slot _ => slot != .idle
  | _ => false

/-- A task is scheduled only by the code of a task that a worker executes. -/
def FromPool (s : Scheduler n) : Action n → Prop
  | .schedule _ => ∃ w, (s.worker w).location.inTask = true
  | _ => True

instance (s : Scheduler n) (action : Action n) : Decidable (FromPool s action) :=
  match action with
  | .schedule _ => inferInstanceAs (Decidable (∃ w, (s.worker w).location.inTask = true))
  | .work _ | .leave _ _ | .create | .stop => isTrue trivial

theorem Location.active_of_inTask {location : Location} (inTask : location.inTask = true) :
    location.active = true := by
  cases location <;> first | exact inTask | cases inTask

/-- The queue is empty and every worker is done with what it took from it. -/
structure AtRest (s : Scheduler n) : Prop where
  stops : s.stopping = true
  inactive : ∀ w, (s.worker w).location.active = false
  settled : ∀ w, (s.worker w).location.pushing s.fiber = false

theorem stopping_iff : s.stopping = true ↔ s.autoStop = true ∧ s.stopRequested = true ∧ s.fibers = [] ∧
    s.activeThreadCount = 0 := by
  simp only [stopping, Bool.and_eq_true, List.isEmpty_iff, beq_iff_eq, and_assoc]

/-- Nothing is to be pushed any more once no fiber has become `READY`. -/
theorem Location.pushing_eq_false {location : Location} {before after : FiberPtr → Fiber}
    (fibers : ∀ f, (after f).state = .ready → (before f).state = .ready)
    (settled : location.pushing before = false) : location.pushing after = false := by
  cases location with
  | settling slot f =>
    simp only [Location.pushing, Bool.and_eq_false_iff, beq_eq_false_iff_ne] at settled ⊢
    exact settled.imp_right (mt (fibers f))
  | rescheduling f => exact settled
  | _ => rfl

namespace AtRest

theorem fibers (rest : AtRest s) : s.fibers = [] := (stopping_iff.mp rest.stops).2.2.1

/-- A worker moves without pushing, and no fiber becomes `READY`. -/
theorem move (rest : AtRest s) {worker : Worker} (stops : t.stopping = s.stopping)
    (workers : t.worker = Function.update s.worker w worker)
    (fibers : ∀ f, (t.fiber f).state = .ready → (s.fiber f).state = .ready)
    (inactive : worker.location.active = false) (settled : worker.location.pushing t.fiber = false) :
    AtRest t where
  stops := stops.trans rest.stops
  inactive := by
    intro u
    rw [workers]
    rcases eq_or_ne u w with rfl | different
    · rw [Function.update_self, inactive]
    · rw [Function.update_of_ne different, rest.inactive]
  settled := by
    intro u
    rw [workers]
    rcases eq_or_ne u w with rfl | different
    · rw [Function.update_self, settled]
    · rw [Function.update_of_ne different]
      exact Location.pushing_eq_false fibers (rest.settled u)

/-- A changed fiber is not `READY` unless it was. -/
theorem ready_of_update {f g : FiberPtr} {fiber : Fiber}
    (kept : fiber.state = .ready → (s.fiber f).state = .ready)
    (ready : (Function.update s.fiber f fiber g).state = .ready) : (s.fiber g).state = .ready := by
  rcases eq_or_ne g f with rfl | different
  · rw [Function.update_self] at ready
    exact kept ready
  · rwa [Function.update_of_ne different] at ready

/-- The worker goes to a place where it has no task. -/
theorem goto (rest : AtRest s) {location : Location} (inactive : location.active = false)
    (settled : location.pushing s.fiber = false) : AtRest (s.goto w location) :=
  rest.move rfl (worker_goto w location s) (fun _ => id) inactive settled

theorem setGoto (rest : AtRest s) {location : Location} {f : FiberPtr} {fiber : Fiber}
    (kept : fiber.state = .ready → (s.fiber f).state = .ready) (inactive : location.active = false)
    (settled : location.pushing (Function.update s.fiber f fiber) = false) :
    AtRest ((s.setFiber f fiber).goto w location) :=
  rest.move rfl (worker_goto w location (s.setFiber f fiber)) (fun _ => ready_of_update kept) inactive
    settled

/-- A fiber that is not to be pushed leads on to no push. -/
theorem settle (rest : AtRest s) {slot : Slot} {f : FiberPtr}
    (located : (s.worker w).location = .settling slot f) :
    AtRest (s.goto w (Scheduler.settle slot f (s.fiber f))) := by
  have quiet := rest.settled w
  rw [located] at quiet
  have shape : Scheduler.settle slot f (s.fiber f) ∈
      [Location.scan, .holding f, .recycling f] := by
    unfold Scheduler.settle
    cases slot with
    | idle => dsimp only; split_ifs <;> simp
    | task =>
      have notReady : (s.fiber f).state ≠ .ready := by simpa [Location.pushing] using quiet
      dsimp only
      rw [if_neg notReady]
      split_ifs <;> simp
    | cb =>
      have notReady : (s.fiber f).state ≠ .ready := by simpa [Location.pushing] using quiet
      dsimp only
      rw [if_neg notReady]
      split_ifs <;> simp
  generalize Scheduler.settle slot f (s.fiber f) = location at shape
  simp only [List.mem_cons, List.not_mem_nil, or_false] at shape
  rcases shape with rfl | rfl | rfl
  · exact rest.goto rfl rfl
  · exact rest.goto rfl rfl
  · exact rest.goto rfl rfl

theorem work (rest : AtRest s) (works : Works s w t) : AtRest t := by
  have inactive := rest.inactive w
  have quiet := rest.settled w
  cases works with
  | start located => exact rest.move rfl rfl (fun _ => ready_of_update fun ready => by cases ready) rfl rfl
  | take located taken =>
    rw [found, rest.fibers] at taken
    cases taken
  | rest located _ => exact rest.goto rfl rfl
  | skip located _ => rw [located] at inactive; cases inactive
  | pick located _ => rw [located] at inactive; cases inactive
  | reuse located _ _ => rw [located] at inactive; cases inactive
  | renew located _ => rw [located] at inactive; cases inactive
  | drop located => rw [located] at inactive; cases inactive
  | exit located _ _ => exact rest.move rfl rfl (fun _ => id) rfl rfl
  | idle located _ _ => exact rest.move rfl (worker_goto _ _ _) (fun _ => id) rfl rfl
  | enter located swapIn =>
    rw [located] at inactive
    cases swapIn_ok swapIn
    exact rest.setGoto (fun ready => by cases ready) inactive rfl
  | resume located =>
    rw [located] at inactive
    exact rest.setGoto id inactive rfl
  | suspend located =>
    rw [located] at inactive
    exact rest.setGoto id inactive rfl
  | wake located => exact rest.move rfl (worker_goto _ _ _) (fun _ => id) rfl rfl
  | @finish slot f located busy =>
    rw [located] at inactive
    exact absurd (by simpa [Location.active] using inactive) busy
  | settle located => exact rest.settle located
  | reschedule located => rw [located] at quiet; cases quiet
  | hold located => exact rest.setGoto (fun ready => by cases ready) rfl rfl
  | recycle located reset =>
    cases reset_ok reset
    exact rest.move rfl rfl (fun _ => ready_of_update fun ready => by cases ready) rfl rfl

theorem step (rest : AtRest s) {action : Action n} (pool : FromPool s action)
    (step : (machine n).Step s action t) : AtRest t := by
  have ran := perform_of_step step
  cases action with
  | work w => exact rest.work (work_cases ran)
  | leave w how =>
    obtain ⟨slot, f, fiber, located, left, idle, rfl⟩ := leave_cases ran
    have inactive := rest.inactive w
    rw [located] at inactive
    have isIdle : slot = .idle := by simpa [Location.active] using inactive
    subst isIdle
    refine rest.setGoto ?_ rfl rfl
    rcases idle rfl with rfl | ⟨rfl, -⟩
    · rw [Fiber.leave] at left
      split_ifs at left
      cases left
      intro ready
      cases ready
    · cases left
      intro ready
      cases ready
  | schedule ft =>
    obtain ⟨w, inTask⟩ := pool
    exact absurd ((rest.inactive w).symm.trans (Location.active_of_inTask inTask)) Bool.false_ne_true
  | create =>
    cases ran
    exact ⟨rest.stops, rest.inactive,
      fun w => Location.pushing_eq_false (fun _ => ready_of_update fun ready => by cases ready) (rest.settled w)⟩
  | stop =>
    cases ran
    obtain ⟨autoStop, stopRequested, fibers, count⟩ := stopping_iff.mp rest.stops
    rw [if_pos autoStop]
    exact ⟨stopping_iff.mpr ⟨autoStop, rfl, fibers, count⟩, rest.inactive, rest.settled⟩

end AtRest

/-- A worker that is about to push a fiber does so. -/
theorem exists_push (pushing : (s.worker w).location.pushing s.fiber = true) :
    ∃ actions t, ((machine n).restrict FromPool).Path s actions t ∧ t.fibers ≠ [] := by
  have last {s : Scheduler n} {f : FiberPtr} (located : (s.worker w).location = .rescheduling f) :
      ((machine n).restrict FromPool).Step s (.work w) ((s.schedule ⟨.fiber f, -1⟩).goto w .scan) := by
    refine ⟨trivial, ?_⟩
    change (s.work w).toOption = _
    rw [Scheduler.work, located]
    rfl
  have pushed (s : Scheduler n) (f : FiberPtr) : ((s.schedule ⟨.fiber f, -1⟩).goto w .scan).fibers ≠ [] :=
    List.append_ne_nil_of_right_ne_nil _ (List.cons_ne_nil _ _)
  cases located : (s.worker w).location with
  | settling slot f =>
    rw [located] at pushing
    simp only [Location.pushing, Bool.and_eq_true, bne_iff_ne, beq_iff_eq] at pushing
    obtain ⟨busy, ready⟩ := pushing
    have seen : Scheduler.settle slot f (s.fiber f) = .rescheduling f := by
      unfold Scheduler.settle
      cases slot with
      | idle => exact absurd rfl busy
      | task => exact if_pos ready
      | cb => exact if_pos ready
    have first : ((machine n).restrict FromPool).Step s (.work w) (s.goto w (.rescheduling f)) := by
      refine ⟨trivial, ?_⟩
      change (s.work w).toOption = _
      rw [Scheduler.work, located]
      dsimp only
      rw [seen]
      rfl
    have there : ((s.goto w (.rescheduling f)).worker w).location = .rescheduling f := by
      rw [worker_goto, Function.update_self]
    exact ⟨_, _, .cons first (.cons (last there) (.nil _)), pushed _ _⟩
  | rescheduling f =>
    exact ⟨_, _, .cons (last located) (.nil _), pushed _ _⟩
  | _ => rw [located] at pushing; cases pushing

/-- Let `stopping()` hold, and let nothing be scheduled any more but by tasks that run. Then it goes on
holding, with nothing queued and no worker at a task, exactly if no worker stands between its decrement
and the push of a fiber that yielded `READY`. -/
theorem stopping_stable_iff (s : Scheduler n) (reached : (machine n).Reachable s)
    (stops : s.stopping = true) :
    (∀ actions t, ((machine n).restrict FromPool).Path s actions t →
      t.stopping = true ∧ t.fibers = [] ∧ ∀ w, (t.worker w).location.active = false) ↔
    ∀ w, (s.worker w).location.pushing s.fiber = false := by
  constructor
  · intro stable w
    by_contra pushing
    obtain ⟨actions, t, path, queued⟩ := exists_push (Bool.eq_true_of_not_eq_false pushing)
    exact queued (stable actions t path).2.1
  · intro settled actions t path
    have start : AtRest s := ⟨stops, inactive_of_stopping reached stops, settled⟩
    have kept (s : Scheduler n) (action : Action n) (t : Scheduler n) (rest : AtRest s)
        (step : ((machine n).restrict FromPool).Step s action t) : AtRest t := rest.step step.1 step.2
    have rest : AtRest t := path.preserves kept start
    exact ⟨rest.stops, rest.fibers, rest.inactive⟩

/-- A fiber is held after `stop`, and the condition stays true. -/
theorem stopping_stable_held : ∃ s, (machine 2).Reachable s ∧ s.stopping = true ∧
    ∀ actions t, ((machine 2).restrict FromPool).Path s actions t → t.stopping = true := by
  have shown : (endOf (oneRunning ++ [.stop, .stop, .leave 0 .yieldToHold, .work 0, .work 0])).map
      (fun s => decide (s.stopping = true ∧ ∀ w, (s.worker w).location.pushing s.fiber = false)) =
      some true := by decide +kernel
  obtain ⟨s, path, facts⟩ := Machine.Path.exists_ofNext (· = started) shown
  obtain ⟨stops, settled⟩ := of_decide_eq_true facts
  have reached : (machine 2).Reachable s := ⟨started, _, rfl, path⟩
  exact ⟨s, reached, stops, fun actions t path =>
    ((stopping_stable_iff s reached stops).mpr settled actions t path).1⟩

attribute [local instance] two_workers

/-- Worker 0 runs fiber 3, `stop` is called, and the fiber yields and is to go on later. -/
def readyAfterStop : List (Action 2) :=
  oneRunning ++ [.stop, .stop, .leave 0 .yieldToReady, .work 0, .work 0]

/-- Worker 1 finds `stopping()` true and leaves `run`, and worker 0 pushes the fiber. -/
def pushedAfterExit : List (Action 2) :=
  [.work 1, .work 1, .work 1, .work 1, .leave 1 .finish, .work 1, .work 1, .work 1, .work 1, .work 1,
    .work 0, .work 0]

/-- The condition holds and one worker leaves on it; then a fiber is queued, and it holds no longer. -/
theorem stopping_not_stable : ∃ s t, (machine 2).Reachable s ∧ s.stopping = true ∧
    ((machine 2).restrict FromPool).Path s pushedAfterExit t ∧ (t.worker 1).location = .exited ∧
    t.fibers = [⟨.fiber 3, -1⟩] ∧ t.stopping = false := by
  have shown : (endOf readyAfterStop).map
      (fun s => (s.stopping, (pushedAfterExit.foldlM (fun s action =>
        if FromPool s action then (s.perform action).toOption else none) s).map
          fun t => ((t.worker 1).location, t.fibers, t.stopping))) =
      some (true, some (.exited, [⟨.fiber 3, -1⟩], false)) := by decide +kernel
  obtain ⟨s, path, facts⟩ := Machine.Path.exists_ofNext (· = started) shown
  obtain ⟨stops, later⟩ := Prod.mk.inj facts
  obtain ⟨t, path', facts'⟩ := Machine.Path.exists_ofNext (· = started) later
  rw [← Machine.restrict_ofNext] at path'
  simp only [Prod.mk.injEq] at facts'
  exact ⟨s, t, ⟨started, readyAfterStop, rfl, path⟩, stops, path', facts'⟩

end Sylar.Scheduler
