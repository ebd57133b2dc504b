import Sylar.Proofs.Scheduler.Accounting
import Sylar.Proofs.Scheduler.Exclusion

/-! # What is left when the workers have gone

A worker leaves `run` after a last look at the queue. Tasks for one thread may be left then, since the thread may
have gone before they were scheduled. Tasks for any thread are not: of all the last looks one is the last, and
nobody is in a fiber then.
-/

namespace Sylar.Scheduler

variable {n : ℕ} {s t : Scheduler n} {w : Fin n} {f : FiberPtr}

/-- The worker does not look at the queue again. -/
def finished (w : Fin n) (s : Scheduler n) : Bool :=
  match (s.worker w).location with
  | .exited => true
  | .idling => (s.worker w).idleFiber.any fun f => (s.fiber f).state == .term
  | _ => false

theorem finished_iff : s.finished w = true ↔ (s.worker w).location = .exited ∨
    (s.worker w).location = .idling ∧ ∃ f, (s.worker w).idleFiber = some f ∧ (s.fiber f).state = .term := by
  unfold finished
  split
  · next located => simp [located]
  · next located => simp [located, Option.any_eq_true]
  · next exited idling =>
    refine iff_of_false Bool.false_ne_true ?_
    rintro (located | ⟨located, -⟩)
    · exact exited located
    · exact idling located

/-- A task for any thread is not scheduled any more when all workers have finished. -/
def InTime (s : Scheduler n) : Action n → Prop
  | .schedule ft => ft.thread = -1 → ∃ w, s.finished w = false
  | _ => True

instance (s : Scheduler n) (action : Action n) : Decidable (InTime s action) :=
  match action with
  | .schedule ft => inferInstanceAs (Decidable (ft.thread = -1 → ∃ w, s.finished w = false))
  | .work _ | .leave _ _ | .create | .stop => isTrue trivial

/-! ## Fibers in state `EXEC` -/

/-- A fiber in state `EXEC` is run by a worker. -/
def Attended (s : Scheduler n) : Prop :=
  ∀ f, (s.fiber f).state = .exec → ∃ w, (s.worker w).location.running = some f

/-- A worker moves, and runs what it has made `EXEC`. -/
theorem Attended.move (attended : Attended s) {worker : Worker} (workers : t.worker = Function.update s.worker w worker)
    (exec : ∀ f, (t.fiber f).state = .exec → worker.location.running = some f ∨
      (s.fiber f).state = .exec ∧ (s.worker w).location.running ≠ some f) : Attended t := by
  intro f here
  rcases exec f here with own | ⟨before, other⟩
  · exact ⟨w, by rwa [workers, Function.update_self]⟩
  · obtain ⟨u, running⟩ := attended f before
    have different : u ≠ w := by
      rintro rfl
      exact other running
    exact ⟨u, by rwa [workers, Function.update_of_ne different]⟩

/-- The step is not about a fiber that runs. -/
theorem Attended.still (attended : Attended s) {worker : Worker}
    (workers : t.worker = Function.update s.worker w worker)
    (exec : ∀ f, (t.fiber f).state = .exec → (s.fiber f).state = .exec)
    (idle : (s.worker w).location.running = none) : Attended t := by
  refine attended.move workers fun f here => .inr ⟨exec f here, ?_⟩
  rw [idle]
  exact (Option.some_ne_none f).symm

theorem exec_of_update {g : FiberPtr} {fiber : Fiber} (kept : fiber.state = .exec → (s.fiber f).state = .exec)
    (exec : (Function.update s.fiber f fiber g).state = .exec) : (s.fiber g).state = .exec := by
  rcases eq_or_ne g f with rfl | different
  · rw [Function.update_self] at exec
    exact kept exec
  · rwa [Function.update_of_ne different] at exec

theorem Attended.work (attended : Attended s) (works : Works s w t) : Attended t := by
  cases works with
  | start located =>
    exact attended.still rfl (fun _ => exec_of_update fun exec => by cases exec) (by rw [located]; rfl)
  | take located _ => exact attended.still (worker_goto _ _ _) (fun _ => id) (by rw [located]; rfl)
  | rest located _ => exact attended.still (worker_goto _ _ _) (fun _ => id) (by rw [located]; rfl)
  | skip located _ => exact attended.still (worker_goto _ _ _) (fun _ => id) (by rw [located]; rfl)
  | pick located _ => exact attended.still (worker_goto _ _ _) (fun _ => id) (by rw [located]; rfl)
  | reuse located _ reset =>
    cases reset_ok reset
    exact attended.still rfl (fun _ => exec_of_update fun exec => by cases exec) (by rw [located]; rfl)
  | renew located _ =>
    exact attended.still (worker_goto _ _ s.newFiber) (fun _ => exec_of_update fun exec => by cases exec)
      (by rw [located]; rfl)
  | drop located => exact attended.still (worker_goto _ _ _) (fun _ => id) (by rw [located]; rfl)
  | exit located _ _ => exact attended.still rfl (fun _ => id) (by rw [located]; rfl)
  | idle located _ _ => exact attended.still (worker_goto _ _ _) (fun _ => id) (by rw [located]; rfl)
  | @enter slot f fiber located swapIn =>
    -- From here on the worker runs the fiber.
    refine attended.move (worker_goto w (.resuming slot f) (s.setFiber f fiber)) fun g exec => ?_
    rcases eq_or_ne g f with rfl | different
    · exact .inl rfl
    · refine .inr ⟨?_, by rw [located]; exact (Option.some_ne_none g).symm⟩
      have same : (Function.update s.fiber f fiber g).state = .exec := exec
      rwa [Function.update_of_ne different] at same
  | @resume slot f located =>
    refine attended.move (worker_goto w (.executing slot f) (s.setFiber f (s.fiber f).switchIn)) fun g exec => ?_
    rcases eq_or_ne g f with rfl | different
    · exact .inl rfl
    · have same : (Function.update s.fiber f (s.fiber f).switchIn g).state = .exec := exec
      rw [Function.update_of_ne different] at same
      refine .inr ⟨same, ?_⟩
      rw [located]
      exact fun same => different (Option.some.inj same).symm
  | @suspend slot f located =>
    exact attended.still (worker_goto _ _ (s.setFiber f _)) (fun _ => exec_of_update id) (by rw [located]; rfl)
  | wake located => exact attended.still (worker_goto _ _ _) (fun _ => id) (by rw [located]; rfl)
  | finish located _ => exact attended.still (worker_goto _ _ _) (fun _ => id) (by rw [located]; rfl)
  | settle located => exact attended.still (worker_goto _ _ _) (fun _ => id) (by rw [located]; rfl)
  | reschedule located => exact attended.still (worker_goto _ _ _) (fun _ => id) (by rw [located]; rfl)
  | @hold f located =>
    exact attended.still (worker_goto _ _ (s.setFiber f _)) (fun _ => exec_of_update fun exec => by cases exec)
      (by rw [located]; rfl)
  | recycle located reset =>
    cases reset_ok reset
    exact attended.still rfl (fun _ => exec_of_update fun exec => by cases exec) (by rw [located]; rfl)

/-- A fiber that gives its thread back is not in state `EXEC` any more. -/
theorem leave_state {fiber fiber' : Fiber} {how : Fiber.Leave} (left : fiber.leave how = .ok fiber') :
    fiber'.state ≠ .exec := by
  unfold Fiber.leave at left
  split at left
  · split_ifs at left
    cases left
    exact fun same => by cases same
  · split_ifs at left
    cases left
    exact fun same => by cases same
  · cases left
    exact fun same => by cases same
  · cases left
    exact fun same => by cases same

theorem Attended.step (attended : Attended s) {action : Action n} (step : (machine n).Step s action t) :
    Attended t := by
  have ran := perform_of_step step
  cases action with
  | work w => exact attended.work (work_cases ran)
  | leave w how =>
    obtain ⟨slot, f, fiber, located, left, -, rfl⟩ := leave_cases ran
    refine attended.move (worker_goto w (.leaving slot f) (s.setFiber f fiber)) fun g exec => ?_
    rcases eq_or_ne g f with rfl | different
    · have same : (Function.update s.fiber g fiber g).state = .exec := exec
      rw [Function.update_self] at same
      exact absurd same (leave_state left)
    · have same : (Function.update s.fiber f fiber g).state = .exec := exec
      rw [Function.update_of_ne different] at same
      refine .inr ⟨same, ?_⟩
      rw [located]
      exact fun running => different (Option.some.inj running).symm
  | schedule ft =>
    rw [perform] at ran
    split_ifs at ran
    cases ran
    exact attended
  | create =>
    cases ran
    exact fun f exec => attended f (exec_of_update (fun exec => by cases exec) exec)
  | stop =>
    cases ran
    split_ifs <;> exact attended

/-! ## The last look -/

/-- Where a worker may stand that has finished. -/
def Location.last : Location → Bool
  | .exited | .idling => true
  | _ => false

theorem last_of_finished (finished : s.finished w = true) : (s.worker w).location.last = true := by
  rcases finished_iff.mp finished with located | ⟨located, _⟩
  · rw [located]
    rfl
  · rw [located]
    rfl

theorem running_of_finished (finished : s.finished w = true) : (s.worker w).location.running = none := by
  have last := last_of_finished finished
  cases located : (s.worker w).location <;> rw [located] at last <;> first | rfl | cases last

/-- A step after which the worker has finished leaves the fibers and the queue, and is its last look or comes after
it. -/
theorem Works.last (works : Works s w t) (finished : t.finished w = true) :
    (t.fiber = s.fiber ∧ t.fibers = s.fibers ∧ ∀ u ≠ w, t.worker u = s.worker u) ∧
      (s.finished w = true ∨ (s.worker w).location = .scan ∧ (s.found w).taken = none) := by
  have last := last_of_finished finished
  have moved (location : Location) (s : Scheduler n) : ((s.goto w location).worker w).location = location := by
    rw [worker_goto, Function.update_self]
  have set (worker : Worker) (s : Scheduler n) : (s.setWorker w worker).worker w = worker := by
    simp [setWorker]
  have others (worker : Worker) (u : Fin n) (different : u ≠ w) : Function.update s.worker w worker u = s.worker u :=
    Function.update_of_ne different worker s.worker
  cases works with
  | rest located taken => exact ⟨⟨rfl, rfl, others _⟩, .inr ⟨located, taken⟩⟩
  | exit located idle term =>
    exact ⟨⟨rfl, rfl, others _⟩, .inl (finished_iff.mpr (.inr ⟨located, _, idle, term⟩))⟩
  | start located => rw [set] at last; cases last
  | take located _ => rw [moved] at last; cases last
  | skip located _ => rw [moved] at last; cases last
  | pick located _ => rw [moved] at last; cases last
  | reuse located _ _ => rw [set] at last; cases last
  | renew located _ => rw [moved] at last; cases last
  | drop located => rw [moved] at last; cases last
  | idle located _ _ => rw [moved] at last; cases last
  | enter located _ => rw [moved] at last; cases last
  | resume located => rw [moved] at last; cases last
  | suspend located => rw [moved] at last; cases last
  | wake located => rw [moved] at last; cases last
  | finish located _ => rw [moved] at last; cases last
  | @settle slot f located =>
    rw [moved] at last
    unfold Scheduler.settle at last
    cases slot <;> dsimp only at last <;> split_ifs at last <;> cases last
  | reschedule located => rw [moved] at last; cases last
  | hold located => rw [moved] at last; cases last
  | recycle located _ => rw [set] at last; cases last

/-- When all workers have finished, no task in the queue is for any thread. -/
structure Drained (s : Scheduler n) : Prop where
  attended : Attended s
  queue : (∀ w, s.finished w = true) → ∀ it ∈ s.fibers, it.thread ≠ -1

theorem finished_congr {u : Fin n} (workers : t.worker u = s.worker u) (fibers : t.fiber = s.fiber) :
    t.finished u = s.finished u := by
  unfold Scheduler.finished
  rw [workers, fibers]

/-- What a worker does not take while nobody runs a fiber is for another thread. -/
theorem thread_of_not_taken (attended : Attended s) (idle : ∀ w, (s.worker w).location.running = none)
    (taken : (s.found w).taken = none) : ∀ it ∈ s.fibers, it.thread ≠ -1 := by
  intro it member any
  rw [found, (scan_eq s.fiber (threadId w) s.fibers).1] at taken
  have passed := List.find?_eq_none.mp taken it member
  have executing : it.executing s.fiber = true := by simpa [FiberAndThread.eligible, any] using passed
  unfold FiberAndThread.executing at executing
  split at executing
  · next f _ =>
    obtain ⟨u, running⟩ := attended f (beq_iff_eq.mp executing)
    rw [idle u] at running
    cases running
  · cases executing

theorem Drained.step (drained : Drained s) {action : Action n} (inTime : InTime s action)
    (step : (machine n).Step s action t) : Drained t := by
  refine ⟨drained.attended.step step, fun all => ?_⟩
  have ran := perform_of_step step
  cases action with
  | work w =>
    obtain ⟨⟨fibers, queue, others⟩, last⟩ := (work_cases ran).last (all w)
    have before (u : Fin n) (different : u ≠ w) : s.finished u = true :=
      (finished_congr (others u different) fibers).symm.trans (all u)
    rw [queue]
    rcases last with finished | ⟨located, taken⟩
    · refine drained.queue fun u => ?_
      rcases eq_or_ne u w with rfl | different
      · exact finished
      · exact before u different
    · refine thread_of_not_taken drained.attended (fun u => ?_) taken
      rcases eq_or_ne u w with rfl | different
      · rw [located]
        rfl
      · exact running_of_finished (before u different)
  | leave w how =>
    obtain ⟨slot, f, fiber, -, -, -, rfl⟩ := leave_cases ran
    have last := last_of_finished (all w)
    rw [worker_goto, Function.update_self] at last
    cases last
  | schedule ft =>
    rw [perform] at ran
    split_ifs at ran
    cases ran
    intro it member
    rcases List.mem_append.mp member with old | new
    · exact drained.queue all it old
    · obtain rfl := List.mem_singleton.mp new
      intro any
      obtain ⟨w, unfinished⟩ := inTime any
      exact absurd (all w) (Bool.eq_false_iff.mp unfinished)
  | create =>
    cases ran
    refine drained.queue fun w => ?_
    rcases finished_iff.mp (all w) with located | ⟨located, f, idle, term⟩
    · exact finished_iff.mpr (.inl located)
    · refine finished_iff.mpr (.inr ⟨located, f, idle, ?_⟩)
      have same : (Function.update s.fiber (s.fiberId + 1) {} f).state = .term := term
      rw [Function.update_apply] at same
      split_ifs at same
      exact same
  | stop =>
    cases ran
    have same (s' : Scheduler n) (workers : s'.worker = s.worker) (fibers : s'.fiber = s.fiber)
        (queue : s'.fibers = s.fibers) (all : ∀ w, s'.finished w = true) : ∀ it ∈ s'.fibers, it.thread ≠ -1 := by
      rw [queue]
      exact drained.queue fun w => (finished_congr (congrFun workers w) fibers).symm.trans (all w)
    split_ifs at all ⊢ <;> exact same _ rfl rfl rfl all

/-! ## Runs -/

/-- When all workers have finished, what is left in the queue is for one thread each, and every task for any thread has
been taken by one worker, once, and the worker is done with it: nobody is in a fiber, and nothing is counted as active.
A task is lost only if it comes after the last look of all. -/
theorem queue_drained (run : List (Action n × Scheduler n)) (s : Scheduler n)
    (path : (((machine n).restrict InTime).observe fun s _ => s).Path started run s)
    (finished : ∀ w, s.finished w = true) :
    (∀ it ∈ s.fibers, it.thread ≠ -1) ∧ (∀ f, (s.fiber f).state ≠ .exec) ∧ s.activeThreadCount = 0 ∧
      ∀ i ft, (Ledger.ofRun run).pushed[i]? = some ft → ft.thread = -1 →
        ((Ledger.ofRun run).dequeued.map Prod.fst).count i = 1 := by
  have forget (s : Scheduler n) (event : Action n × Scheduler n) (t : Scheduler n) (_ : True)
      (step : (((machine n).restrict InTime).observe fun s _ => s).Step s event t) :
      ((machine n).observe fun s _ => s).Step s event t := ⟨step.1.2, step.2⟩
  have plain : ((machine n).observe fun s _ => s).Path started run s :=
    path.simulate id (fun _ _ _ _ _ => trivial) forget trivial
  have kept (s : Scheduler n) (event : Action n × Scheduler n) (t : Scheduler n) (drained : Drained s)
      (step : (((machine n).restrict InTime).observe fun s _ => s).Step s event t) : Drained t :=
    drained.step step.1.1 step.1.2
  have drained : Drained s := by
    refine path.preserves kept ⟨?_, ?_⟩
    · rintro f ⟨⟩
    · rintro - it ⟨⟩
  have queue := drained.queue finished
  refine ⟨queue, fun f exec => ?_, ?_, fun i ft pushed any => ?_⟩
  · obtain ⟨w, running⟩ := drained.attended f exec
    rw [running_of_finished (finished w)] at running
    cases running
  · have reached : (machine n).Reachable s := ⟨started, _, rfl, plain.of_observe⟩
    rw [activeThreadCount_eq reached, activeWorkers, Finset.card_eq_zero, Finset.filter_eq_empty_iff]
    intro w _ active
    rcases finished_iff.mp (finished w) with located | ⟨located, -⟩
    · rw [located] at active
      cases active
    · rw [located] at active
      cases active
  · obtain ⟨balanced, same⟩ := books_of_path plain
    have once := balanced.once i
    rw [if_pos (List.getElem?_eq_some_iff.mp pushed).1] at once
    have absent : ((Ledger.ofRun run).queued.map Prod.fst).count i = 0 := by
      rw [List.count_eq_zero]
      intro numbered
      obtain ⟨⟨j, it⟩, member, rfl⟩ := List.mem_map.mp numbered
      obtain rfl := Option.some.inj ((balanced.numbered j it member).symm.trans pushed)
      exact queue it (same ▸ List.mem_map_of_mem member) any
    rwa [absent, Nat.zero_add] at once

attribute [local instance] two_workers

/-- Worker 0 runs fiber 3 to its end after `stop`, and both workers leave. -/
def endAfterStop (w u : Fin 2) : List (Action 2) :=
  [.stop, .stop, .leave w .finish] ++ List.replicate 7 (.work w) ++ [.leave w .finish] ++ List.replicate 5 (.work w) ++
    List.replicate 4 (.work u) ++ [.leave u .finish] ++ List.replicate 5 (.work u)

theorem queue_drained_two : ∃ run s, (((machine 2).restrict InTime).observe fun s _ => s).Path started run s ∧
    .schedule ⟨.fiber 3, -1⟩ ∈ run.map Prod.fst ∧ (∀ w, (s.worker w).location = .exited) ∧ s.activeThreadCount = 0 ∧
    ∀ i ft, (Ledger.ofRun run).pushed[i]? = some ft → ft.thread = -1 →
      ((Ledger.ofRun run).dequeued.map Prod.fst).count i = 1 := by
  have shown : ((oneRunning ++ endAfterStop 0 1).foldlM (fun s action =>
      if InTime s action then (s.perform action).toOption else none) started).map
        (fun s => decide (∀ w, (s.worker w).location = .exited)) = some true := by
    decide +kernel
  obtain ⟨s, path, exited⟩ := Machine.Path.exists_ofNext (· = started) shown
  rw [← Machine.restrict_ofNext] at path
  have exited := of_decide_eq_true exited
  obtain ⟨run, actions, path⟩ := path.exists_observe fun s _ => s
  have finished (w : Fin 2) : s.finished w = true := finished_iff.mpr (.inl (exited w))
  obtain ⟨-, -, inactive, taken⟩ := queue_drained run s path finished
  refine ⟨run, s, path, ?_, exited, inactive, taken⟩
  rw [actions]
  simp [oneRunning]

end Sylar.Scheduler
