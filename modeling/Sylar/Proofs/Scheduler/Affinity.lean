import Sylar.Proofs.Scheduler.Steps

/-! # On which thread a task is resumed

The thread a task was scheduled for is in its queue entry, which is gone once a worker has taken it. `run`
puts a fiber that has yielded to `READY` back for any thread, so a binding survives as long as the fiber is
not put back that way, and as long as nothing that leads to the fiber is for another thread when it is
bound. A callback is, from its start on, the fiber it runs in.
-/

namespace Sylar.Scheduler

variable {n : ℕ} {s after : Scheduler n} {w : Fin n} {f : FiberPtr} {thread : ℤ}

/-- The scheduler, with the thread each fiber was last scheduled for. -/
structure Bound (n : ℕ) where
  scheduler : Scheduler n
  thread : FiberPtr → ℤ

/-- What a step says about the thread of a fiber: it is scheduled by a call of `schedule`, it starts a
callback that was, or it is new. -/
def binds (s : Scheduler n) : Action n → Option (FiberPtr × ℤ)
  | .work w =>
      match (s.worker w).location with
      | .start => some (s.fiberId + 1, -1)
      | .fetched ⟨.cb _, thread⟩ => some ((s.worker w).cbFiber.getD (s.fiberId + 1), thread)
      | _ => none
  | .schedule ⟨.fiber f, thread⟩ => some (f, thread)
  | .create => some (s.fiberId + 1, -1)
  | _ => none

/-- The fiber that `run` puts back into the queue in this step. -/
def putsBack (s : Scheduler n) : Action n → Option FiberPtr
  | .work w =>
      match (s.worker w).location with
      | .rescheduling f => some f
      | _ => none
  | _ => none

def Bound.bind (thread : FiberPtr → ℤ) : Option (FiberPtr × ℤ) → FiberPtr → ℤ
  | some (f, t) => Function.update thread f t
  | none => thread

def Bound.perform (b : Bound n) (action : Action n) : Except Fault (Bound n) := do
  let scheduler ← b.scheduler.perform action
  return ⟨scheduler, Bound.bind b.thread (binds b.scheduler action)⟩

/-- The runs of the scheduler, with the bindings they make. -/
def boundMachine (n : ℕ) : Machine (Bound n) (Action n) :=
  .ofNext (· = ⟨started, fun _ => -1⟩) fun b action => (b.perform action).toOption

/-- A task for this thread may run on every worker. -/
def Anywhere (n : ℕ) (thread : ℤ) : Prop := thread = -1 ∨ ∀ w : Fin n, threadId w = thread

/-- The fiber a worker at this location has taken or is about to enter. -/
def Location.heads : Location → Option FiberPtr
  | .fetched ⟨.fiber f, _⟩ => some f
  | .entering _ f | .resuming _ f => some f
  | _ => none

/-- All that leads to the fiber is for this thread: its entries in the queue, the workers on the way to it
and the workers that idle in it. -/
def KeptFor (s : Scheduler n) (f : FiberPtr) (thread : ℤ) : Prop :=
  (∀ ft ∈ s.fibers, ft.task = .fiber f → ft.thread = thread) ∧
  (∀ w, (s.worker w).location.heads = some f → threadId w = thread) ∧
  ∀ w, (s.worker w).idleFiber = some f → threadId w = thread

/-- A fiber that is put back may run anywhere, and a fiber that is bound is left to the thread. -/
def Keeps (b : Bound n) (action : Action n) : Prop :=
  (∀ f ∈ putsBack b.scheduler action, Anywhere n (b.thread f)) ∧
  ∀ p ∈ binds b.scheduler action, Anywhere n p.2 ∨ KeptFor b.scheduler p.1 p.2

instance (thread : ℤ) : Decidable (Anywhere n thread) := inferInstanceAs (Decidable (_ ∨ _))

instance (s : Scheduler n) (f : FiberPtr) (thread : ℤ) : Decidable (KeptFor s f thread) :=
  inferInstanceAs (Decidable (_ ∧ _))

instance (b : Bound n) (action : Action n) : Decidable (Keeps b action) :=
  inferInstanceAs (Decidable (_ ∧ _))

/-! ## The queue -/

/-- The scan takes an entry for any thread or for its own. -/
theorem scan_thread {fiber : FiberPtr → Fiber} {queue : List FiberAndThread} {ft : FiberAndThread}
    (taken : (scan fiber thread queue).taken = some ft) : ft.thread = -1 ∨ ft.thread = thread := by
  induction queue with
  | nil => cases taken
  | cons it rest ih =>
    rw [scan] at taken
    split_ifs at taken with other executing
    · exact ih taken
    · exact ih taken
    · obtain rfl := Option.some.inj taken
      by_contra neither
      exact other (not_or.mp neither)

theorem mem_of_taken {ft : FiberAndThread} (taken : (s.found w).taken = some ft) : ft ∈ s.fibers := by
  apply (scan_perm s.fiber (threadId w) s.fibers).subset
  have taken : (scan s.fiber (threadId w) s.fibers).taken = some ft := taken
  rw [taken]
  exact List.mem_append_left _ List.mem_cons_self

theorem mem_of_left {ft : FiberAndThread} (left : ft ∈ (s.found w).left) : ft ∈ s.fibers :=
  (scan_perm s.fiber (threadId w) s.fibers).subset (List.mem_append_right _ left)

namespace KeptFor

/-- A step of worker `w` that leaves the queue as it is but for entries for the thread. -/
theorem move {worker : Worker} (kept : KeptFor s f thread)
    (workers : after.worker = Function.update s.worker w worker)
    (queue : ∀ ft ∈ after.fibers, ft.task = .fiber f → ft ∈ s.fibers ∨ ft.thread = thread)
    (heads : worker.location.heads = some f → threadId w = thread)
    (idle : worker.idleFiber = some f → threadId w = thread) : KeptFor after f thread := by
  obtain ⟨queued, heading, idling⟩ := kept
  refine ⟨fun ft member task => ?_, fun other => ?_, fun other => ?_⟩
  · exact (queue ft member task).elim (fun old => queued ft old task) id
  · rw [workers]
    rcases eq_or_ne other w with rfl | different
    · rw [Function.update_self]
      exact heads
    · rw [Function.update_of_ne different]
      exact heading other
  · rw [workers]
    rcases eq_or_ne other w with rfl | different
    · rw [Function.update_self]
      exact idle
    · rw [Function.update_of_ne different]
      exact idling other

/-- A worker moves on by itself, to a fiber it was on the way to or to none. -/
theorem goto (kept : KeptFor s f thread) {location : Location}
    (heads : location.heads = some f → (s.worker w).location.heads = some f ∨ (s.worker w).idleFiber = some f)
    (workers : after.worker = (s.goto w location).worker) (queue : after.fibers = s.fibers) :
    KeptFor after f thread := by
  refine kept.move (workers.trans rfl) ?_ ?_ (kept.2.2 w)
  · intro ft member _
    exact Or.inl (queue ▸ member)
  · intro headed
    exact (heads headed).elim (kept.2.1 w) (kept.2.2 w)

/-- A worker moves on to no fiber. -/
theorem away (kept : KeptFor s f thread) {location : Location}
    (workers : after.worker = (s.goto w location).worker) (queue : after.fibers = s.fibers)
    (heads : location.heads = none) : KeptFor after f thread := by
  refine kept.goto (fun headed => ?_) workers queue
  rw [heads] at headed
  cases headed

/-- A step of a worker, which takes, enters and puts back by what the thread is. -/
theorem work (kept : KeptFor s f thread) (works : Works s w after)
    (fetched : ∀ ft, (s.worker w).location = .fetched ft → ft.thread = -1 ∨ ft.thread = threadId w)
    (bound : ¬ Anywhere n thread) (binding : ∀ t, binds s (.work w) = some (f, t) → t = thread)
    (kept' : putsBack s (.work w) ≠ some f) : KeptFor after f thread := by
  have own {t : ℤ} (same : t = thread) (taken : t = -1 ∨ t = threadId w) : threadId w = thread := by
    subst same
    exact (taken.resolve_left fun any => bound (Or.inl any)).symm
  cases works with
  | start located =>
    refine kept.move rfl (fun ft member _ => Or.inl member) nofun fun new => ?_
    have fresh : binds s (.work w) = some (f, -1) := by
      rw [binds, located, ← Option.some.inj new]
    exact absurd (Or.inl (binding _ fresh).symm) bound
  | @take ft located taken =>
    refine kept.move rfl (fun it member _ => Or.inl (mem_of_left member)) (fun heads => ?_) (kept.2.2 w)
    obtain ⟨task, t⟩ := ft
    cases task with
    | cb _ => cases heads
    | fiber g =>
      obtain rfl := Option.some.inj heads
      exact own (kept.1 _ (mem_of_taken taken) rfl) (scan_thread taken)
  | rest located _ => exact kept.away rfl rfl rfl
  | skip located _ => exact kept.away rfl rfl rfl
  | pick located _ =>
    refine kept.goto (fun heads => Or.inl ?_) rfl rfl
    rw [located]
    exact heads
  | @reuse _ t _ _ located cbFiber _ =>
    refine kept.move rfl (fun ft member _ => Or.inl member) (fun heads => ?_) (kept.2.2 w)
    have starts : binds s (.work w) = some (f, t) := by
      rw [binds, located, cbFiber, ← Option.some.inj heads]
      rfl
    exact own (binding _ starts) (fetched _ located)
  | @renew _ t located cbFiber =>
    refine kept.move rfl (fun ft member _ => Or.inl member) (fun heads => ?_) (kept.2.2 w)
    have starts : binds s (.work w) = some (f, t) := by
      rw [binds, located, cbFiber, ← Option.some.inj heads]
      rfl
    exact own (binding _ starts) (fetched _ located)
  | drop located => exact kept.away rfl rfl rfl
  | exit located _ _ => exact kept.move rfl (fun ft member _ => Or.inl member) nofun nofun
  | idle located idleFiber _ =>
    refine kept.goto (fun heads => Or.inr ?_) rfl rfl
    rw [idleFiber]
    exact heads
  | enter located _ =>
    refine kept.goto (fun heads => Or.inl ?_) rfl rfl
    rw [located]
    exact heads
  | resume located => exact kept.away rfl rfl rfl
  | suspend located => exact kept.away rfl rfl rfl
  | wake located => exact kept.away rfl rfl rfl
  | finish located _ => exact kept.away rfl rfl rfl
  | @settle slot g located =>
    refine kept.away rfl rfl ?_
    unfold Scheduler.settle
    cases slot <;> dsimp only <;> split_ifs <;> rfl
  | @reschedule g located =>
    refine kept.move rfl (fun ft member task => ?_) nofun (kept.2.2 w)
    rcases List.mem_append.mp member with old | new
    · exact Or.inl old
    · obtain rfl := List.mem_singleton.mp new
      obtain rfl := Task.fiber.inj task
      exact absurd (by rw [putsBack, located]) kept'
  | hold located => exact kept.away rfl rfl rfl
  | recycle located _ => exact kept.move rfl (fun ft member _ => Or.inl member) nofun (kept.2.2 w)

end KeptFor

/-! ## Runs -/

/-- Every worker has taken what it may take, and a fiber bound to a thread is left to it. -/
structure Settled (b : Bound n) : Prop where
  fetched : ∀ w ft, (b.scheduler.worker w).location = .fetched ft → ft.thread = -1 ∨ ft.thread = threadId w
  kept : ∀ f, Anywhere n (b.thread f) ∨ KeptFor b.scheduler f (b.thread f)

/-- What a worker has taken stays what it may take. -/
theorem fetched_work (fetched : ∀ w ft, (s.worker w).location = .fetched ft →
      ft.thread = -1 ∨ ft.thread = threadId w) (works : Works s w after) (other : Fin n)
    (ft : FiberAndThread) (located : (after.worker other).location = .fetched ft) :
    ft.thread = -1 ∨ ft.thread = threadId other := by
  have move {worker : Worker} (workers : after.worker = Function.update s.worker w worker)
      (taken : worker.location = .fetched ft → ft.thread = -1 ∨ ft.thread = threadId w) :
      ft.thread = -1 ∨ ft.thread = threadId other := by
    rw [workers] at located
    rcases eq_or_ne other w with rfl | different
    · rw [Function.update_self] at located
      exact taken located
    · rw [Function.update_of_ne different] at located
      exact fetched other ft located
  cases works with
  | take _ taken =>
    refine move rfl fun same => ?_
    cases same
    exact scan_thread taken
  | @settle slot g _ =>
    refine move rfl fun same => ?_
    have never : Scheduler.settle slot g (s.fiber g) ≠ .fetched ft := by
      unfold Scheduler.settle
      cases slot <;> dsimp only <;> split_ifs <;> nofun
    exact absurd same never
  | _ => exact move rfl nofun

theorem bind_of_ne {thread : FiberPtr → ℤ} {binding : Option (FiberPtr × ℤ)}
    (other : ∀ t, binding ≠ some (f, t)) : Bound.bind thread binding f = thread f := by
  cases binding with
  | none => rfl
  | some p => exact Function.update_of_ne (fun same => other p.2 (by rw [same])) _ _

theorem putsBack_of_binds {action : Action n} {p : FiberPtr × ℤ} (binding : binds s action = some p) :
    putsBack s action = none := by
  cases action with
  | work w =>
    unfold binds at binding
    unfold putsBack
    dsimp only at binding ⊢
    split at binding <;> simp_all
  | _ => rfl

/-- A step, by what it does to the scheduler and what it binds. -/
theorem bound_step {b c : Bound n} {action : Action n} (step : (boundMachine n).Step b action c) :
    b.scheduler.perform action = .ok c.scheduler ∧
      c.thread = Bound.bind b.thread (binds b.scheduler action) := by
  have step : (b.perform action).toOption = some c := step
  unfold Bound.perform at step
  cases ran : b.scheduler.perform action with
  | error fault => rw [ran] at step; cases step
  | ok after => rw [ran] at step; cases step; exact ⟨rfl, rfl⟩

namespace Settled

variable {b c : Bound n} {action : Action n}

/-- A step binds what is left to the thread, and what is bound is not put back. -/
theorem bind (settled : Settled b) (keeps : Keeps b action)
    (bindings : c.thread = Bound.bind b.thread (binds b.scheduler action))
    (fetched : ∀ w ft, (c.scheduler.worker w).location = .fetched ft → ft.thread = -1 ∨ ft.thread = threadId w)
    (kept : ∀ f thread, ¬ Anywhere n thread → (∀ t, binds b.scheduler action = some (f, t) → t = thread) →
      putsBack b.scheduler action ≠ some f → KeptFor b.scheduler f thread → KeptFor c.scheduler f thread) :
    Settled c where
  fetched := fetched
  kept := by
    intro f
    rw [bindings]
    by_cases binding : ∃ t, binds b.scheduler action = some (f, t)
    · obtain ⟨t, binding⟩ := binding
      have here : Bound.bind b.thread (binds b.scheduler action) f = t := by
        rw [binding]
        exact Function.update_self _ _ _
      rw [here]
      refine or_iff_not_imp_left.mpr fun bound => kept f t bound (fun t' same => ?_) (fun back => ?_) ?_
      · rw [binding] at same
        exact congrArg Prod.snd (Option.some.inj same).symm
      · have none := putsBack_of_binds binding
        rw [none] at back
        cases back
      · exact (keeps.2 (f, t) binding).resolve_left bound
    · rw [not_exists] at binding
      rw [bind_of_ne binding]
      refine or_iff_not_imp_left.mpr fun bound => kept f _ bound (fun t same => ?_) (fun back => ?_) ?_
      · exact absurd same (binding t)
      · exact bound (keeps.1 f back)
      · exact (settled.kept f).resolve_left bound

theorem step (settled : Settled b) (keeps : Keeps b action) (step : (boundMachine n).Step b action c) :
    Settled c := by
  obtain ⟨ran, bindings⟩ := bound_step step
  cases action with
  | work w =>
    have works := work_cases ran
    exact settled.bind keeps bindings (fetched_work settled.fetched works) fun f thread bound binding back kept =>
      kept.work works (settled.fetched w) bound binding back
  | leave w how =>
    obtain ⟨slot, g, fiber, located, _, _, left⟩ := leave_cases ran
    have workers : c.scheduler.worker = (b.scheduler.goto w (.leaving slot g)).worker := by rw [left]; rfl
    have queue : c.scheduler.fibers = b.scheduler.fibers := by rw [left]; rfl
    refine settled.bind keeps bindings (fun other ft taken => ?_) fun f thread _ _ _ kept =>
      kept.away workers queue rfl
    rw [workers] at taken
    rcases eq_or_ne other w with rfl | different
    · cases (congrArg Worker.location (Function.update_self _ _ _)).symm.trans taken
    · exact settled.fetched other ft ((congrArg Worker.location (Function.update_of_ne different _ _)).symm.trans taken)
  | schedule ft =>
    rw [Scheduler.perform] at ran
    split_ifs at ran
    have after : b.scheduler.schedule ft = c.scheduler := Except.ok.inj ran
    refine settled.bind keeps bindings (by rw [← after]; exact settled.fetched) fun f thread _ binding _ kept => ?_
    rw [← after]
    refine ⟨fun it member task => ?_, kept.2⟩
    rcases List.mem_append.mp member with old | new
    · exact kept.1 it old task
    · obtain rfl := List.mem_singleton.mp new
      obtain ⟨_, t⟩ := it
      cases task
      exact binding t rfl
  | create =>
    have after : b.scheduler.newFiber = c.scheduler := Except.ok.inj ran
    exact settled.bind keeps bindings (by rw [← after]; exact settled.fetched) fun f thread _ _ _ kept => by
      rw [← after]
      exact kept
  | stop =>
    have after := Except.ok.inj ran
    have workers : c.scheduler.worker = b.scheduler.worker := by rw [← after]; split_ifs <;> rfl
    have queue : c.scheduler.fibers = b.scheduler.fibers := by rw [← after]; split_ifs <;> rfl
    refine settled.bind keeps bindings (by rw [workers]; exact settled.fetched) fun f thread _ _ _ kept => ?_
    unfold KeptFor
    rw [workers, queue]
    exact kept

end Settled

/-- The bindings are only noted: every run of the scheduler makes some. -/
theorem exists_bound {actions : List (Action n)} {b : Bound n} (path : (machine n).Path b.scheduler actions s) :
    ∃ thread, (boundMachine n).Path b actions ⟨s, thread⟩ := by
  obtain ⟨scheduler, thread⟩ := b
  induction actions generalizing scheduler thread with
  | nil =>
    obtain rfl := Machine.Path.nil_iff.mp path
    exact ⟨thread, .nil _⟩
  | cons action rest ih =>
    obtain ⟨mid, step, path⟩ := Machine.Path.cons_iff.mp path
    have ran := perform_of_step step
    obtain ⟨thread', path⟩ := ih mid (Bound.bind thread (binds scheduler action)) path
    refine ⟨thread', .cons ?_ path⟩
    change (Bound.perform ⟨scheduler, thread⟩ action).toOption = _
    unfold Bound.perform
    rw [ran]
    rfl

/-- In every run of any number of workers in which no fiber that is bound to a thread is put back after a
yield to `READY`, and a fiber is bound to a thread only when nothing leads to it that is for another, a
worker resumes a fiber that was last scheduled for a thread only if this is its own. -/
theorem resumed_on_bound_thread (b : Bound n) (reached : ((boundMachine n).restrict Keeps).Reachable b)
    (w : Fin n) (slot : Slot) (f : FiberPtr) (located : (b.scheduler.worker w).location = .resuming slot f) :
    b.thread f = -1 ∨ b.thread f = threadId w := by
  have settled : Settled b := by
    apply reached.invariant (P := Settled)
    · rintro _ rfl
      exact ⟨nofun, fun f => Or.inl (Or.inl rfl)⟩
    · intro b action c settled step
      exact settled.step step.1 step.2
  rcases settled.kept f with (any | every) | ⟨_, heading, _⟩
  · exact Or.inl any
  · exact Or.inr (every w).symm
  · exact Or.inr (heading w (by rw [located]; rfl)).symm

/-- Both workers have started, and worker 0 has taken fiber 3 and is about to switch into it. -/
def boundResuming : List (Action 2) :=
  [.work 0, .work 1, .create, .schedule ⟨.fiber 3, 0⟩, .work 0, .work 0, .work 0]

theorem resumed_on_bound_thread_one : ∃ b, ((boundMachine 2).restrict Keeps).Reachable b ∧
    (b.scheduler.worker 0).location = .resuming .task 3 ∧ b.thread 3 ≠ -1 ∧
    (b.thread 3 = -1 ∨ b.thread 3 = threadId (0 : Fin 2)) := by
  have shown : (boundResuming.foldlM (fun b action => if Keeps b action then (b.perform action).toOption
      else none) ⟨started, fun _ => -1⟩).map
        (fun b : Bound 2 => ((b.scheduler.worker 0).location, b.thread 3)) =
      some (Location.resuming .task 3, 0) := by
    decide +kernel
  obtain ⟨b, path, facts⟩ := Machine.Path.exists_ofNext (· = ⟨started, fun _ => -1⟩) shown
  rw [← Machine.restrict_ofNext] at path
  simp only [Prod.mk.injEq] at facts
  have reached : ((boundMachine 2).restrict Keeps).Reachable b := ⟨_, boundResuming, rfl, path⟩
  refine ⟨b, reached, facts.1, ?_, resumed_on_bound_thread b reached 0 .task 3 facts.1⟩
  rw [facts.2]
  decide

/-- The end of a run of two workers with its bindings, if all its steps complete. -/
def boundEndOf (actions : List (Action 2)) : Option (Bound 2) :=
  actions.foldlM (fun b action => (b.perform action).toOption) ⟨started, fun _ => -1⟩

/-- A task scheduled for worker 0 runs there and yields to `READY`; worker 0 puts it back, and worker 1
takes it. -/
def yieldedAway (task : Task) : List (Action 2) :=
  [.work 0, .work 1, .create, .schedule ⟨task, 0⟩, .work 0, .work 0, .work 0, .work 0,
    .leave 0 .yieldToReady, .work 0, .work 0, .work 0, .work 0, .work 1, .work 1, .work 1]

/-- Worker 1 is about to switch into fiber 3, which was scheduled for worker 0, and into fiber 4, which runs
a callback that was. -/
theorem resumed_on_other_thread :
    (∃ b, (boundMachine 2).Reachable b ∧ (b.scheduler.worker 1).location = .resuming .task 3 ∧
      b.thread 3 = threadId (0 : Fin 2)) ∧
    ∃ b, (boundMachine 2).Reachable b ∧ (b.scheduler.worker 1).location = .resuming .task 4 ∧
      b.thread 4 = threadId (0 : Fin 2) := by
  have shown : (boundEndOf (yieldedAway (.fiber 3))).map
      (fun b => ((b.scheduler.worker 1).location, b.thread 3)) =
      some (Location.resuming .task 3, threadId (0 : Fin 2)) := by decide +kernel
  have shown' : (boundEndOf (yieldedAway (.cb 7))).map
      (fun b => ((b.scheduler.worker 1).location, b.thread 4)) =
      some (Location.resuming .task 4, threadId (0 : Fin 2)) := by decide +kernel
  obtain ⟨b, path, facts⟩ := Machine.Path.exists_ofNext (· = ⟨started, fun _ => -1⟩) shown
  obtain ⟨b', path', facts'⟩ := Machine.Path.exists_ofNext (· = ⟨started, fun _ => -1⟩) shown'
  simp only [Prod.mk.injEq] at facts facts'
  exact ⟨⟨b, ⟨_, _, rfl, path⟩, facts⟩, b', ⟨_, _, rfl, path'⟩, facts'⟩

end Sylar.Scheduler
