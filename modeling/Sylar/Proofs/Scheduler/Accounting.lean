import Mathlib.Data.Fintype.Basic
import Sylar.Proofs.Scheduler.Exclusion
import Sylar.ToMathlib.Counting

/-! # The books of the scheduler

`m_activeThreadCount` counts the workers that have taken an entry and not yet lowered it again, and every
entry that was pushed is in the queue once or has been taken once. Entries are numbered in the order of
their pushes; which one a scan takes is decided by the state it runs in, so a run is read together with
the states its steps are taken in.
-/

namespace Sylar.Scheduler

variable {n : ℕ} {s t : Scheduler n} {w : Fin n}

/-! ## The counter -/

/-- The worker has taken an entry, and the decrement that belongs to it is ahead. -/
def Location.active : Location → Bool
  | .fetched _ | .dropping => true
  | .entering slot _ | .resuming slot _ | .executing slot _ | .leaving slot _ | .returned slot _ =>
      slot != .idle
  | _ => false

def activeWorkers (s : Scheduler n) : ℕ :=
  (Finset.univ.filter fun w => (s.worker w).location.active = true).card

/-- A step of a worker moves the counter as it moves the worker. -/
theorem Works.counts (works : Works s w t)
    (positive : (s.worker w).location.active = true → 0 < s.activeThreadCount) :
    ∃ worker, t.worker = Function.update s.worker w worker ∧
      t.activeThreadCount + (s.worker w).location.active.toNat =
        s.activeThreadCount + worker.location.active.toNat := by
  have lowered (active : (s.worker w).location.active = true) :
      decrement s.activeThreadCount + 1 = s.activeThreadCount := by
    rw [decrement, if_neg (positive active).ne']
    exact Nat.sub_add_cancel (positive active)
  cases works with
  | start located => exact ⟨_, rfl, by rw [located]; rfl⟩
  | take located _ => exact ⟨_, rfl, by rw [located]; rfl⟩
  | rest located _ => exact ⟨_, rfl, by rw [located]; rfl⟩
  | skip located _ => exact ⟨_, rfl, by rw [located]; rfl⟩
  | pick located _ => exact ⟨_, rfl, by rw [located]; rfl⟩
  | reuse located _ _ => exact ⟨_, rfl, by rw [located]; rfl⟩
  | renew located _ => exact ⟨_, rfl, by rw [located]; rfl⟩
  | drop located =>
    rw [located] at lowered ⊢
    exact ⟨_, rfl, lowered rfl⟩
  | exit located _ _ => exact ⟨_, rfl, by rw [located]; rfl⟩
  | idle located _ _ => exact ⟨_, rfl, by rw [located]; rfl⟩
  | enter located _ => exact ⟨_, rfl, by rw [located]; rfl⟩
  | resume located => exact ⟨_, rfl, by rw [located]; rfl⟩
  | suspend located => exact ⟨_, rfl, by rw [located]; rfl⟩
  | wake located => exact ⟨_, rfl, by rw [located]; rfl⟩
  | @finish slot f located busy =>
    have active : (Location.returned slot f).active = true := by simpa [Location.active] using busy
    rw [located] at lowered ⊢
    rw [active] at lowered ⊢
    exact ⟨_, rfl, lowered rfl⟩
  | @settle slot f located =>
    have settled : (Scheduler.settle slot f (s.fiber f)).active = false := by
      unfold Scheduler.settle
      cases slot <;> dsimp only <;> split_ifs <;> rfl
    rw [located]
    exact ⟨_, rfl, by rw [settled]; rfl⟩
  | reschedule located => exact ⟨_, rfl, by rw [located]; rfl⟩
  | hold located => exact ⟨_, rfl, by rw [located]; rfl⟩
  | recycle located _ => exact ⟨_, rfl, by rw [located]; rfl⟩

theorem activeWorkers_pos (active : (s.worker w).location.active = true) : 0 < s.activeWorkers :=
  Finset.card_pos.mpr ⟨w, Finset.mem_filter.mpr ⟨Finset.mem_univ w, active⟩⟩

theorem activeWorkers_update {worker : Worker} (workers : t.worker = Function.update s.worker w worker) :
    t.activeWorkers + (s.worker w).location.active.toNat =
      s.activeWorkers + worker.location.active.toNat := by
  rw [activeWorkers, workers]
  exact card_filter_update (fun worker => worker.location.active) s.worker w worker

theorem activeThreadCount_step {action : Action n} (counted : s.activeThreadCount = s.activeWorkers)
    (step : (machine n).Step s action t) : t.activeThreadCount = t.activeWorkers := by
  have ran := perform_of_step step
  cases action with
  | work w =>
    obtain ⟨worker, workers, counts⟩ :=
      (work_cases ran).counts fun active => counted ▸ activeWorkers_pos active
    have updated := activeWorkers_update workers
    omega
  | leave w how =>
    obtain ⟨slot, f, fiber, located, -, -, rfl⟩ := leave_cases ran
    have updated := activeWorkers_update (s := s) (t := (s.setFiber f fiber).goto w (.leaving slot f)) rfl
    rw [located] at updated
    exact counted.trans (Nat.add_right_cancel updated).symm
  | schedule ft =>
    rw [perform] at ran
    split_ifs at ran
    cases ran
    exact counted
  | create => cases ran; exact counted
  | stop =>
    cases ran
    split_ifs <;> exact counted

theorem activeThreadCount_eq (reached : (machine n).Reachable s) :
    s.activeThreadCount = s.activeWorkers := by
  apply reached.invariant (P := fun s => s.activeThreadCount = s.activeWorkers)
  · rintro _ rfl
    exact (Finset.card_eq_zero.mpr (Finset.filter_eq_empty_iff.mpr fun _ _ => Bool.false_ne_true)).symm
  · intro s action t counted step
    exact activeThreadCount_step counted step

/-- When the counter is zero no worker has an entry. -/
theorem inactive_of_stopping (reached : (machine n).Reachable s) (stops : s.stopping = true) (w : Fin n) :
    (s.worker w).location.active = false := by
  by_contra active
  have positive := activeWorkers_pos (Bool.eq_true_of_not_eq_false active)
  rw [← activeThreadCount_eq reached] at positive
  simp [stopping] at stops
  omega

/-! ## The entries -/

/-- The worker with this thread may run the entry now. -/
def FiberAndThread.eligible (fiber : FiberPtr → Fiber) (thread : ℤ) (it : FiberAndThread) : Bool :=
  (it.thread == -1 || it.thread == thread) && !it.executing fiber

/-- The scan takes the first eligible entry. -/
theorem scan_eq (fiber : FiberPtr → Fiber) (thread : ℤ) (queue : List FiberAndThread) :
    (scan fiber thread queue).taken = queue.find? (·.eligible fiber thread) ∧
      (scan fiber thread queue).left = queue.eraseP (·.eligible fiber thread) := by
  induction queue with
  | nil => exact ⟨rfl, rfl⟩
  | cons it rest ih =>
    rw [scan, List.find?_cons, List.eraseP_cons]
    split_ifs with foreign executing
    · have not : it.eligible fiber thread = false := by simp [FiberAndThread.eligible, foreign]
      rw [not]
      exact ⟨ih.1, congrArg _ ih.2⟩
    · have not : it.eligible fiber thread = false := by simp [FiberAndThread.eligible, executing]
      rw [not]
      exact ⟨ih.1, congrArg _ ih.2⟩
    · have ok : it.eligible fiber thread = true := by
        simp only [FiberAndThread.eligible, executing, Bool.not_false, Bool.and_true, Bool.or_eq_true,
          beq_iff_eq]
        tauto
      rw [ok]
      exact ⟨rfl, rfl⟩

/-- What has been pushed, what is in the queue and what was taken by whom, by the number of the push. -/
structure Ledger (n : ℕ) where
  pushed : List FiberAndThread := []
  queued : List (ℕ × FiberAndThread) := []
  dequeued : List (ℕ × Fin n) := []

namespace Ledger

variable {l : Ledger n} {i : ℕ} {ft : FiberAndThread}

def push (ft : FiberAndThread) (l : Ledger n) : Ledger n :=
  { l with pushed := l.pushed ++ [ft], queued := l.queued ++ [(l.pushed.length, ft)] }

/-- Worker `w` takes the first entry that `p` holds of. -/
def take (w : Fin n) (p : FiberAndThread → Bool) (l : Ledger n) : Ledger n :=
  match l.queued.find? fun entry => p entry.2 with
  | some (i, _) =>
      { l with queued := l.queued.eraseP fun entry => p entry.2, dequeued := l.dequeued ++ [(i, w)] }
  | none => l

/-- What a step does to the entries, given the state it is taken in. -/
def record (l : Ledger n) : Action n × Scheduler n → Ledger n
  | (.schedule ft, _) => l.push ft
  | (.work w, s) =>
      match (s.worker w).location with
      | .scan => l.take w (·.eligible s.fiber (threadId w))
      | .rescheduling f => l.push ⟨.fiber f, -1⟩
      | _ => l
  | _ => l

/-- The ledger of a run that shows the state in front of each step. -/
def ofRun (run : List (Action n × Scheduler n)) : Ledger n := run.foldl record {}

/-- Every push is in the queue once or was taken once, by a worker that may run it. -/
structure Balanced (l : Ledger n) : Prop where
  numbered : ∀ i ft, (i, ft) ∈ l.queued → l.pushed[i]? = some ft
  allowed : ∀ i w, (i, w) ∈ l.dequeued →
    ∃ ft, l.pushed[i]? = some ft ∧ (ft.thread = -1 ∨ ft.thread = threadId w)
  once : ∀ i, (l.queued.map Prod.fst).count i + (l.dequeued.map Prod.fst).count i =
    if i < l.pushed.length then 1 else 0

theorem Balanced.push (balanced : Balanced l) (ft : FiberAndThread) : Balanced (l.push ft) where
  numbered := by
    intro i it member
    rcases List.mem_append.mp member with old | new
    · have found := balanced.numbered i it old
      exact (List.getElem?_append_left (List.getElem?_eq_some_iff.mp found).1).trans found
    · cases List.mem_singleton.mp new
      exact List.getElem?_concat_length
  allowed := by
    intro i w member
    obtain ⟨it, found, may⟩ := balanced.allowed i w member
    exact ⟨it, (List.getElem?_append_left (List.getElem?_eq_some_iff.mp found).1).trans found, may⟩
  once := by
    intro i
    have before := balanced.once i
    simp only [Ledger.push, List.map_append, List.map_cons, List.map_nil, List.count_append,
      List.length_append, List.length_singleton, List.count_singleton] at before ⊢
    rcases Nat.lt_trichotomy i l.pushed.length with less | same | more
    · have other : l.pushed.length ≠ i := less.ne'
      simp only [less, if_true, Nat.lt_succ_of_lt less, beq_iff_eq, other, if_false] at before ⊢
      omega
    · subst same
      simp only [Nat.lt_irrefl, if_false, Nat.lt_succ_self, if_true, beq_self_eq_true] at before ⊢
      omega
    · have other : l.pushed.length ≠ i := more.ne
      have past : ¬ i < l.pushed.length := by omega
      have past' : ¬ i < l.pushed.length + 1 := by omega
      simp only [past, past', if_false, beq_iff_eq, other] at before ⊢
      omega

/-- The first entry that passes is moved. -/
theorem Balanced.take (balanced : Balanced l) {w : Fin n} {p : FiberAndThread → Bool}
    (allowed : ∀ ft, p ft = true → ft.thread = -1 ∨ ft.thread = threadId w) : Balanced (l.take w p) := by
  unfold Ledger.take
  cases found : l.queued.find? fun entry => p entry.2 with
  | none => exact balanced
  | some entry =>
    obtain ⟨i, ft⟩ := entry
    obtain ⟨passes, front, back, queued, others⟩ := List.find?_eq_some_iff_append.mp found
    have erased : l.queued.eraseP (fun entry => p entry.2) = front ++ back := by
      rw [queued, List.eraseP_append_right _ fun b member => by simpa using others b member]
      exact congrArg _ (List.eraseP_cons_of_pos (p := fun entry : ℕ × FiberAndThread => p entry.2) passes)
    have member : (i, ft) ∈ l.queued := by
      rw [queued]
      exact List.mem_append_right _ List.mem_cons_self
    dsimp only
    rw [erased]
    refine ⟨?_, ?_, ?_⟩
    · intro j it kept
      apply balanced.numbered
      rw [queued]
      exact List.mem_append.mpr ((List.mem_append.mp kept).imp_right (List.mem_cons_of_mem _))
    · intro j u taken
      rcases List.mem_append.mp taken with old | new
      · exact balanced.allowed j u old
      · cases List.mem_singleton.mp new
        exact ⟨ft, balanced.numbered i ft member, allowed ft passes⟩
    · intro j
      have before := balanced.once j
      simp only [queued, List.map_append, List.map_cons, List.map_nil, List.count_append,
        List.count_cons, List.count_nil] at before ⊢
      omega

/-- The numbers aside, the ledger's queue loses what the scan takes. -/
theorem take_queued (l : Ledger n) (w : Fin n) (p : FiberAndThread → Bool) :
    (l.take w p).queued.map Prod.snd = (l.queued.map Prod.snd).eraseP p := by
  rw [List.eraseP_map]
  unfold Ledger.take
  cases found : l.queued.find? fun entry => p entry.2 with
  | none =>
    have untouched := List.eraseP_of_forall_not (p := fun entry : ℕ × FiberAndThread => p entry.2)
      fun entry member => by simpa using List.find?_eq_none.mp found entry member
    exact congrArg (List.map Prod.snd) untouched.symm
  | some entry => rfl

end Ledger

/-- The books agree with the queue. -/
structure Books (run : List (Action n × Scheduler n)) (s : Scheduler n) : Prop where
  balanced : (Ledger.ofRun run).Balanced
  queue : (Ledger.ofRun run).queued.map Prod.snd = s.fibers

theorem eligible_thread {fiber : FiberPtr → Fiber} {thread : ℤ} {it : FiberAndThread}
    (eligible : it.eligible fiber thread = true) : it.thread = -1 ∨ it.thread = thread := by
  simp only [FiberAndThread.eligible, Bool.and_eq_true, Bool.or_eq_true, beq_iff_eq] at eligible
  exact eligible.1

/-- What a step of a worker does to the queue, by where the worker stands. -/
theorem Works.queue (works : Works s w t) : t.fibers = match (s.worker w).location with
    | .scan => s.fibers.eraseP (·.eligible s.fiber (threadId w))
    | .rescheduling f => s.fibers ++ [⟨.fiber f, -1⟩]
    | _ => s.fibers := by
  cases works with
  | take located _ =>
    rw [located]
    exact (scan_eq s.fiber (threadId w) s.fibers).2
  | rest located none =>
    rw [located]
    rw [found, (scan_eq s.fiber (threadId w) s.fibers).1] at none
    exact (List.eraseP_of_forall_not (List.find?_eq_none.mp none)).symm
  | reschedule located => rw [located]; rfl
  | start located => rw [located]; rfl
  | skip located _ => rw [located]; rfl
  | pick located _ => rw [located]; rfl
  | reuse located _ _ => rw [located]; rfl
  | renew located _ => rw [located]; rfl
  | drop located => rw [located]; rfl
  | exit located _ _ => rw [located]; rfl
  | idle located _ _ => rw [located]; rfl
  | enter located _ => rw [located]; rfl
  | resume located => rw [located]; rfl
  | suspend located => rw [located]; rfl
  | wake located => rw [located]; rfl
  | finish located _ => rw [located]; rfl
  | settle located => rw [located]; rfl
  | hold located => rw [located]; rfl
  | recycle located _ => rw [located]; rfl

theorem Books.step {run : List (Action n × Scheduler n)} {action : Action n} (books : Books run s)
    (step : (machine n).Step s action t) : Books (run ++ [(action, s)]) t := by
  have recorded : Ledger.ofRun (run ++ [(action, s)]) = (Ledger.ofRun run).record (action, s) :=
    List.foldl_concat ..
  have ran := perform_of_step step
  obtain ⟨balanced, queue⟩ := books
  generalize Ledger.ofRun run = l at recorded balanced queue
  suffices (l.record (action, s)).Balanced ∧ (l.record (action, s)).queued.map Prod.snd = t.fibers by
    exact ⟨recorded ▸ this.1, recorded ▸ this.2⟩
  cases action with
  | work w =>
    rw [(work_cases ran).queue, Ledger.record]
    split
    · rw [← queue]
      exact ⟨balanced.take fun _ => eligible_thread, l.take_queued w _⟩
    · refine ⟨balanced.push _, ?_⟩
      rw [Ledger.push, List.map_append, queue]
      rfl
    · exact ⟨balanced, queue⟩
  | leave w how =>
    obtain ⟨slot, f, fiber, -, -, -, rfl⟩ := leave_cases ran
    exact ⟨balanced, queue⟩
  | schedule ft =>
    rw [perform] at ran
    split_ifs at ran
    cases ran
    refine ⟨balanced.push ft, ?_⟩
    rw [Ledger.record, Ledger.push, List.map_append, queue]
    rfl
  | create => cases ran; exact ⟨balanced, queue⟩
  | stop =>
    cases ran
    refine ⟨balanced, ?_⟩
    split_ifs <;> exact queue

theorem books_of_path {run : List (Action n × Scheduler n)}
    (path : ((machine n).observe fun s _ => s).Path started run s) : Books run s := by
  have start : Books [] (started : Scheduler n) := {
    balanced := {
      numbered := fun _ _ member => absurd member List.not_mem_nil
      allowed := fun _ _ member => absurd member List.not_mem_nil
      once := fun _ => rfl }
    queue := rfl }
  refine path.history (P := Books) ?_ start
  rintro before s ⟨action, shown⟩ t books ⟨step, seen⟩
  obtain rfl : s = shown := seen
  exact books.step step

/-- In every run of any number of workers the counter is the number of workers between a dequeue and the
decrement that belongs to it; every entry pushed is in the queue once or was dequeued once, by a worker
its thread allows; and when `stopping()` holds the queue is empty and no worker has a dequeued task. -/
theorem scheduler_accounts (run : List (Action n × Scheduler n)) (s : Scheduler n)
    (path : ((machine n).observe fun s _ => s).Path started run s) :
    s.activeThreadCount = (Finset.univ.filter fun w => (s.worker w).location.active = true).card ∧
    (Ledger.ofRun run).queued.map Prod.snd = s.fibers ∧
    (∀ i ft, (Ledger.ofRun run).pushed[i]? = some ft →
      ((Ledger.ofRun run).queued.map Prod.fst).count i +
        ((Ledger.ofRun run).dequeued.map Prod.fst).count i = 1 ∧
      (∀ it, (i, it) ∈ (Ledger.ofRun run).queued → it = ft) ∧
      ∀ w, (i, w) ∈ (Ledger.ofRun run).dequeued → ft.thread = -1 ∨ ft.thread = threadId w) ∧
    (s.stopping = true → s.fibers = [] ∧ ∀ w, (s.worker w).location.active = false) := by
  have reached : (machine n).Reachable s := ⟨started, _, rfl, path.of_observe⟩
  obtain ⟨balanced, queue⟩ := books_of_path path
  refine ⟨activeThreadCount_eq reached, queue, ?_, ?_⟩
  · intro i ft pushed
    refine ⟨?_, ?_, ?_⟩
    · rw [balanced.once i, if_pos (List.getElem?_eq_some_iff.mp pushed).1]
    · intro it member
      exact Option.some.inj ((balanced.numbered i it member).symm.trans pushed)
    · intro w member
      obtain ⟨it, found, may⟩ := balanced.allowed i w member
      cases found.symm.trans pushed
      exact may
  · intro stops
    refine ⟨?_, inactive_of_stopping reached stops⟩
    simp only [stopping, Bool.and_eq_true, List.isEmpty_iff] at stops
    exact stops.1.2

/-- One worker executes the only fiber that was pushed. -/
theorem scheduler_accounts_one : ∃ run s, ((machine 2).observe fun s _ => s).Path started run s ∧
    (s.worker 0).location = .executing .task 3 ∧
    s.activeThreadCount = (Finset.univ.filter fun w => (s.worker w).location.active = true).card := by
  have shown : (endOf oneRunning).map (fun s => (s.worker 0).location) =
      some (Location.executing .task 3) := by decide +kernel
  obtain ⟨s, path, located⟩ := Machine.Path.exists_ofNext (· = started) shown
  have path : (machine 2).Path started oneRunning s := path
  obtain ⟨run, -, observed⟩ := path.exists_observe fun s _ => s
  exact ⟨run, s, observed, located, (scheduler_accounts run s observed).1⟩

end Sylar.Scheduler
