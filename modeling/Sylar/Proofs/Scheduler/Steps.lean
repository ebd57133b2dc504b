import Mathlib.Data.List.Basic
import Sylar.Model.Scheduler

/-! # What a step of a worker can do

`Works` has one case for each way through a step of `run`, with what was read to get there. Invariants of
runs are proved over these cases and look into no function.
-/

namespace Sylar.Scheduler

variable {n : ℕ} {s t : Scheduler n} {w : Fin n}

/-- The scan moves the entry it takes out of the queue and keeps all others. -/
theorem scan_perm (fiber : FiberPtr → Fiber) (thread : ℤ) (queue : List FiberAndThread) :
    ((scan fiber thread queue).taken.toList ++ (scan fiber thread queue).left).Perm queue := by
  induction queue with
  | nil => exact .refl _
  | cons it rest ih =>
    have skipped : ((scan fiber thread rest).taken.toList ++ it :: (scan fiber thread rest).left).Perm
        (it :: rest) := List.perm_middle.trans (ih.cons it)
    rw [scan]
    split_ifs
    · exact skipped
    · exact skipped
    · exact .refl _

/-- A step of worker `w` outside the code of a fiber. -/
inductive Works (s : Scheduler n) (w : Fin n) : Scheduler n → Prop
  | start : (s.worker w).location = .start →
      Works s w (s.newFiber.setWorker w ⟨.scan, none, some (s.fiberId + 1)⟩)
  | take {ft : FiberAndThread} : (s.worker w).location = .scan → (s.found w).taken = some ft →
      Works s w (goto w (.fetched ft)
        { s with fibers := (s.found w).left, activeThreadCount := s.activeThreadCount + 1 })
  | rest : (s.worker w).location = .scan → (s.found w).taken = none → Works s w (s.goto w .idling)
  | skip {f : FiberPtr} {thread : ℤ} : (s.worker w).location = .fetched ⟨.fiber f, thread⟩ →
      (s.fiber f).ended = true → Works s w (s.goto w .dropping)
  | pick {f : FiberPtr} {thread : ℤ} : (s.worker w).location = .fetched ⟨.fiber f, thread⟩ →
      (s.fiber f).ended = false → Works s w (s.goto w (.entering .task f))
  | reuse {cb : Callback} {thread : ℤ} {f : FiberPtr} {fiber : Fiber} :
      (s.worker w).location = .fetched ⟨.cb cb, thread⟩ → (s.worker w).cbFiber = some f →
      (s.fiber f).reset = .ok fiber →
      Works s w ((s.setFiber f fiber).setWorker w ⟨.entering .cb f, none, (s.worker w).idleFiber⟩)
  | renew {cb : Callback} {thread : ℤ} : (s.worker w).location = .fetched ⟨.cb cb, thread⟩ →
      (s.worker w).cbFiber = none → Works s w (s.newFiber.goto w (.entering .cb (s.fiberId + 1)))
  | drop : (s.worker w).location = .dropping →
      Works s w (goto w .scan { s with activeThreadCount := decrement s.activeThreadCount })
  | exit {f : FiberPtr} : (s.worker w).location = .idling → (s.worker w).idleFiber = some f →
      (s.fiber f).state = .term → Works s w (s.setWorker w ⟨.exited, none, none⟩)
  | idle {f : FiberPtr} : (s.worker w).location = .idling → (s.worker w).idleFiber = some f →
      (s.fiber f).state ≠ .term →
      Works s w (goto w (.entering .idle f) { s with idleThreadCount := s.idleThreadCount + 1 })
  | enter {slot : Slot} {f : FiberPtr} {fiber : Fiber} : (s.worker w).location = .entering slot f →
      (s.fiber f).swapIn = .ok fiber → Works s w ((s.setFiber f fiber).goto w (.resuming slot f))
  | resume {slot : Slot} {f : FiberPtr} : (s.worker w).location = .resuming slot f →
      Works s w ((s.setFiber f (s.fiber f).switchIn).goto w (.executing slot f))
  | suspend {slot : Slot} {f : FiberPtr} : (s.worker w).location = .leaving slot f →
      Works s w ((s.setFiber f (s.fiber f).switchOut).goto w (.returned slot f))
  | wake {f : FiberPtr} : (s.worker w).location = .returned .idle f →
      Works s w (goto w (.settling .idle f) { s with idleThreadCount := decrement s.idleThreadCount })
  | finish {slot : Slot} {f : FiberPtr} : (s.worker w).location = .returned slot f → slot ≠ .idle →
      Works s w (goto w (.settling slot f) { s with activeThreadCount := decrement s.activeThreadCount })
  | settle {slot : Slot} {f : FiberPtr} : (s.worker w).location = .settling slot f →
      Works s w (s.goto w (settle slot f (s.fiber f)))
  | reschedule {f : FiberPtr} : (s.worker w).location = .rescheduling f →
      Works s w ((s.schedule ⟨.fiber f, -1⟩).goto w .scan)
  | hold {f : FiberPtr} : (s.worker w).location = .holding f →
      Works s w ((s.setFiber f { s.fiber f with state := .hold }).goto w .scan)
  | recycle {f : FiberPtr} {fiber : Fiber} : (s.worker w).location = .recycling f →
      (s.fiber f).reset = .ok fiber →
      Works s w ((s.setFiber f fiber).setWorker w ⟨.scan, some f, (s.worker w).idleFiber⟩)

/-- A sequence that completes went through what its first half returned. -/
theorem exists_of_bind_ok {α β : Type} {first : Except Fault α} {next : α → Except Fault β} {b : β}
    (ran : (first >>= next) = .ok b) : ∃ a, first = .ok a ∧ next a = .ok b := by
  cases first with
  | error fault => cases ran
  | ok a => exact ⟨a, rfl, ran⟩

theorem work_cases (ran : s.work w = .ok t) : Works s w t := by
  unfold Scheduler.work at ran
  dsimp only at ran
  split at ran
  next located => cases ran; exact .start located
  next located =>
    split at ran
    next ft left tickleMe found =>
      have others : (s.found w).left = left := congrArg Scan.left found
      rw [← others] at ran
      cases ran
      exact .take located (congrArg Scan.taken found)
    next found => cases ran; exact .rest located (congrArg Scan.taken found)
  next f thread located =>
    cases ran
    split_ifs with ended
    · exact .skip located ended
    · exact .pick located (Bool.eq_false_of_not_eq_true ended)
  next located =>
    split at ran
    next f kept =>
      obtain ⟨fiber, reset, ended⟩ := exists_of_bind_ok ran
      cases ended
      exact .reuse located kept reset
    next none => cases ran; exact .renew located none
  next located => cases ran; exact .drop located
  next located =>
    split at ran
    next f kept =>
      split_ifs at ran with term
      · cases ran; exact .exit located kept term
      · cases ran; exact .idle located kept term
    next => cases ran
  next slot f located =>
    obtain ⟨fiber, swapIn, ended⟩ := exists_of_bind_ok ran
    cases ended
    exact .enter located swapIn
  next located => cases ran; exact .resume located
  next => cases ran
  next located => cases ran; exact .suspend located
  next located => cases ran; exact .wake located
  next busy located => cases ran; exact .finish located busy
  next located => cases ran; exact .settle located
  next located => cases ran; exact .reschedule located
  next located => cases ran; exact .hold located
  next f located =>
    obtain ⟨fiber, reset, ended⟩ := exists_of_bind_ok ran
    cases ended
    exact .recycle located reset
  next => cases ran

/-- The code of a fiber gives the thread back with the state of the fiber set. -/
theorem leave_cases {how : Fiber.Leave} (ran : s.leave w how = .ok t) :
    ∃ slot f fiber, (s.worker w).location = .executing slot f ∧ (s.fiber f).leave how = .ok fiber ∧
      (slot = .idle → how = .yieldToHold ∨ how = .finish ∧ s.stopping = true) ∧
      t = (s.setFiber f fiber).goto w (.leaving slot f) := by
  unfold Scheduler.leave at ran
  split at ran
  next slot f located =>
    split_ifs at ran with refused
    obtain ⟨fiber, left, ended⟩ := exists_of_bind_ok ran
    cases ended
    refine ⟨slot, f, fiber, located, left, ?_, rfl⟩
    intro idle
    by_contra neither
    exact refused ⟨idle, neither⟩
  next => cases ran

theorem perform_of_step {action : Action n} (step : (machine n).Step s action t) :
    s.perform action = .ok t := by
  change (s.perform action).toOption = some t at step
  cases ran : s.perform action with
  | error fault => rw [ran] at step; cases step
  | ok after => rw [ran] at step; cases step; rfl

theorem swapIn_ok {fiber fiber' : Fiber} (ran : fiber.swapIn = .ok fiber') :
    fiber' = { fiber with state := .exec } := by
  unfold Fiber.swapIn at ran
  split_ifs at ran
  cases ran
  rfl

theorem reset_ok {fiber fiber' : Fiber} (ran : fiber.reset = .ok fiber') : fiber' = {} := by
  unfold Fiber.reset at ran
  split_ifs at ran
  cases ran
  rfl

end Sylar.Scheduler
