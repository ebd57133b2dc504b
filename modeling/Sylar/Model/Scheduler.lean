import Mathlib.Algebra.Group.Nat.Defs
import Mathlib.Data.Fin.Basic
import Mathlib.Logic.Function.Basic
import Sylar.Machine.Path
import Sylar.Model.Task

/-! # `Fiber` and `Scheduler`: workers that run the fibers of one queue

Each worker is a thread in `Scheduler::run`, and its location says what it does next. A step is one
access to what the threads share: the queue under its mutex, a counter, the state of a fiber, or the
switch into or out of a fiber's context. The code that runs in a fiber is left open but for how it gives
the thread back; what it schedules is scheduled by steps of its own, as from any other thread.
-/

namespace Sylar

namespace Scheduler

/-- A step that the location does not allow and a failed `SYLAR_ASSERT`. -/
inductive Fault where
  | disabled
  | assertion
deriving DecidableEq, Repr

end Scheduler

open Scheduler (Fault)

/-! ## Fibers -/

/-- `Fiber::State`. -/
inductive Fiber.State where
  | init
  | hold
  | exec
  | term
  | ready
  | except
deriving DecidableEq, Repr

/-- The state of a fiber; `saved` says that `m_ctx` holds all that the fiber has executed so far. -/
structure Fiber where
  state : Fiber.State := .init
  saved : Bool := true
deriving DecidableEq, Repr

namespace Fiber

/-- The state is `TERM` or `EXCEPT`. -/
def ended (fiber : Fiber) : Bool := fiber.state == .term || fiber.state == .except

/-- `reset`: the context is made anew. -/
def reset (fiber : Fiber) : Except Fault Fiber :=
  if fiber.ended ∨ fiber.state = .init then .ok {} else .error .assertion

/-- `swapIn` up to the switch. -/
def swapIn (fiber : Fiber) : Except Fault Fiber :=
  if fiber.state = .exec then .error .assertion else .ok { fiber with state := .exec }

/-- The switch of `swapIn`: from here on the fiber executes what `m_ctx` does not hold. -/
def switchIn (fiber : Fiber) : Fiber := { fiber with saved := false }

/-- The switch of `swapOut`. -/
def switchOut (fiber : Fiber) : Fiber := { fiber with saved := true }

/-- How the code of a fiber gives the thread back: a yield, or the end of `MainFunc` after the function
of the fiber has returned or thrown. -/
inductive Leave where
  | yieldToReady
  | yieldToHold
  | finish
  | throw
deriving DecidableEq, Repr

/-- What happens to the state before `swapOut`. -/
def leave (how : Leave) (fiber : Fiber) : Except Fault Fiber :=
  match how with
  | .yieldToReady =>
      if fiber.state ≠ .exec then .error .assertion else .ok { fiber with state := .ready }
  | .yieldToHold =>
      if fiber.state ≠ .exec then .error .assertion else .ok { fiber with state := .hold }
  | .finish => .ok { fiber with state := .term }
  | .throw => .ok { fiber with state := .except }

end Fiber

open Fiber (Leave)

namespace Scheduler

/-! ## The queue -/

/-- `FiberAndThread`; thread `-1` stands for any. -/
structure FiberAndThread where
  task : Task
  thread : ℤ
deriving DecidableEq, Repr

/-- What the loop over `m_fibers` finds: the entry to run, the queue without it, and whether others
should be told that there is more to do. -/
structure Scan where
  taken : Option FiberAndThread
  left : List FiberAndThread
  tickleMe : Bool
deriving DecidableEq, Repr

/-- The entry is a fiber in state `EXEC`. -/
def FiberAndThread.executing (fiber : FiberPtr → Fiber) (it : FiberAndThread) : Bool :=
  match it.task with
  | .fiber f => (fiber f).state == .exec
  | .cb _ => false

/-- The loop over `m_fibers` in `run`, under the lock. -/
def scan (fiber : FiberPtr → Fiber) (thread : ℤ) : List FiberAndThread → Scan
  | [] => ⟨none, [], false⟩
  | it :: rest =>
      if it.thread ≠ -1 ∧ it.thread ≠ thread then
        let later := scan fiber thread rest
        ⟨later.taken, it :: later.left, true⟩
      else if it.executing fiber then
        let later := scan fiber thread rest
        ⟨later.taken, it :: later.left, later.tickleMe⟩
      else ⟨some it, rest, !rest.isEmpty⟩

/-! ## Workers -/

/-- What `run` has entered a fiber for: `ft.fiber`, the callback in `cb_fiber`, or `idle_fiber`. -/
inductive Slot where
  | task
  | cb
  | idle
deriving DecidableEq, Repr

/-- Where a worker is in `run` and the functions it calls. -/
inductive Location where
  /-- About to create `idle_fiber`. -/
  | start
  /-- At the top of the loop. -/
  | scan
  /-- An entry has been taken from the queue and counted as active. -/
  | fetched (ft : FiberAndThread)
  /-- The fiber that was taken has ended. -/
  | dropping
  /-- No entry has been taken. -/
  | idling
  /-- At the call of `swapIn`. -/
  | entering (slot : Slot) (f : FiberPtr)
  /-- The state is set, and the switch into the context is next. -/
  | resuming (slot : Slot) (f : FiberPtr)
  /-- The code of the fiber executes. -/
  | executing (slot : Slot) (f : FiberPtr)
  /-- A yield or the end has set the state, and the switch out of the context is next. -/
  | leaving (slot : Slot) (f : FiberPtr)
  /-- `swapIn` has returned. -/
  | returned (slot : Slot) (f : FiberPtr)
  /-- The counter is lowered, and the state of the fiber is read next. -/
  | settling (slot : Slot) (f : FiberPtr)
  /-- The fiber was seen `READY` and goes back to the queue. -/
  | rescheduling (f : FiberPtr)
  /-- The fiber is set to `HOLD` next. -/
  | holding (f : FiberPtr)
  /-- `cb_fiber` has ended and is reset next. -/
  | recycling (f : FiberPtr)
  | exited
deriving DecidableEq, Repr

/-- The local variables of `run`. While a callback runs, its fiber is named by the location, and
`cbFiber` holds it again when it is kept for the next one. -/
structure Worker where
  location : Location := .start
  cbFiber : Option FiberPtr := none
  idleFiber : Option FiberPtr := none
deriving DecidableEq, Repr

end Scheduler

/-- The members of `Scheduler` with its `n` workers, all fibers and `s_fiber_id`, the number of the last
fiber created. -/
structure Scheduler (n : ℕ) where
  fibers : List Scheduler.FiberAndThread
  activeThreadCount : ℕ
  idleThreadCount : ℕ
  autoStop : Bool
  stopRequested : Bool
  fiberId : ℕ
  fiber : FiberPtr → Fiber
  worker : Fin n → Scheduler.Worker

namespace Scheduler

variable {n : ℕ}

/-- After the constructor and `start`: no worker has taken a step. -/
def started : Scheduler n where
  fibers := []
  activeThreadCount := 0
  idleThreadCount := 0
  autoStop := false
  stopRequested := false
  fiberId := 0
  fiber := fun _ => {}
  worker := fun _ => {}

/-- `stopping()`. -/
def stopping (s : Scheduler n) : Bool :=
  s.autoStop && s.stopRequested && s.fibers.isEmpty && s.activeThreadCount == 0

/-- `scheduleNoLock` for a task, which is never empty. -/
def schedule (ft : FiberAndThread) (s : Scheduler n) : Scheduler n :=
  { s with fibers := s.fibers ++ [ft] }

/-- `new Fiber`, whose number is `s.fiberId + 1`. -/
def newFiber (s : Scheduler n) : Scheduler n :=
  { s with fiberId := s.fiberId + 1, fiber := Function.update s.fiber (s.fiberId + 1) {} }

def setFiber (f : FiberPtr) (fiber : Fiber) (s : Scheduler n) : Scheduler n :=
  { s with fiber := Function.update s.fiber f fiber }

def setWorker (w : Fin n) (worker : Worker) (s : Scheduler n) : Scheduler n :=
  { s with worker := Function.update s.worker w worker }

def goto (w : Fin n) (location : Location) (s : Scheduler n) : Scheduler n :=
  s.setWorker w { s.worker w with location }

/-- `--count` for a `size_t`, which wraps at zero. -/
def decrement (count : ℕ) : ℕ := if count = 0 then 2 ^ 64 - 1 else count - 1

/-- `sylar::GetThreadId()` of a worker. -/
def threadId (w : Fin n) : ℤ := (w : ℕ)

/-- What the scan of worker `w` would find now. -/
def found (w : Fin n) (s : Scheduler n) : Scan := scan s.fiber (threadId w) s.fibers

/-- Where the branches after `swapIn` lead, by the state of the fiber. -/
def settle (slot : Slot) (f : FiberPtr) (fiber : Fiber) : Location :=
  match slot with
  | .idle => if fiber.ended then .scan else .holding f
  | .task => if fiber.state = .ready then .rescheduling f else if fiber.ended then .scan else .holding f
  | .cb => if fiber.state = .ready then .rescheduling f else if fiber.ended then .recycling f else .holding f

/-- The next step of a worker that is not in the code of a fiber. -/
def work (w : Fin n) (s : Scheduler n) : Except Fault (Scheduler n) :=
  let worker := s.worker w
  match worker.location with
  | .start => .ok (s.newFiber.setWorker w ⟨.scan, none, some (s.fiberId + 1)⟩)
  | .scan =>
      match s.found w with
      | ⟨some ft, left, _⟩ =>
          .ok (goto w (.fetched ft)
            { s with fibers := left, activeThreadCount := s.activeThreadCount + 1 })
      | ⟨none, _, _⟩ => .ok (s.goto w .idling)
  | .fetched ⟨.fiber f, _⟩ =>
      .ok (s.goto w (if (s.fiber f).ended then .dropping else .entering .task f))
  | .fetched ⟨.cb _, _⟩ =>
      match worker.cbFiber with
      | some f => do
          let fiber ← (s.fiber f).reset
          return (s.setFiber f fiber).setWorker w ⟨.entering .cb f, none, worker.idleFiber⟩
      | none => .ok (s.newFiber.goto w (.entering .cb (s.fiberId + 1)))
  | .dropping => .ok (goto w .scan { s with activeThreadCount := decrement s.activeThreadCount })
  | .idling =>
      match worker.idleFiber with
      | some f =>
          if (s.fiber f).state = .term then .ok (s.setWorker w ⟨.exited, none, none⟩)
          else .ok (goto w (.entering .idle f) { s with idleThreadCount := s.idleThreadCount + 1 })
      | none => .error .disabled
  | .entering slot f => do
      let fiber ← (s.fiber f).swapIn
      return (s.setFiber f fiber).goto w (.resuming slot f)
  | .resuming slot f => .ok ((s.setFiber f (s.fiber f).switchIn).goto w (.executing slot f))
  | .executing _ _ => .error .disabled
  | .leaving slot f => .ok ((s.setFiber f (s.fiber f).switchOut).goto w (.returned slot f))
  | .returned .idle f =>
      .ok (goto w (.settling .idle f) { s with idleThreadCount := decrement s.idleThreadCount })
  | .returned slot f =>
      .ok (goto w (.settling slot f) { s with activeThreadCount := decrement s.activeThreadCount })
  | .settling slot f => .ok (s.goto w (settle slot f (s.fiber f)))
  | .rescheduling f => .ok ((s.schedule ⟨.fiber f, -1⟩).goto w .scan)
  | .holding f => .ok ((s.setFiber f { s.fiber f with state := .hold }).goto w .scan)
  | .recycling f => do
      let fiber ← (s.fiber f).reset
      return (s.setFiber f fiber).setWorker w ⟨.scan, some f, worker.idleFiber⟩
  | .exited => .error .disabled

/-- The code in the fiber that worker `w` executes gives the thread back. The code of `idle_fiber` ends
when `stopping()` holds and yields otherwise; an override may find further reasons to yield. -/
def leave (w : Fin n) (how : Leave) (s : Scheduler n) : Except Fault (Scheduler n) :=
  match (s.worker w).location with
  | .executing slot f =>
      if slot = .idle ∧ ¬ (how = .yieldToHold ∨ how = .finish ∧ s.stopping) then .error .disabled
      else do
        let fiber ← (s.fiber f).leave how
        return (s.setFiber f fiber).goto w (.leaving slot f)
  | _ => .error .disabled

/-! ## Runs -/

/-- A step of a worker, or of any thread: a task is scheduled, a fiber is created, or `stop` makes the
next of its two writes. -/
inductive Action (n : ℕ) where
  | work (w : Fin n)
  | leave (w : Fin n) (how : Leave)
  | schedule (ft : FiberAndThread)
  | create
  | stop
deriving DecidableEq, Repr

/-- A fiber can be scheduled once it has been created. -/
def FiberAndThread.Exists (s : Scheduler n) (ft : FiberAndThread) : Prop :=
  ∀ f, ft.task = .fiber f → f ≤ s.fiberId

instance (s : Scheduler n) (ft : FiberAndThread) : Decidable (ft.Exists s) :=
  match ft with
  | ⟨.fiber f, _⟩ => decidable_of_iff (f ≤ s.fiberId) (by simp [FiberAndThread.Exists])
  | ⟨.cb _, _⟩ => isTrue (by rintro f ⟨⟩)

def perform (s : Scheduler n) : Action n → Except Fault (Scheduler n)
  | .work w => s.work w
  | .leave w how => s.leave w how
  | .schedule ft => if ft.Exists s then .ok (s.schedule ft) else .error .disabled
  | .create => .ok s.newFiber
  | .stop => .ok (if s.autoStop then { s with stopRequested := true } else { s with autoStop := true })

/-- The steps that complete. -/
def machine (n : ℕ) : Machine (Scheduler n) (Action n) :=
  .ofNext (· = started) fun s action => (s.perform action).toOption

end Scheduler

end Sylar
