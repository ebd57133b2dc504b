import Sylar.Machine.Path
import Sylar.Model.Task

/-! # `FiberSemaphore`

Each of the three calls is one critical section under the spinlock, and is one step here: its label says
who called and what the call found. The counter is a `size_t`. `Scheduler::GetThis()` is asserted not to
be null by the calls that may wait.
-/

namespace Sylar

structure FiberSemaphore where
  concurrency : BitVec 64
  waiters : List (SchedulerPtr × FiberPtr)
deriving DecidableEq, Repr

namespace FiberSemaphore

variable (s : FiberSemaphore)

/-- The constructor. -/
def new (initial_concurrency : BitVec 64) : FiberSemaphore := ⟨initial_concurrency, []⟩

def tryWait : Bool × FiberSemaphore :=
  if s.concurrency > 0 then (true, { s with concurrency := s.concurrency - 1 })
  else (false, s)

/-- Whether the fiber returns at once; otherwise it goes on to `YieldToHold`. -/
def wait (scheduler : SchedulerPtr) (fiber : FiberPtr) : Bool × FiberSemaphore :=
  if s.concurrency > 0 then (true, { s with concurrency := s.concurrency - 1 })
  else (false, { s with waiters := s.waiters ++ [(scheduler, fiber)] })

/-- With the fiber that is scheduled, on the scheduler it is handed to. -/
def notify : Option (SchedulerPtr × FiberPtr) × FiberSemaphore :=
  match s.waiters with
  | next :: waiters => (some next, { s with waiters })
  | [] => (none, { s with concurrency := s.concurrency + 1 })

/-- A critical section and what it did. -/
inductive Event where
  | tryWait (granted : Bool)
  | wait (scheduler : SchedulerPtr) (fiber : FiberPtr) (granted : Bool)
  | notify (next : Option (SchedulerPtr × FiberPtr))
deriving DecidableEq, Repr

/-- Any number of fibers that use the semaphore, in any order. -/
def machine : Machine FiberSemaphore Event where
  Init s := ∃ initial, s = new initial
  Step s
    | .tryWait granted, t => s.tryWait = (granted, t)
    | .wait scheduler fiber granted, t => s.wait scheduler fiber = (granted, t)
    | .notify next, t => s.notify = (next, t)

end FiberSemaphore

end Sylar
