import Mathlib.Algebra.Group.Int.Defs
import Mathlib.Algebra.Group.Nat.Defs
import Sylar.Model.Timer

/-! # One worker of an `IOManager`: `run`, `idle` and the wake-up pipe

The worker scans the queue and, finding nothing, counts itself as idle, asks `stopping` for the time to
the next timer and blocks in `epoll_wait`. Other threads add timers and tasks, and each decides on its
own whether to write the pipe. Every task here is one the worker may run, so that its scan takes the
first; what a task does is done by steps of the worker's thread in between.
-/

namespace Sylar

/-- Why `tickle` is called. -/
inductive Cause where
  /-- `schedule` found the queue empty. -/
  | schedule
  /-- `onTimerInsertedAtFront`. -/
  | timer
  /-- `run` left entries in the queue, or `stop`. -/
  | other
deriving DecidableEq, Repr

/-- A call of `IOManager::tickle`; `idle` says that `hasIdleThreads` was true and the write is next. -/
structure Tickle where
  cause : Cause
  idle : Bool := false
deriving DecidableEq, Repr

/-- Where the worker is. -/
inductive IdleLoop.Location where
  /-- At the top of the loop of `run`. -/
  | scan
  /-- A task executes. -/
  | running (task : Task)
  /-- The task is not counted any more, and may be scheduled again. -/
  | finished
  /-- The scan has found nothing, and `++m_idleThreadCount` is next. -/
  | idling
  /-- In `idle`, in front of `stopping`. -/
  | raised
  /-- In `stopping`, behind `getNextTimer`, which saw `earliest` at the front of the set. -/
  | observed (earliest : Option (BitVec 64)) (timeout : BitVec 64)
  /-- In `epoll_wait`. -/
  | waiting (earliest : Option (BitVec 64)) (timeout : ℤ)
  /-- In front of `listExpiredCb`; `tickled` says that the pipe is among the events reported. -/
  | woken (tickled : Bool)
  /-- In `listExpiredCb`, behind its emptiness check. -/
  | listing (tickled : Bool)
  /-- The callbacks of the expired timers are scheduled next. -/
  | listed (tickled : Bool) (cbs : List (Option Callback))
  /-- In the loop over the events. -/
  | handling (tickled : Bool)
  /-- Back in `run`, in front of `--m_idleThreadCount`; `ended` says that `idle` has returned. -/
  | lowering (ended : Bool)
  | exited
deriving DecidableEq, Repr

/-- How `epoll_wait` returns. -/
inductive IdleLoop.Wake where
  | ready (tickled : Bool)
  | timeout
deriving DecidableEq, Repr

open IdleLoop (Location Wake)

/-- The members of the `IOManager`, the pipe, the worker, and for each thread the call of `tickle` it is
in. `idleEnded` is the state of `idle_fiber`. -/
structure IdleLoop where
  timers : TimerManager.State
  fibers : List Task
  activeThreadCount : ℕ
  idleThreadCount : ℕ
  pendingEventCount : ℕ
  autoStop : Bool
  stopRequested : Bool
  pipe : ℕ
  location : Location
  idleEnded : Bool
  tickling : ℕ → Option Tickle

namespace IdleLoop

/-- The thread of the worker. -/
def worker : ℕ := 0

def goto (location : Location) (s : IdleLoop) : IdleLoop := { s with location }

def setTickling (thread : ℕ) (tickle : Option Tickle) (s : IdleLoop) : IdleLoop :=
  { s with tickling := Function.update s.tickling thread tickle }

/-- `tickle` is called next if `needTickle`. -/
def tickleIf (thread : ℕ) (cause : Cause) (needTickle : Bool) (s : IdleLoop) : IdleLoop :=
  s.setTickling thread (if needTickle then some ⟨cause, false⟩ else s.tickling thread)

/-- `schedule` under the lock, which calls `tickle` behind it if the queue was empty. -/
def schedule (thread : ℕ) (tasks : List Task) (s : IdleLoop) : IdleLoop :=
  tickleIf thread .schedule s.fibers.isEmpty { s with fibers := s.fibers ++ tasks }

/-- `Scheduler::stopping`. -/
def schedulerStopping (s : IdleLoop) : Bool :=
  s.autoStop && s.stopRequested && s.fibers.isEmpty && s.activeThreadCount == 0

/-- The rest of `IOManager::stopping` behind `getNextTimer`. -/
def stopping (timeout : BitVec 64) (s : IdleLoop) : Bool :=
  timeout == ~~~0#64 && s.pendingEventCount == 0 && s.schedulerStopping

/-- `(int)` of a `uint64_t`. -/
def toInt (v : BitVec 64) : ℤ := (v.truncate 32).toInt

/-- What `idle` passes to `epoll_wait`. -/
def epollTimeout (nextTimeout : BitVec 64) : ℤ :=
  toInt (if nextTimeout ≠ ~~~0#64 then if toInt nextTimeout > 3000 then 3000 else nextTimeout else 3000)

/-- The clamp at the top of the `do` loop of `idle`. -/
def clamp (nextTimeout : BitVec 64) : BitVec 64 :=
  if nextTimeout ≠ ~~~0#64 then if toInt nextTimeout > 3000 then 3000 else nextTimeout else 3000

/-- What `idle` passes to `epoll_wait` when it was sent back this often to the top of the loop, which
clamps what it has clamped before. -/
def epollTimeoutAfter (failures : ℕ) (nextTimeout : BitVec 64) : ℤ :=
  toInt (clamp (clamp^[failures] nextTimeout))

/-- The deadline at the front of `m_timers`. -/
def earliest (m : TimerManager) : Option (BitVec 64) := m.timers.head?.map fun timer => (m.heap timer).next

/-- Whether `onTimerInsertedAtFront` is called behind the critical section. -/
def atFront (s : TimerManager.State) : TimerManager.Event → Bool
  | .addTimer self ms cb recurring now => (s.manager.addTimer self ms cb recurring now).atFront
  | .refresh self now _ => (s.manager.refresh self now).atFront
  | .resetLocked thread now _ =>
      match s.phase thread with
      | .resetting self ms fromNow => (s.manager.resetLocked self ms fromNow now).atFront
      | _ => false
  | _ => false

/-- Critical sections of timers that `thread` may enter anywhere: all but those of `listExpiredCb`. -/
def OpenTo (thread : ℕ) : TimerManager.Event → Prop
  | .resetEnter other _ _ _ => other = thread
  | .resetLocked other _ _ => other = thread
  | .listExpiredCbEmpty => False
  | .listExpiredCbEnter _ _ => False
  | .listExpiredCbLocked _ _ _ => False
  | _ => True

/-- The thread is not in a call of `tickle`, and the worker's is in the code of a task. -/
def Free (s : IdleLoop) (thread : ℕ) : Prop :=
  s.tickling thread = none ∧ (thread = worker → ∃ task, s.location = .running task)

/-- A step of the worker, or one that any thread may make. -/
inductive Action where
  | take
  | rest
  | finish
  | again (task : Task)
  | top
  | raise
  | getNextTimer (now : BitVec 64)
  | stopping
  | wake (how : Wake)
  | listExpiredCb (event : TimerManager.Event)
  | scheduleExpired
  | drain
  | trigger (task : Task)
  | yield
  | lower
  | timer (thread : ℕ) (event : TimerManager.Event)
  | schedule (thread : ℕ) (task : Task)
  | checkIdle (thread : ℕ)
  | write (thread : ℕ)
  | events (count : ℕ)
  | autoStop
  | stop (thread : ℕ)

inductive Step : IdleLoop → Action → IdleLoop → Prop
  | take {s : IdleLoop} {task : Task} {rest : List Task} : s.location = .scan → s.fibers = task :: rest →
      Step s .take (tickleIf worker .other (!rest.isEmpty)
        { s with fibers := rest, activeThreadCount := s.activeThreadCount + 1, location := .running task })
  | rest {s : IdleLoop} : s.location = .scan → s.fibers = [] →
      Step s .rest (s.goto (if s.idleEnded then .exited else .idling))
  | finish {s : IdleLoop} {task : Task} : s.location = .running task → s.tickling worker = none →
      Step s .finish { s with activeThreadCount := s.activeThreadCount - 1, location := .finished }
  | again {s : IdleLoop} {task : Task} : s.location = .finished → s.tickling worker = none →
      Step s (.again task) (s.schedule worker [task])
  | top {s : IdleLoop} : s.location = .finished → s.tickling worker = none → Step s .top (s.goto .scan)
  | raise {s : IdleLoop} : s.location = .idling →
      Step s .raise { s with idleThreadCount := s.idleThreadCount + 1, location := .raised }
  | getNextTimer {s : IdleLoop} {now timeout : BitVec 64} {timers : TimerManager.State} :
      s.location = .raised → TimerManager.Step s.timers (.getNextTimer now timeout) timers →
      Step s (.getNextTimer now)
        { s with timers := timers, location := .observed (earliest s.timers.manager) timeout }
  | stopping {s : IdleLoop} {earliest : Option (BitVec 64)} {timeout : BitVec 64} :
      s.location = .observed earliest timeout → Step s .stopping
        (s.goto (if s.stopping timeout then .lowering true else .waiting earliest (epollTimeout timeout)))
  | ready {s : IdleLoop} {earliest : Option (BitVec 64)} {timeout : ℤ} {tickled : Bool} :
      s.location = .waiting earliest timeout → (tickled = true → 0 < s.pipe) →
      Step s (.wake (.ready tickled)) (s.goto (.woken tickled))
  | timeout {s : IdleLoop} {earliest : Option (BitVec 64)} {timeout : ℤ} :
      s.location = .waiting earliest timeout → 0 ≤ timeout →
      Step s (.wake .timeout) (s.goto (.woken false))
  | listExpiredCbEmpty {s : IdleLoop} {tickled : Bool} {timers : TimerManager.State} :
      s.location = .woken tickled → TimerManager.Step s.timers .listExpiredCbEmpty timers →
      Step s (.listExpiredCb .listExpiredCbEmpty) (s.goto (.listed tickled []))
  | listExpiredCbEnter {s : IdleLoop} {tickled : Bool} {now : BitVec 64} {timers : TimerManager.State} :
      s.location = .woken tickled → TimerManager.Step s.timers (.listExpiredCbEnter worker now) timers →
      Step s (.listExpiredCb (.listExpiredCbEnter worker now))
        { s with timers := timers, location := .listing tickled }
  | listExpiredCbLocked {s : IdleLoop} {tickled : Bool} {probe : TimerPtr} {cbs : List (Option Callback)}
      {timers : TimerManager.State} : s.location = .listing tickled →
      TimerManager.Step s.timers (.listExpiredCbLocked worker probe cbs) timers →
      Step s (.listExpiredCb (.listExpiredCbLocked worker probe cbs))
        { s with timers := timers, location := .listed tickled cbs }
  | scheduleExpired {s : IdleLoop} {tickled : Bool} {cbs : List (Option Callback)} :
      s.location = .listed tickled cbs → Step s .scheduleExpired
        (if cbs.isEmpty then s.goto (.handling tickled)
          else (s.schedule worker (cbs.filterMap fun cb => cb.map Task.cb)).goto (.handling tickled))
  | drain {s : IdleLoop} : s.location = .handling true → s.tickling worker = none →
      Step s .drain
        (if s.pipe = 0 then s.goto (.handling false) else { s with pipe := s.pipe - 1 })
  | trigger {s : IdleLoop} {tickled : Bool} {task : Task} : s.location = .handling tickled →
      s.tickling worker = none → Step s (.trigger task)
        { s.schedule worker [task] with pendingEventCount := s.pendingEventCount - 1 }
  | yield {s : IdleLoop} : s.location = .handling false → s.tickling worker = none →
      Step s .yield (s.goto (.lowering false))
  | lower {s : IdleLoop} {ended : Bool} : s.location = .lowering ended → Step s .lower
      { s with idleThreadCount := s.idleThreadCount - 1, location := .scan, idleEnded := ended }
  | timer {s : IdleLoop} {thread : ℕ} {event : TimerManager.Event} {timers : TimerManager.State} :
      s.Free thread → OpenTo thread event → TimerManager.Step s.timers event timers →
      Step s (.timer thread event)
        (tickleIf thread .timer (atFront s.timers event) { s with timers := timers })
  | schedule {s : IdleLoop} {thread : ℕ} {task : Task} : s.Free thread →
      Step s (.schedule thread task) (s.schedule thread [task])
  | checkIdle {s : IdleLoop} {thread : ℕ} {cause : Cause} : s.tickling thread = some ⟨cause, false⟩ →
      Step s (.checkIdle thread)
        (s.setTickling thread (if 0 < s.idleThreadCount then some ⟨cause, true⟩ else none))
  | write {s : IdleLoop} {thread : ℕ} {cause : Cause} : s.tickling thread = some ⟨cause, true⟩ →
      Step s (.write thread) ({ s with pipe := s.pipe + 2 }.setTickling thread none)
  | events {s : IdleLoop} {count : ℕ} : Step s (.events count) { s with pendingEventCount := count }
  | autoStop {s : IdleLoop} : Step s .autoStop { s with autoStop := true }
  | stop {s : IdleLoop} {thread : ℕ} : s.autoStop = true → s.Free thread →
      Step s (.stop thread) ({ s with stopRequested := true }.setTickling thread (some ⟨.other, false⟩))

/-- A worker behind its first allocation, and no thread in the middle of anything. -/
def started (timers : TimerManager.State) : IdleLoop where
  timers := timers
  fibers := []
  activeThreadCount := 0
  idleThreadCount := 0
  pendingEventCount := 0
  autoStop := false
  stopRequested := false
  pipe := 0
  location := .scan
  idleEnded := false
  tickling := fun _ => none

/-- One worker and any number of other threads on one new `IOManager`. -/
def machine : Machine IdleLoop Action where
  Init s := ∃ timers, TimerManager.machine.Init timers ∧ s = started timers
  Step := Step

end IdleLoop

end Sylar
