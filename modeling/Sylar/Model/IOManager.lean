import Mathlib.Algebra.Group.Nat.Defs
import Mathlib.Logic.Function.Basic
import Sylar.Machine.Path
import Sylar.Model.Task

/-! # `IOManager`: registered events, the epoll set and the dispatch of reports

An `FdContext` is found by its descriptor and never moves, so a pointer to one is the descriptor. Each
function is one step under the mutex of its `FdContext`; whether the kernel grants the step's
`epoll_ctl` call is an argument. The calls of `Scheduler::schedule` are logged in the order in which
they are made. The wake pipe, whose reports the dispatch loop drains and skips, is left out.
-/

namespace Sylar

namespace IOManager

/-! ## The kernel's constants and set -/

def EPOLLIN : BitVec 32 := 0x001#32
def EPOLLOUT : BitVec 32 := 0x004#32
def EPOLLERR : BitVec 32 := 0x008#32
def EPOLLHUP : BitVec 32 := 0x010#32
def EPOLLET : BitVec 32 := 0x80000000#32

/-- `EPOLL_CTL_ADD`, `EPOLL_CTL_MOD` and `EPOLL_CTL_DEL`. -/
inductive EpollOp where
  | add
  | mod
  | del
deriving DecidableEq, Repr

/-- The descriptors in the epoll set with what they are watched for. -/
abbrev EpollSet := ℕ → Option (BitVec 32)

/-- `epoll_ctl`: `granted` says whether the kernel lets a call succeed that may succeed. -/
def epollCtl (op : EpollOp) (fd : ℕ) (events : BitVec 32) (granted : Bool) (epoll : EpollSet) :
    Option EpollSet :=
  match op with
  | .add =>
      if granted && (epoll fd).isNone then some (Function.update epoll fd (some events)) else none
  | .mod =>
      if granted && (epoll fd).isSome then some (Function.update epoll fd (some events)) else none
  | .del => if granted && (epoll fd).isSome then some (Function.update epoll fd none) else none

/-! ## Contexts -/

/-- A single event, `READ` or `WRITE`. -/
inductive Event where
  | read
  | write
deriving DecidableEq, Repr

def READ : BitVec 32 := EPOLLIN
def WRITE : BitVec 32 := EPOLLOUT

/-- The value of the enumerator. -/
def Event.bit : Event → BitVec 32
  | .read => READ
  | .write => WRITE

/-- Who waits for an event. -/
structure EventContext where
  scheduler : Option SchedulerPtr := none
  fiber : Option FiberPtr := none
  cb : Option Callback := none
deriving DecidableEq, Repr

/-- What is known about a descriptor; `events` is the set of registered events. -/
structure FdContext where
  read : EventContext := {}
  write : EventContext := {}
  events : BitVec 32 := 0#32
deriving DecidableEq, Repr

def FdContext.getContext (ctx : FdContext) : Event → EventContext
  | .read => ctx.read
  | .write => ctx.write

/-- Assign to the context `getContext` returns a reference to. -/
def FdContext.setContext (ctx : FdContext) (event : Event) (context : EventContext) : FdContext :=
  match event with
  | .read => { ctx with read := context }
  | .write => { ctx with write := context }

/-- `resetContext` of the event's context. -/
def FdContext.resetContext (ctx : FdContext) (event : Event) : FdContext := ctx.setContext event {}

end IOManager

/-- The members of `IOManager` with the epoll set and the log of scheduled tasks; `size` is
`m_fdContexts.size()` and `context` has its elements. -/
structure IOManager where
  size : ℕ
  context : ℕ → IOManager.FdContext
  pendingEventCount : ℕ
  epoll : IOManager.EpollSet
  scheduled : List (SchedulerPtr × Task)

namespace IOManager

/-- A failed `SYLAR_ASSERT` and a call through a null `Scheduler*`. -/
inductive Fault where
  | assertion
  | nullScheduler
deriving DecidableEq, Repr

/-- The thread that makes a call: `Scheduler::GetThis()`, `Fiber::GetThis()` and whether this fiber's
state is `EXEC`. -/
structure Caller where
  scheduler : Option SchedulerPtr
  fiber : FiberPtr
  executing : Bool
deriving DecidableEq, Repr

/-- `contextResize`: slots that are new get a fresh context, slots past the end are dropped. -/
def contextResize (size : ℕ) (m : IOManager) : IOManager :=
  { m with size, context := fun fd => if fd < min m.size size then m.context fd else {} }

/-- The constructor. -/
def new : IOManager where
  size := 32
  context := fun _ => {}
  pendingEventCount := 0
  epoll := fun _ => none
  scheduled := []

def setFdContext (fd : ℕ) (ctx : FdContext) (m : IOManager) : IOManager :=
  { m with context := Function.update m.context fd ctx }

/-- `--m_pendingEventCount`, which wraps at zero. -/
def decrementPending (m : IOManager) : IOManager :=
  { m with pendingEventCount :=
      if m.pendingEventCount = 0 then 2 ^ 64 - 1 else m.pendingEventCount - 1 }

/-- `schedule(&ctx.cb)` if there is a callback, else `schedule(&ctx.fiber)`; an empty one is ignored. -/
def schedule (scheduler : SchedulerPtr) (ctx : EventContext) (m : IOManager) : IOManager :=
  match ctx.cb, ctx.fiber with
  | some cb, _ => { m with scheduled := m.scheduled ++ [(scheduler, .cb cb)] }
  | none, some fiber => { m with scheduled := m.scheduled ++ [(scheduler, .fiber fiber)] }
  | none, none => m

/-- `FdContext::triggerEvent`. -/
def triggerEvent (fd : ℕ) (event : Event) (m : IOManager) : Except Fault IOManager :=
  let ctx := m.context fd
  if ctx.events &&& event.bit = 0#32 then .error .assertion
  else
    let ctx := { ctx with events := ctx.events &&& ~~~event.bit }
    match (ctx.getContext event).scheduler with
    | none => .error .nullScheduler
    | some scheduler =>
        .ok ((m.schedule scheduler (ctx.getContext event)).setFdContext fd (ctx.resetContext event))

/-- `if(mask & event) { fd_ctx->triggerEvent(event); --m_pendingEventCount; }`. -/
def triggerIf (mask : BitVec 32) (fd : ℕ) (event : Event) (m : IOManager) : Except Fault IOManager :=
  if mask &&& event.bit = 0#32 then .ok m
  else do
    let m ← m.triggerEvent fd event
    return m.decrementPending

/-! ## The functions; the result says whether they report success -/

def addEvent (fd : ℕ) (event : Event) (cb : Option Callback) (caller : Caller) (granted : Bool)
    (m : IOManager) : Except Fault (Bool × IOManager) :=
  let m := if m.size > fd then m else m.contextResize (fd * 3 / 2)
  let ctx := m.context fd
  if ctx.events &&& event.bit ≠ 0#32 then .error .assertion
  else
    let op := if ctx.events ≠ 0#32 then EpollOp.mod else .add
    match epollCtl op fd (EPOLLET ||| ctx.events ||| event.bit) granted m.epoll with
    | none => .ok (false, m)
    | some epoll =>
        let m := { m with epoll, pendingEventCount := m.pendingEventCount + 1 }
        let ctx := { ctx with events := ctx.events ||| event.bit }
        if ctx.getContext event ≠ {} then .error .assertion
        else
          match cb with
          | some cb =>
              .ok (true, m.setFdContext fd (ctx.setContext event ⟨caller.scheduler, none, some cb⟩))
          | none =>
              if !caller.executing then .error .assertion
              else .ok (true,
                m.setFdContext fd (ctx.setContext event ⟨caller.scheduler, some caller.fiber, none⟩))

def delEvent (fd : ℕ) (event : Event) (granted : Bool) (m : IOManager) :
    Except Fault (Bool × IOManager) :=
  if m.size ≤ fd then .ok (false, m)
  else
    let ctx := m.context fd
    if ctx.events &&& event.bit = 0#32 then .ok (false, m)
    else
      let newEvents := ctx.events &&& ~~~event.bit
      let op := if newEvents ≠ 0#32 then EpollOp.mod else .del
      match epollCtl op fd (EPOLLET ||| newEvents) granted m.epoll with
      | none => .ok (false, m)
      | some epoll =>
          let m := { m with epoll }.decrementPending
          .ok (true, m.setFdContext fd ({ ctx with events := newEvents }.resetContext event))

def cancelEvent (fd : ℕ) (event : Event) (granted : Bool) (m : IOManager) :
    Except Fault (Bool × IOManager) :=
  if m.size ≤ fd then .ok (false, m)
  else
    let ctx := m.context fd
    if ctx.events &&& event.bit = 0#32 then .ok (false, m)
    else
      let newEvents := ctx.events &&& ~~~event.bit
      let op := if newEvents ≠ 0#32 then EpollOp.mod else .del
      match epollCtl op fd (EPOLLET ||| newEvents) granted m.epoll with
      | none => .ok (false, m)
      | some epoll => do
          let m ← { m with epoll }.triggerEvent fd event
          return (true, m.decrementPending)

def cancelAll (fd : ℕ) (granted : Bool) (m : IOManager) : Except Fault (Bool × IOManager) :=
  if m.size ≤ fd then .ok (false, m)
  else if (m.context fd).events = 0#32 then .ok (false, m)
  else
    match epollCtl .del fd 0#32 granted m.epoll with
    | none => .ok (false, m)
    | some epoll => do
        let m := { m with epoll }
        let m ← m.triggerIf (m.context fd).events fd .read
        let m ← m.triggerIf (m.context fd).events fd .write
        if (m.context fd).events ≠ 0#32 then .error .assertion else .ok (true, m)

/-- `real_events`: the events a report stands for. An error stands for both. -/
def realEvents (report : BitVec 32) : BitVec 32 :=
  let report :=
    if report &&& (EPOLLERR ||| EPOLLHUP) ≠ 0#32 then report ||| (EPOLLIN ||| EPOLLOUT) else report
  (if report &&& EPOLLIN ≠ 0#32 then READ else 0#32) |||
    (if report &&& EPOLLOUT ≠ 0#32 then WRITE else 0#32)

/-- The body of the loop over the reports in `idle`; the result says whether events were triggered. -/
def dispatch (fd : ℕ) (report : BitVec 32) (granted : Bool) (m : IOManager) :
    Except Fault (Bool × IOManager) :=
  let ctx := m.context fd
  let real := realEvents report
  if ctx.events &&& real = 0#32 then .ok (false, m)
  else
    let leftEvents := ctx.events &&& ~~~real
    let op := if leftEvents ≠ 0#32 then EpollOp.mod else .del
    match epollCtl op fd (EPOLLET ||| leftEvents) granted m.epoll with
    | none => .ok (false, m)
    | some epoll => do
        let m ← { m with epoll }.triggerIf real fd .read
        let m ← m.triggerIf real fd .write
        return (true, m)

/-! ## Runs -/

/-- A step with its arguments. -/
inductive Request where
  | addEvent (fd : ℕ) (event : Event) (cb : Option Callback) (caller : Caller) (granted : Bool)
  | delEvent (fd : ℕ) (event : Event) (granted : Bool)
  | cancelEvent (fd : ℕ) (event : Event) (granted : Bool)
  | cancelAll (fd : ℕ) (granted : Bool)
  | dispatch (fd : ℕ) (report : BitVec 32) (granted : Bool)
deriving DecidableEq, Repr

def perform : Request → IOManager → Except Fault (Bool × IOManager)
  | .addEvent fd event cb caller granted, m => m.addEvent fd event cb caller granted
  | .delEvent fd event granted, m => m.delEvent fd event granted
  | .cancelEvent fd event granted, m => m.cancelEvent fd event granted
  | .cancelAll fd granted, m => m.cancelAll fd granted
  | .dispatch fd report granted, m => m.dispatch fd report granted

/-- The step is not an `addEvent` from a thread that belongs to no scheduler. -/
def Request.OnScheduler : Request → Prop
  | .addEvent _ _ _ caller _ => caller.scheduler.isSome
  | _ => True

/-- The steps that complete, labelled with their result. -/
def machine : Machine IOManager (Request × Bool) where
  Init m := m = new
  Step m label after := m.perform label.1 = .ok (label.2, after)

end IOManager

end Sylar
