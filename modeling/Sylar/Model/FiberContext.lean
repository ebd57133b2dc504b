import Sylar.Machine.Path
import Sylar.Machine.Ucontext
import Sylar.Model.Scheduler

/-! # `Fiber`: contexts, the thread-local pointers and the life of the objects

Every thread has three pointers of its own: `t_fiber`, `t_threadFiber` and `t_scheduler_fiber`. A fiber is entered by
`call` from the main fiber of the thread or by `swapIn` from its scheduler fiber, and gives the thread back by `back` or
`swapOut`. A step ends where a thread reaches what others can see: the state of a fiber, or a switch. The code that runs
in a fiber is left open but for what it calls here.
-/

namespace Sylar

namespace Fibers

/-- A step that is not next, a failed `SYLAR_ASSERT`, a null pointer, an object that is gone, and a context that is
out of date. -/
inductive Fault where
  | disabled
  | assertion
  | nullPointer
  | destroyed
  | stale
deriving DecidableEq, Repr

/-- What happens on the stack of a thread, or on the one a fiber has allocated. -/
inductive Execution (τ : Type) where
  | thread (t : τ)
  | fiber (f : FiberPtr)
deriving DecidableEq, Repr

/-- The members of `Fiber` but for `m_ctx` and the size of the stack. The shared pointers to it are counted apart: `frames`
are the local variables `cur` on its own stack, `handles` all others. -/
structure Fiber where
  id : ℕ
  state : Sylar.Fiber.State
  stack : Bool
  useCaller : Bool
  cb : Bool
  handles : ℕ
  frames : ℕ
deriving DecidableEq, Repr

/-- `TERM` or `EXCEPT`. -/
def Fiber.ended (fiber : Fiber) : Bool := fiber.state == .term || fiber.state == .except

/-- The two ways into a fiber. -/
inductive Switch where
  | call
  | swapIn
deriving DecidableEq, Repr

/-- Where an execution stands. -/
inductive Point where
  /-- At the start of `MainFunc` or `CallerMainFunc`. -/
  | entry
  /-- In the function of the fiber, or in the code of the thread. -/
  | inside
  /-- In `call` or `swapIn`, before `swapcontext`. -/
  | entering (how : Switch) (f : FiberPtr)
  /-- In `call` or `swapIn`, from `swapcontext` on. -/
  | entered (f : FiberPtr)
  /-- In `YieldToReady` or `YieldToHold`, at `swapOut` or `back`. -/
  | yielding (cur : FiberPtr)
  /-- The function has ended, at the last `swapOut` or `back`. -/
  | ending (raw : FiberPtr)
  /-- The thread is gone. -/
  | exited
deriving DecidableEq, Repr

end Fibers

/-- The thread-local pointers of every thread, the contexts, where each execution stands and what `MainFunc` has in
`cur`, the objects, the number of addresses used so far, `s_fiber_id` and `s_fiber_count`. -/
structure Fibers (τ : Type) where
  tFiber : τ → Option FiberPtr
  threadFiber : τ → Option FiberPtr
  schedulerFiber : τ → Option FiberPtr
  contexts : Contexts τ (Fibers.Execution τ) FiberPtr
  point : Fibers.Execution τ → Fibers.Point
  cur : Fibers.Execution τ → Option FiberPtr
  fiber : FiberPtr → Option Fibers.Fiber
  created : ℕ
  fiberId : ℕ
  fiberCount : ℕ

namespace Fibers

variable {τ : Type}

/-- No fiber has been made yet. -/
def start : Fibers τ where
  tFiber := fun _ => none
  threadFiber := fun _ => none
  schedulerFiber := fun _ => none
  contexts := ⟨.thread, fun _ => 0, fun _ => none⟩
  point := fun e => match e with
    | .thread _ => .inside
    | .fiber _ => .entry
  cur := fun _ => none
  fiber := fun _ => none
  created := 0
  fiberId := 0
  fiberCount := 0

/-- What the thread executes. -/
def running (t : τ) (s : Fibers τ) : Execution τ := s.contexts.running t

/-- The object behind a pointer. -/
def get (f : FiberPtr) (s : Fibers τ) : Except Fault Fiber :=
  match s.fiber f with
  | some fiber => .ok fiber
  | none => .error .destroyed

/-- A pointer that is followed. -/
def deref : Option FiberPtr → Except Fault FiberPtr
  | some f => .ok f
  | none => .error .nullPointer

def setFiber (f : FiberPtr) (fiber : Option Fiber) (s : Fibers τ) : Fibers τ :=
  { s with fiber := Function.update s.fiber f fiber }

variable [DecidableEq τ]

def setPoint (e : Execution τ) (point : Point) (s : Fibers τ) : Fibers τ :=
  { s with point := Function.update s.point e point }

/-- `SetThis`. -/
def setThis (t : τ) (f : Option FiberPtr) (s : Fibers τ) : Fibers τ :=
  { s with tFiber := Function.update s.tFiber t f }

def setThreadFiber (t : τ) (f : Option FiberPtr) (s : Fibers τ) : Fibers τ :=
  { s with threadFiber := Function.update s.threadFiber t f }

def setSchedulerFiber (t : τ) (f : FiberPtr) (s : Fibers τ) : Fibers τ :=
  { s with schedulerFiber := Function.update s.schedulerFiber t (some f) }

/-! ## Construction and destruction -/

/-- `~Fiber`, on thread `t`. -/
def destroy (t : τ) (f : FiberPtr) (fiber : Fiber) (s : Fibers τ) : Except Fault (Fibers τ) :=
  let s := { s with fiberCount := s.fiberCount - 1 }
  if fiber.stack then
    if fiber.ended ∨ fiber.state = .init then .ok (s.setFiber f none) else .error .assertion
  else if fiber.cb ∨ fiber.state ≠ .exec then .error .assertion
  else if s.tFiber t = some f then .ok ((s.setThis t none).setFiber f none)
  else .ok (s.setFiber f none)

/-- A shared pointer has gone. -/
def drop (t : τ) (f : FiberPtr) (fiber : Fiber) (s : Fibers τ) : Except Fault (Fibers τ) :=
  if fiber.handles = 0 ∧ fiber.frames = 0 then s.destroy t f fiber else .ok (s.setFiber f (some fiber))

/-- One of the handles has gone. -/
def release (t : τ) (f : FiberPtr) (s : Fibers τ) : Except Fault (Fibers τ) := do
  let fiber ← s.get f
  s.drop t f { fiber with handles := fiber.handles - 1 }

/-- One of the variables `cur` has gone. -/
def releaseFrame (t : τ) (f : FiberPtr) (s : Fibers τ) : Except Fault (Fibers τ) := do
  let fiber ← s.get f
  s.drop t f { fiber with frames := fiber.frames - 1 }

/-- `Fiber::Fiber()`; the only pointer to it will be `t_threadFiber`. -/
def newMainFiber (t : τ) (s : Fibers τ) : Fibers τ :=
  { s.setThis t (some s.created) with
    contexts := s.contexts.getcontext t s.created
    fiber := Function.update s.fiber s.created (some ⟨0, .exec, false, false, false, 1, 0⟩)
    created := s.created + 1
    fiberCount := s.fiberCount + 1 }

/-- `Fiber::Fiber(cb, stacksize, use_caller)`. -/
def newFiber (useCaller cb : Bool) (s : Fibers τ) : Fibers τ :=
  { s.setPoint (.fiber s.created) .entry with
    contexts := s.contexts.makecontext s.created (.fiber s.created)
    fiber := Function.update s.fiber s.created (some ⟨s.fiberId + 1, .init, true, useCaller, cb, 1, 0⟩)
    created := s.created + 1
    fiberId := s.fiberId + 1
    fiberCount := s.fiberCount + 1 }

/-- `GetThis`. -/
def getThis (t : τ) (s : Fibers τ) : Except Fault (FiberPtr × Fibers τ) :=
  match s.tFiber t with
  | some f => do
      let _ ← s.get f
      return (f, s)
  | none => do
      let made := (s.newMainFiber t).setThreadFiber t (some s.created)
      match s.threadFiber t with
      | some old => return (s.created, ← made.release t old)
      | none => return (s.created, made)

/-- `reset`. -/
def reset (f : FiberPtr) (useCaller cb : Bool) (s : Fibers τ) : Except Fault (Fibers τ) := do
  let fiber ← s.get f
  if ¬ fiber.stack then .error .assertion
  else if fiber.ended ∨ fiber.state = .init then
    let s := (s.setPoint (.fiber f) .entry).setFiber f (some { fiber with state := .init, useCaller, cb })
    return { s with contexts := s.contexts.makecontext f (.fiber f) }
  else .error .assertion

/-! ## Switches -/

/-- What the execution does once it is resumed: `MainFunc` begins, `cur` of a yield goes out of scope, or `call` or
`swapIn` returns. -/
def resume (t : τ) (s : Fibers τ) : Except Fault (Fibers τ) :=
  let e := s.running t
  match s.point e with
  | .entry => do
      let (cur, s) ← s.getThis t
      let fiber ← s.get cur
      let s := (s.setFiber cur (some { fiber with frames := fiber.frames + 1 })).setPoint e .inside
      return { s with cur := Function.update s.cur e (some cur) }
  | .yielding cur => return (← s.releaseFrame t cur).setPoint e .inside
  | .entered _ => return s.setPoint e .inside
  | .ending _ => .error .assertion
  | .inside | .entering _ _ | .exited => .error .disabled

/-- `swapcontext(&from->m_ctx, &into->m_ctx)`. -/
def swapcontext (t : τ) (out into : FiberPtr) (s : Fibers τ) : Except Fault (Fibers τ) :=
  match s.contexts.swapcontext t out into with
  | some contexts => ({ s with contexts }).resume t
  | none => .error .stale

/-- `call` and `swapIn` up to the switch. -/
def switchTo (t : τ) (how : Switch) (f : FiberPtr) (s : Fibers τ) : Except Fault (Fibers τ) := do
  let fiber ← s.get f
  if how = .swapIn ∧ fiber.state = .exec then .error .assertion
  else
    let s := s.setPoint (s.running t) (.entering how f)
    return (s.setThis t (some f)).setFiber f (some { fiber with state := .exec })

/-- The pointer whose fiber `call` and `back`, or `swapIn` and `swapOut`, switch with. -/
def partner (t : τ) (how : Switch) (s : Fibers τ) : Option FiberPtr :=
  match how with
  | .call => s.threadFiber t
  | .swapIn => s.schedulerFiber t

/-- The switch of `call` and `swapIn`. -/
def enter (t : τ) (s : Fibers τ) : Except Fault (Fibers τ) :=
  match s.point (s.running t) with
  | .entering how f => do
      let out ← deref (s.partner t how)
      let _ ← s.get out
      let _ ← s.get f
      (s.setPoint (s.running t) (.entered f)).swapcontext t out f
  | _ => .error .disabled

/-- `YieldToReady` and `YieldToHold` up to `swapOut` or `back`. -/
def yield (t : τ) (state : Sylar.Fiber.State) (s : Fibers τ) : Except Fault (Fibers τ) := do
  let (cur, s) ← s.getThis t
  let fiber ← s.get cur
  if fiber.state ≠ .exec then .error .assertion
  else
    let s := s.setPoint (s.running t) (.yielding cur)
    return s.setFiber cur (some { fiber with state, frames := fiber.frames + 1 })

/-- The end of `MainFunc` and `CallerMainFunc` up to `swapOut` or `back`. Calling an empty function throws. -/
def finish (t : τ) (thrown : Bool) (s : Fibers τ) : Except Fault (Fibers τ) :=
  match s.cur (s.running t) with
  | some cur => do
      let fiber ← s.get cur
      if ¬ thrown ∧ ¬ fiber.cb then .error .disabled
      else
        let fiber := if thrown then { fiber with state := .except } else { fiber with state := .term, cb := false }
        return (← (s.setFiber cur (some fiber)).releaseFrame t cur).setPoint (s.running t) (.ending cur)
  | none => .error .disabled

/-- How a fiber gives the thread back. `m_use_caller` is only written where the context is made, so it also tells
`CallerMainFunc` from `MainFunc`. -/
def Fiber.wayBack (fiber : Fiber) : Switch := if fiber.useCaller then .call else .swapIn

/-- `swapOut` and `back`. -/
def leave (t : τ) (s : Fibers τ) : Except Fault (Fibers τ) :=
  match s.point (s.running t) with
  | .yielding f | .ending f => do
      let fiber ← s.get f
      let s := s.setThis t (s.partner t fiber.wayBack)
      let into ← deref (s.partner t fiber.wayBack)
      let _ ← s.get into
      s.swapcontext t f into
  | _ => .error .disabled

/-! ## Runs -/

/-- What the code does that a thread executes. -/
inductive Action where
  | getThis
  | create (useCaller cb : Bool)
  | share (f : FiberPtr)
  | release (f : FiberPtr)
  | reset (f : FiberPtr) (useCaller cb : Bool)
  | switchTo (how : Switch) (f : FiberPtr)
  | enter
  | yieldToReady
  | yieldToHold
  | finish (thrown : Bool)
  | leave
  /-- `Scheduler::run` sets `HOLD`. -/
  | hold (f : FiberPtr)
  /-- `Scheduler::run` begins on a thread of the pool. -/
  | run
  /-- The constructor of `Scheduler` with `use_caller`. -/
  | rootFiber
  /-- The thread ends, and `t_threadFiber` with it. -/
  | exit
deriving DecidableEq, Repr

/-- The thread executes its own code or the function of a fiber. -/
def ifInside (t : τ) (s : Fibers τ) (next : Except Fault (Fibers τ)) : Except Fault (Fibers τ) :=
  if s.point (s.running t) = .inside then next else .error .disabled

/-- One more handle. -/
def share (f : FiberPtr) (s : Fibers τ) : Except Fault (Fibers τ) := do
  let fiber ← s.get f
  return s.setFiber f (some { fiber with handles := fiber.handles + 1 })

def hold (f : FiberPtr) (s : Fibers τ) : Except Fault (Fibers τ) := do
  let fiber ← s.get f
  return s.setFiber f (some { fiber with state := .hold })

def exit (t : τ) (s : Fibers τ) : Except Fault (Fibers τ) := do
  let released ← match s.threadFiber t with
    | some f => s.release t f
    | none => .ok s
  return (released.setPoint (s.running t) .exited).setThreadFiber t none

/-- One step of a thread. `swapOut` and `back` are in `leave` alone, as the second halves of a yield and of the end of a
fiber: the direct calls of them that the class allows are no steps. -/
def perform (t : τ) (s : Fibers τ) : Action → Except Fault (Fibers τ)
  | .getThis => s.ifInside t do
      let (f, s) ← s.getThis t
      s.share f
  | .create useCaller cb => s.ifInside t (.ok (s.newFiber useCaller cb))
  | .share f => s.ifInside t (s.share f)
  | .release f => s.ifInside t (s.release t f)
  | .reset f useCaller cb => s.ifInside t (s.reset f useCaller cb)
  | .switchTo how f => s.ifInside t (s.switchTo t how f)
  | .enter => s.enter t
  | .yieldToReady => s.ifInside t (s.yield t .ready)
  | .yieldToHold => s.ifInside t (s.yield t .hold)
  | .finish thrown => s.ifInside t (s.finish t thrown)
  | .leave => s.leave t
  | .hold f => s.ifInside t (s.hold f)
  | .run => s.ifInside t do
      let (f, s) ← s.getThis t
      return s.setSchedulerFiber t f
  | .rootFiber => s.ifInside t do
      let (_, s) ← s.getThis t
      return (s.newFiber true true).setSchedulerFiber t s.created
  | .exit => s.ifInside t (s.exit t)

/-- The steps that complete. -/
def machine (τ : Type) [DecidableEq τ] : Machine (Fibers τ) (τ × Action) :=
  .ofNext (· = start) fun s step => (s.perform step.1 step.2).toOption

/-! ## What the callers see to -/

/-- Some execution is entering the fiber or has entered it. -/
def Busy (s : Fibers τ) (f : FiberPtr) : Prop :=
  ∃ e, s.point e = .entered f ∨ ∃ how, s.point e = .entering how f

/-- Where a way into a fiber starts: `call` on the main fiber of the thread, `swapIn` on its scheduler fiber. -/
def StartsFrom (s : Fibers τ) (t : τ) : Switch → Prop
  | .call => s.running t = .thread t ∧ ∃ m, s.threadFiber t = some m
  | .swapIn => ∃ m, s.schedulerFiber t = some m ∧
      (s.running t = .fiber m ∨ s.running t = .thread t ∧ s.threadFiber t = some m)

/-- The preconditions: those of the header, how `Scheduler` uses fibers, that whoever enters a fiber keeps a pointer
to it, and that nobody enters or resets a fiber that is not idle. `Scheduler::run` does not look before it sets `HOLD`:
that nobody has entered the fiber by then, and that its state is `HOLD` or `READY`, are conditions on the run. -/
def Allowed (s : Fibers τ) (t : τ) : Action → Prop
  | .getThis | .create _ _ => s.point (s.running t) = .inside
  | .share f => s.point (s.running t) = .inside ∧ ∃ fiber, s.fiber f = some fiber
  | .release f => s.point (s.running t) = .inside ∧ ∃ fiber, s.fiber f = some fiber ∧ 1 ≤ fiber.handles ∧
      (s.Busy f ∨ (∃ u, s.threadFiber u = some f) → 2 ≤ fiber.handles)
  | .reset f _ _ => s.point (s.running t) = .inside ∧ ¬ s.Busy f ∧ ∃ fiber, s.fiber f = some fiber ∧
      fiber.stack = true ∧ (fiber.ended = true ∨ fiber.state = .init) ∧ 1 ≤ fiber.handles
  | .switchTo how f => s.point (s.running t) = .inside ∧ s.StartsFrom t how ∧ ¬ s.Busy f ∧
      ∃ fiber, s.fiber f = some fiber ∧ fiber.stack = true ∧ fiber.wayBack = how ∧ fiber.ended = false ∧
        1 ≤ fiber.handles
  | .enter => ∃ how f, s.point (s.running t) = .entering how f
  | .yieldToReady | .yieldToHold => s.point (s.running t) = .inside ∧ ∃ f, s.running t = .fiber f
  | .finish thrown => s.point (s.running t) = .inside ∧ ∃ f fiber, s.running t = .fiber f ∧
      s.fiber f = some fiber ∧ (thrown = true ∨ fiber.cb = true)
  | .leave => ∃ f, s.point (s.running t) = .yielding f ∨ s.point (s.running t) = .ending f
  | .hold f => s.point (s.running t) = .inside ∧ ¬ s.Busy f ∧ ∃ fiber, s.fiber f = some fiber ∧
      fiber.stack = true ∧ (fiber.state = .hold ∨ fiber.state = .ready)
  | .run | .rootFiber | .exit => s.point (s.running t) = .inside ∧ s.running t = .thread t

end Fibers

end Sylar
