import Sylar.Model.DoIo
import Sylar.Model.IOManager

/-! # Hooked calls that share an `IOManager`

Any number of fibers make one hooked call after the other on any descriptors. Each call is as in `DoIo`, but its event is
registered with the `IOManager` and its fiber comes back from the queue of its scheduler: `addEvent` and `cancelEvent` are
those of the `IOManager`, and `resume` takes a task that was scheduled. Callbacks of timers outlive their call and
cancel whatever is registered for its event then. Other users of the `IOManager` and the dispatch of reports
are requests.
-/

namespace Sylar

/-- One call of `do_io`: who makes it, for what, and what `DoIo` has of it but for the registration and the queue. -/
structure HookedCall where
  fiber : FiberPtr
  scheduler : SchedulerPtr
  fd : ℕ
  event : IOManager.Event
  timeout : BitVec 64
  location : DoIo.Location := .calling
  cancelled : ℕ := 0
  timers : List DoIo.Callback.State := []
deriving DecidableEq, Repr

namespace HookedCall

/-- The call has returned. -/
def returned (call : HookedCall) : Bool :=
  match call.location with
  | .returned _ _ => true
  | _ => false

/-- The call as `DoIo` has it, given its registration and how often its fiber is queued. -/
def core (call : HookedCall) (registered : Bool) (scheduled : ℕ) : DoIo :=
  ⟨call.location, call.cancelled, call.timers, registered, scheduled⟩

/-- The call after a step of `DoIo`. -/
def assign (call : HookedCall) (io : DoIo) : HookedCall :=
  { call with location := io.location, cancelled := io.cancelled, timers := io.timers }

def goto (location : DoIo.Location) (call : HookedCall) : HookedCall := { call with location }

end HookedCall

/-- The calls made so far, and how often each fiber was swapped in again; the tasks of the queues are those the
`IOManager` has scheduled. -/
structure HookedIo where
  iom : IOManager
  calls : List HookedCall
  swappedIn : FiberPtr → ℕ

namespace HookedIo

def new : HookedIo := ⟨IOManager.new, [], fun _ => 0⟩

def setCall (i : ℕ) (call : HookedCall) (s : HookedIo) : HookedIo := { s with calls := s.calls.set i call }

/-- How often the fiber was scheduled. -/
def queued (iom : IOManager) (fiber : FiberPtr) : ℕ := (iom.scheduled.map Prod.snd).count (.fiber fiber)

/-- A fiber enters `do_io`, a call or one of its callbacks makes its next step, someone else uses the `IOManager`. -/
inductive Action where
  | enter (fiber : FiberPtr) (scheduler : SchedulerPtr) (fd : ℕ) (event : IOManager.Event) (timeout : BitVec 64)
  | step (i : ℕ) (action : DoIo.Action)
  | request (r : IOManager.Request)
deriving DecidableEq, Repr

/-- `iom->addEvent(fd, event)` of the call. -/
def addEvent (call : HookedCall) (granted : Bool) (iom : IOManager) : Except IOManager.Fault (Bool × IOManager) :=
  iom.addEvent call.fd call.event none ⟨some call.scheduler, call.fiber, true⟩ granted

/-- The next step of a call. -/
def stepCall (s : HookedIo) (i : ℕ) (call : HookedCall) : DoIo.Action → Option HookedIo
  | .addEvent granted =>
      match call.location with
      | .adding timer =>
          match addEvent call granted s.iom with
          | .ok (added, iom) =>
              some ({ s with iom }.setCall i (call.goto (if added then .added timer else .failed timer)))
          | .error _ => none
      | _ => none
  | .resume =>
      match call.location with
      | .parked timer =>
          if s.swappedIn call.fiber < queued s.iom call.fiber then
            some ({ s with
              swappedIn := Function.update s.swappedIn call.fiber (s.swappedIn call.fiber + 1) }.setCall i
                (call.goto (.resumed timer)))
          else none
      | _ => none
  | .cancelEvent j granted =>
      if call.timers[j]? = some .cancelling then
        match s.iom.cancelEvent call.fd call.event granted with
        | .ok (_, iom) => some ({ s with iom }.setCall i { call with timers := call.timers.set j .consumed })
        | .error _ => none
      else none
  | .trigger => none
  | action => ((call.core false 0).perform call.timeout action).map fun io => s.setCall i (call.assign io)

def perform (s : HookedIo) : Action → Option HookedIo
  | .enter fiber scheduler fd event timeout =>
      some { s with calls := s.calls ++ [{ fiber, scheduler, fd, event, timeout }] }
  | .step i action => s.calls[i]?.bind fun call => s.stepCall i call action
  | .request r =>
      match s.iom.perform r with
      | .ok (_, iom) => some { s with iom }
      | .error _ => none

def machine : Machine HookedIo Action := .ofNext (· = new) perform

/-! ## What the users see to -/

/-- A call that is not over has this event of this descriptor. -/
def Uses (s : HookedIo) (fd : ℕ) (event : IOManager.Event) : Prop :=
  ∃ call ∈ s.calls, call.returned = false ∧ call.fd = fd ∧ call.event = event

/-- A fiber is in one call at a time, and for each event of a descriptor there is one fiber at a time. Others register
callbacks, on scheduler threads, and keep off what a call has but may cancel it. -/
def Allowed (s : HookedIo) : Action → Prop
  | .enter fiber _ fd event _ =>
      (∀ call ∈ s.calls, call.returned = false → call.fiber ≠ fiber) ∧ ¬ s.Uses fd event ∧
        (s.iom.context fd).getContext event = {}
  | .request (.addEvent fd event cb caller _) => ¬ s.Uses fd event ∧ cb.isSome ∧ caller.scheduler.isSome
  | .request (.delEvent fd event _) => ¬ s.Uses fd event
  | _ => True

end HookedIo

end Sylar
