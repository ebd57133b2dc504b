import Mathlib.Data.Int.Notation
import Mathlib.Data.Nat.Notation
import Sylar.Machine.Path

/-! # `do_io` on a blocking socket

One hooked call on an open socket that its user left in blocking mode. Each time the kernel answers
`EAGAIN` the fiber arms a timer, registers with the `IOManager` for the event and yields. Other threads
expire timers, run their callbacks and trigger the event. A timer is known by its place among those the
call has armed, and goes from the set to the callbacks handed out or is cancelled, as timers do; the
event of the call is registered or not, and triggering it schedules the fiber.
-/

namespace Sylar

namespace DoIo

def ETIMEDOUT : ℕ := 110

/-- What has become of a timer and its callback, which locks `winfo`, tests and sets `cancelled` and calls
`cancelEvent`. -/
inductive Callback.State where
  /-- The timer is in `m_timers`. -/
  | pending
  /-- The callback was handed out and has not looked at `cancelled` yet. -/
  | handedOut
  /-- It has found `cancelled` to be zero. -/
  | setting
  /-- It has set `cancelled`, and `cancelEvent` is next. -/
  | cancelling
  /-- The callback has ended, or the timer was cancelled. -/
  | consumed
deriving DecidableEq, Repr

/-- Where the calling fiber is; the number is that of `timer`, if it is not null. -/
inductive Location where
  /-- In front of `fun`. -/
  | calling
  /-- The answer was `EAGAIN`. -/
  | arming
  /-- In front of `addEvent`. -/
  | adding (timer : Option ℕ)
  /-- `addEvent` has failed. -/
  | failed (timer : Option ℕ)
  /-- The event is registered, and `YieldToHold` is next. -/
  | added (timer : Option ℕ)
  | parked (timer : Option ℕ)
  /-- Swapped in again, in front of `timer->cancel()`. -/
  | resumed (timer : Option ℕ)
  /-- In front of the test of `cancelled`. -/
  | testing
  /-- Returned with this value; `errno` is what `do_io` sets it to. -/
  | returned (n : ℤ) (errno : Option ℕ)
deriving DecidableEq, Repr

/-- How `fun` returns. -/
inductive Outcome where
  | interrupted
  | again
  | done (n : ℤ)
deriving DecidableEq, Repr

end DoIo

open DoIo (Location Callback.State Outcome ETIMEDOUT)

/-- One call: the fiber, `tinfo->cancelled`, the timers it has armed, whether its event is registered and
how often the fiber is in the queue. -/
structure DoIo where
  location : Location := .calling
  cancelled : ℕ := 0
  timers : List Callback.State := []
  registered : Bool := false
  scheduled : ℕ := 0
deriving DecidableEq, Repr

namespace DoIo

def goto (location : Location) (s : DoIo) : DoIo := { s with location }

def setTimer (i : ℕ) (state : Callback.State) (s : DoIo) : DoIo := { s with timers := s.timers.set i state }

/-- `winfo.lock()` gets the `timer_info`: the call is not over, or a callback still has it. -/
def alive (s : DoIo) : Bool :=
  (match s.location with
    | .returned _ _ => false
    | _ => true) ||
  s.timers.contains .setting || s.timers.contains .cancelling

/-- `timer->cancel()`, which does nothing to a callback that was handed out. -/
def cancelTimer (timer : Option ℕ) (s : DoIo) : DoIo :=
  match timer with
  | some i => if s.timers[i]? = some .pending then s.setTimer i .consumed else s
  | none => s

/-- `triggerEvent` of the call's event. -/
def trigger (s : DoIo) : DoIo := { s with registered := false, scheduled := s.scheduled + 1 }

/-- `cancelEvent`, which returns false if the event is not registered or `epoll_ctl` fails. -/
def cancelEvent (granted : Bool) (s : DoIo) : DoIo := if s.registered && granted then s.trigger else s

/-- A step of the fiber, from the call of `fun` to its return, or of other threads: a timer expires, its
callback makes its next step, the event is reported or cancelled by someone else. -/
inductive Action where
  | call (outcome : Outcome)
  | arm
  | addEvent (granted : Bool)
  | yield
  | resume
  | cancelTimer
  | test
  | expire (i : ℕ)
  | lock (i : ℕ)
  | set (i : ℕ)
  | cancelEvent (i : ℕ) (granted : Bool)
  | trigger
deriving DecidableEq, Repr

/-- `timeout` is the `to` of the source. -/
def perform (timeout : BitVec 64) (s : DoIo) : Action → Option DoIo
  | .call outcome =>
      match s.location with
      | .calling => some (s.goto (match outcome with
          | .interrupted => .calling
          | .again => .arming
          | .done n => .returned n none))
      | _ => none
  | .arm =>
      match s.location with
      | .arming =>
          if timeout ≠ -1 then
            some (goto (.adding (some s.timers.length)) { s with timers := s.timers ++ [.pending] })
          else some (s.goto (.adding none))
      | _ => none
  | .addEvent granted =>
      match s.location with
      | .adding timer =>
          if granted then some ({ s with registered := true }.goto (.added timer))
          else some (s.goto (.failed timer))
      | _ => none
  | .yield =>
      match s.location with
      | .added timer => some (s.goto (.parked timer))
      | _ => none
  | .resume =>
      match s.location with
      | .parked timer =>
          if s.scheduled = 0 then none
          else some ({ s with scheduled := s.scheduled - 1 }.goto (.resumed timer))
      | _ => none
  | .cancelTimer =>
      match s.location with
      | .resumed timer => some ((s.cancelTimer timer).goto .testing)
      | .failed timer => some ((s.cancelTimer timer).goto (.returned (-1) none))
      | _ => none
  | .test =>
      match s.location with
      | .testing => some (s.goto (if s.cancelled ≠ 0 then .returned (-1) (some s.cancelled) else .calling))
      | _ => none
  | .expire i => if s.timers[i]? = some .pending then some (s.setTimer i .handedOut) else none
  | .lock i =>
      if s.timers[i]? = some .handedOut then
        some (s.setTimer i (if s.alive && s.cancelled == 0 then .setting else .consumed))
      else none
  | .set i =>
      if s.timers[i]? = some .setting then
        some ({ s with cancelled := ETIMEDOUT }.setTimer i .cancelling)
      else none
  | .cancelEvent i granted =>
      if s.timers[i]? = some .cancelling then some ((s.cancelEvent granted).setTimer i .consumed) else none
  | .trigger => if s.registered then some s.trigger else none

/-- The call and everything that happens to its timers and its event. -/
def machine (timeout : BitVec 64) : Machine DoIo Action := .ofNext (· = {}) (perform timeout)

end DoIo

end Sylar
