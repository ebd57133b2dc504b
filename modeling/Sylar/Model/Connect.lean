import Sylar.Model.SetSockOpt

/-! # `connect_with_timeout`

A hooked `connect` on an open socket that its user left in blocking mode. It waits as `do_io` does, with a timer, a
registration for `WRITE` and a yield, and goes on to `getsockopt` where `do_io` would call `fun` again, but also where
`addEvent` has failed and `do_io` gives up.
-/

namespace Sylar

namespace Connect

/-- Where the calling fiber is. -/
inductive Stage where
  /-- In front of `connect_f`. -/
  | connecting
  /-- From the answer `EINPROGRESS` on, at the location `DoIo` has. -/
  | waiting
  /-- In front of `getsockopt`. -/
  | asking
  /-- Returned with this value; `errno` is what `connect_with_timeout` sets it to. -/
  | returned (n : ℤ) (errno : Option ℕ)
deriving DecidableEq, Repr

/-- The answer of `connect_f`, a step of the wait or of other threads, and what `getsockopt` reads of `SO_ERROR`, if it
succeeds. -/
inductive Action where
  | connect (n : ℤ) (inProgress : Bool)
  | wait (action : DoIo.Action)
  | getsockopt (error : Option ℕ)
deriving DecidableEq, Repr

end Connect

/-- One call. -/
structure Connect where
  stage : Connect.Stage := .connecting
  io : DoIo := { location := .arming }
deriving DecidableEq, Repr

namespace Connect

/-- Where the fiber is once the wait has come to this location. -/
def onward (stage : Stage) (location : DoIo.Location) : Stage :=
  match stage, location with
  | .waiting, .calling => .asking
  | .waiting, .returned _ none => .asking
  | .waiting, .returned n (some errno) => .returned n (some errno)
  | stage, _ => stage

/-- `winfo.lock()` gets the `timer_info`: the call is not over, or a callback still has it. -/
def alive (s : Connect) : Bool :=
  (match s.stage with
    | .returned _ _ => false
    | _ => true) ||
  s.io.timers.contains .setting || s.io.timers.contains .cancelling

/-- The step is not one of the fiber. -/
def ofOthers : DoIo.Action → Bool
  | .expire _ => true
  | .lock _ => true
  | .set _ => true
  | .cancelEvent _ _ => true
  | .trigger => true
  | _ => false

/-- `timeout` is the `timeout_ms` of the source. -/
def perform (timeout : BitVec 64) (s : Connect) : Action → Option Connect
  | .connect n inProgress =>
      match s.stage with
      | .connecting => some { s with stage := if n = -1 ∧ inProgress then .waiting else .returned n none }
      | _ => none
  | .wait (.call _) => none
  | .wait (.lock i) =>
      if s.io.timers[i]? = some .handedOut then
        some { s with io := s.io.setTimer i (if s.alive && s.io.cancelled == 0 then .setting else .consumed) }
      else none
  | .wait action =>
      if s.stage = .waiting ∨ ofOthers action then
        (s.io.perform timeout action).map fun io => { stage := onward s.stage io.location, io }
      else none
  | .getsockopt error =>
      match s.stage with
      | .asking =>
          some { s with stage := match error with
            | none => .returned (-1) none
            | some 0 => .returned 0 none
            | some error => .returned (-1) (some error) }
      | _ => none

/-- The call and everything that happens to its timer and its event. -/
def machine (timeout : BitVec 64) : Machine Connect Action := .ofNext (· = {}) (perform timeout)

end Connect

/-- The tests at the top of `connect_with_timeout`. -/
def Descriptor.connect {κ : Type} (d : Descriptor κ) (hookEnable : Bool) (timeoutMs : BitVec 64) : DoIo.Entry :=
  if !hookEnable then .original
  else
    match d.ctx with
    | none => .closed
    | some ctx =>
        if ctx.isClosed then .closed
        else if !ctx.isSocket then .original
        else if ctx.userNonblock then .original
        else .waits timeoutMs

end Sylar
