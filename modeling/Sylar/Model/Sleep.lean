import Mathlib.Algebra.Group.Int.Defs
import Sylar.Model.Timer

/-! # The hooked `sleep`, `usleep` and `nanosleep`

Each hook computes a number of milliseconds and has a one-shot timer schedule the fiber again, on any
thread, before the fiber yields. The arithmetic is done in the types of its arguments: `unsigned int`,
`useconds_t`, and `long` followed by `int`.
-/

namespace Sylar

/-- A value of type `long`. Signed arithmetic that leaves the type has no defined result. -/
def long (v : ℤ) : Option ℤ := if -2 ^ 63 ≤ v ∧ v < 2 ^ 63 then some v else none

structure Timespec where
  tvSec : ℤ
  tvNsec : ℤ
deriving DecidableEq, Repr

namespace Sleep

/-- What a hook does. -/
inductive Action where
  /-- The function of the C library is called. -/
  | original
  /-- A timer of this period schedules the fiber, and the fiber yields. -/
  | addTimer (ms : BitVec 64)
deriving DecidableEq, Repr

def sleep (hookEnable : Bool) (seconds : BitVec 32) : Action :=
  if !hookEnable then .original else .addTimer ((seconds * 1000).setWidth 64)

def usleep (hookEnable : Bool) (usec : BitVec 32) : Action :=
  if !hookEnable then .original else .addTimer ((usec / 1000).setWidth 64)

def nanosleep (hookEnable : Bool) (req : Timespec) : Option Action :=
  if !hookEnable then some .original
  else do
    let product ← long (req.tvSec * 1000)
    let sum ← long (product + (req.tvNsec.tdiv 1000).tdiv 1000)
    let timeoutMs := BitVec.ofInt 32 sum
    return .addTimer (timeoutMs.signExtend 64)

/-- A call of one of the three. -/
inductive Request where
  | sleep (seconds : BitVec 32)
  | usleep (usec : BitVec 32)
  | nanosleep (req : Timespec)
deriving DecidableEq, Repr

def Request.run (hookEnable : Bool) : Request → Option Action
  | .sleep seconds => some (Sleep.sleep hookEnable seconds)
  | .usleep usec => some (Sleep.usleep hookEnable usec)
  | .nanosleep req => Sleep.nanosleep hookEnable req

end Sleep

end Sylar
