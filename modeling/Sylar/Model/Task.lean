import Mathlib.Data.Nat.Notation

/-! # What can be scheduled

A fiber, a non-empty callback and a scheduler are known by their identity only; a task is one of the first
two, as the `fiber` and `cb` members of `FiberAndThread` and `EventContext` hold it.
-/

namespace Sylar

/-- A non-empty `std::function<void()>`. -/
abbrev Callback := ℕ

/-- The object a non-null `Fiber::ptr` points to. -/
abbrev FiberPtr := ℕ

/-- A `Scheduler*` that is not null. -/
abbrev SchedulerPtr := ℕ

inductive Task where
  | fiber (fiber : FiberPtr)
  | cb (cb : Callback)
deriving DecidableEq, Repr

end Sylar
