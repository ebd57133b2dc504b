import Mathlib.Data.Nat.Notation
import Mathlib.Logic.Function.Basic
import Sylar.Machine.Path

/-! # `ConfigVar::setValue`

The value is compared and the listeners are called under the read lock; the value is stored under the write
lock, which waits for every reader. Each of these is one step of a thread.
-/

namespace Sylar

namespace ConfigVar

/-- A call of a listener, known by its key in `m_cbs`. -/
structure Notification (V : Type) where
  listener : ℕ
  old_value : V
  new_value : V
deriving DecidableEq, Repr

/-- Where a thread stands in `setValue`. -/
inductive Phase (V : Type) where
  | idle
  /-- Under the read lock, with these listeners still to be called. -/
  | notifying (v : V) (remaining : List ℕ)
  /-- In front of the write lock. -/
  | storing (v : V)
deriving DecidableEq, Repr

/-- Between the first lock and the second. -/
def Phase.reads {V : Type} : Phase V → Bool
  | .notifying _ _ => true
  | _ => false

end ConfigVar

open ConfigVar (Phase Notification)

/-- `m_val`, the keys of `m_cbs` in their order, and the threads. -/
structure ConfigVar (threads : ℕ) (V : Type) where
  val : V
  cbs : List ℕ
  phase : Fin threads → Phase V

namespace ConfigVar

variable {threads : ℕ} {V : Type}

/-- No thread has called `setValue`. -/
def new (val : V) (cbs : List ℕ) : ConfigVar threads V := { val, cbs, phase := fun _ => .idle }

def enter (thread : Fin threads) (phase : Phase V) (m : ConfigVar threads V) : ConfigVar threads V :=
  { m with phase := Function.update m.phase thread phase }

/-- A step of a thread. -/
inductive Action (threads : ℕ) (V : Type) where
  | compare (thread : Fin threads) (v : V)
  | notify (thread : Fin threads)
  | unlock (thread : Fin threads)
  | store (thread : Fin threads)
deriving DecidableEq, Repr

variable [DecidableEq V]

/-- The step, unless the thread is elsewhere or the lock is not free. -/
def perform (m : ConfigVar threads V) : Action threads V → Option (ConfigVar threads V)
  | .compare thread v =>
      match m.phase thread with
      | .idle => if v = m.val then some m else some (m.enter thread (.notifying v m.cbs))
      | _ => none
  | .notify thread =>
      match m.phase thread with
      | .notifying v (_ :: remaining) => some (m.enter thread (.notifying v remaining))
      | _ => none
  | .unlock thread =>
      match m.phase thread with
      | .notifying v [] => some (m.enter thread (.storing v))
      | _ => none
  | .store thread =>
      match m.phase thread with
      | .storing v =>
          if ∀ other, (m.phase other).reads = false then some ({ m with val := v }.enter thread .idle) else none
      | _ => none

omit [DecidableEq V] in
/-- The listener that the step calls, if it calls one. -/
def notification (m : ConfigVar threads V) : Action threads V → Option (Notification V)
  | .notify thread =>
      match m.phase thread with
      | .notifying v (listener :: _) => some ⟨listener, m.val, v⟩
      | _ => none
  | _ => none

/-- Any number of threads that call `setValue`, from any value and with any listeners. -/
def machine (threads : ℕ) (V : Type) [DecidableEq V] : Machine (ConfigVar threads V) (Action threads V) :=
  .ofNext (fun m => m.cbs.Nodup ∧ ∀ thread, m.phase thread = .idle) perform

end ConfigVar

end Sylar
