import Mathlib.Logic.Function.Basic
import Sylar.Machine.Path
import Sylar.ToMathlib.IntOf

/-! # `FdManager::get`

The size is compared and the table resized, or the slot tested, under the read lock; a missing `FdCtx` is
made and stored under the write lock, which waits for every reader. Each of these is one step of a thread.
An `FdCtx` is known by its address, the number of those made before it.
-/

namespace Sylar

/-- The address of an `FdCtx`. -/
abbrev FdCtxPtr := ℕ

namespace FdManager

/-- Where a thread stands in `get`. -/
inductive Phase where
  | idle
  /-- Under the read lock, in front of `resize`. -/
  | resizing (fd : ℕ)
  /-- Under the read lock, in front of the test of the slot. -/
  | testing (fd : ℕ) (auto_create : Bool)
  /-- In front of the write lock. -/
  | storing (fd : ℕ)
deriving DecidableEq, Repr

/-- A call that has returned. -/
structure Answer where
  fd : ℕ
  auto_create : Bool
  ctx : Option FdCtxPtr
deriving DecidableEq, Repr

end FdManager

open FdManager (Phase Answer)

/-- `m_datas`, the number of contexts made, who holds the read lock, and every thread. -/
structure FdManager where
  datas : List (Option FdCtxPtr)
  made : ℕ
  readers : ℕ
  phase : ℕ → Phase

namespace FdManager

/-- The constructor. -/
def new : FdManager := { datas := List.replicate 64 none, made := 0, readers := 0, phase := fun _ => .idle }

def enter (thread : ℕ) (phase : Phase) (m : FdManager) : FdManager :=
  { m with phase := Function.update m.phase thread phase }

def lock (m : FdManager) : FdManager := { m with readers := m.readers + 1 }

def unlock (m : FdManager) : FdManager := { m with readers := m.readers - 1 }

/-- `(int)m_datas.size()`. -/
def intSize (m : FdManager) : ℤ := intOf m.datas.length

/-- `m_datas.resize(size)`. -/
def resize (size : ℕ) (m : FdManager) : FdManager :=
  { m with datas := m.datas.take size ++ List.replicate (size - m.datas.length) none }

/-- A new context goes into the slot. -/
def store (fd : ℕ) (m : FdManager) : FdManager :=
  { m with datas := m.datas.set fd (some m.made), made := m.made + 1 }

/-- A step of a thread. -/
inductive Action where
  | check (thread fd : ℕ) (auto_create : Bool)
  | resize (thread : ℕ)
  | test (thread : ℕ)
  | store (thread : ℕ)
deriving DecidableEq, Repr

/-- The step, unless the thread is elsewhere, the lock is not free or the vector is read past its end.
`fd * 1.5` is converted to `size_t`. -/
def perform (m : FdManager) : Action → Option FdManager
  | .check thread fd auto_create =>
      if m.phase thread = .idle ∧ fd < 2 ^ 31 then
        if m.intSize ≤ fd then
          if auto_create = false then some m
          else some (m.lock.enter thread (.resizing fd))
        else some (m.lock.enter thread (.testing fd auto_create))
      else none
  | .resize thread =>
      match m.phase thread with
      | .resizing fd => some ((m.resize (fd * 3 / 2)).unlock.enter thread (.storing fd))
      | _ => none
  | .test thread =>
      match m.phase thread with
      | .testing fd auto_create =>
          match m.datas[fd]? with
          | none => none
          | some slot =>
              if slot ≠ none ∨ auto_create = false then some (m.unlock.enter thread .idle)
              else some (m.unlock.enter thread (.storing fd))
      | _ => none
  | .store thread =>
      match m.phase thread with
      | .storing fd =>
          if m.readers = 0 ∧ fd < m.datas.length then some ((m.store fd).enter thread .idle) else none
      | _ => none

/-- What the step returns to the caller, if it is the last of its call. -/
def answer (m : FdManager) : Action → Option Answer
  | .check _ fd auto_create =>
      if m.intSize ≤ fd ∧ auto_create = false then some ⟨fd, auto_create, none⟩ else none
  | .resize _ => none
  | .test thread =>
      match m.phase thread with
      | .testing fd auto_create =>
          match m.datas[fd]? with
          | none => none
          | some slot => if slot ≠ none ∨ auto_create = false then some ⟨fd, auto_create, slot⟩ else none
      | _ => none
  | .store thread =>
      match m.phase thread with
      | .storing fd => some ⟨fd, true, some m.made⟩
      | _ => none

/-- Any number of threads. -/
def machine : Machine FdManager Action := .ofNext (· = new) perform

end FdManager

end Sylar
