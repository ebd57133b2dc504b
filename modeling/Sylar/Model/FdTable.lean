import Mathlib.Data.Int.Notation
import Sylar.Model.IOManager

/-! # `m_fdContexts` under concurrent growth

`addEvent` tests the size of the table under the read lock and grows it, if need be, under the write
lock; the pointer it then holds is used under the mutex of the `FdContext` behind it. Here a pointer is
the address of an `FdContext`, and each lock is one step of a thread. No `FdContext` is deleted before
the `IOManager` is, so the address of a new one is the number of those allocated before it.
-/

namespace Sylar

open IOManager (Event READ WRITE)

/-- The address of an `FdContext`. -/
abbrev FdContextPtr := ℕ

namespace FdTable

/-- A call that looks a registered event up. -/
inductive Lookup where
  | delEvent (event : Event)
  | cancelEvent (event : Event)
  | cancelAll
deriving DecidableEq, Repr

/-- The events the call takes. -/
def Lookup.mask : Lookup → BitVec 32
  | .delEvent event => event.bit
  | .cancelEvent event => event.bit
  | .cancelAll => READ ||| WRITE

/-- Where a thread stands; `none` is what is read past the end of the vector. -/
inductive Phase where
  | idle
  /-- In `addEvent`, in front of the write lock. -/
  | growing (fd : ℕ) (event : Event)
  /-- In `addEvent`, in front of the mutex of the context. -/
  | adding (fd : ℕ) (event : Event) (ctx : Option FdContextPtr)
  /-- In `delEvent`, `cancelEvent` or `cancelAll`, in front of the mutex of the context. -/
  | taking (call : Lookup) (ctx : FdContextPtr)
deriving DecidableEq, Repr

end FdTable

open FdTable (Phase Lookup)

/-- `m_fdContexts`, the number of contexts allocated, the `events` of each, and every thread. -/
structure FdTable where
  fdContexts : List FdContextPtr
  allocated : ℕ
  events : FdContextPtr → BitVec 32
  phase : ℕ → Phase

namespace FdTable

/-- `contextResize`: slots that are new get a fresh context, pointers past the end are dropped. -/
def contextResize (size : ℕ) (m : FdTable) : FdTable :=
  { m with
    fdContexts := m.fdContexts.take size ++ List.range' m.allocated (size - m.fdContexts.length)
    allocated := m.allocated + (size - m.fdContexts.length) }

/-- The constructor. -/
def new : FdTable :=
  contextResize 32 { fdContexts := [], allocated := 0, events := fun _ => 0#32, phase := fun _ => .idle }

/-- `(int)m_fdContexts.size()`. -/
def intSize (m : FdTable) : ℤ := (BitVec.ofNat 32 m.fdContexts.length).toInt

def enter (thread : ℕ) (phase : Phase) (m : FdTable) : FdTable :=
  { m with phase := Function.update m.phase thread phase }

/-- `fd_ctx->events = events`. -/
def setEvents (ctx : FdContextPtr) (events : BitVec 32) (m : FdTable) : FdTable :=
  { m with events := Function.update m.events ctx events }

/-- The part of `addEvent` under the read lock. -/
def check (thread fd : ℕ) (event : Event) (m : FdTable) : FdTable :=
  if m.intSize > fd then m.enter thread (.adding fd event m.fdContexts[fd]?)
  else m.enter thread (.growing fd event)

/-- The part of `addEvent` under the write lock; `fd * 1.5` is converted to `size_t`. -/
def grow (thread fd : ℕ) (event : Event) (m : FdTable) : FdTable :=
  let m := m.contextResize (fd * 3 / 2)
  m.enter thread (.adding fd event m.fdContexts[fd]?)

/-- What `delEvent`, `cancelEvent` and `cancelAll` find under the read lock. -/
def find (fd : ℕ) (m : FdTable) : Option FdContextPtr :=
  if m.intSize ≤ fd then none else m.fdContexts[fd]?

/-- A step of a thread; `granted` says whether `epoll_ctl` succeeds. `dispatch` is `idle` on a report for
a context, which it reaches by the pointer in the report. -/
inductive Action where
  | check (thread fd : ℕ) (event : Event)
  | grow (thread : ℕ)
  | register (thread : ℕ) (granted : Bool)
  | find (thread fd : ℕ) (call : Lookup)
  | take (thread : ℕ) (granted : Bool)
  | dispatch (ctx : FdContextPtr) (real : BitVec 32) (granted : Bool)
deriving DecidableEq, Repr

/-- The step, unless the thread is elsewhere, an assertion fails or the vector is read past its end. -/
def perform (m : FdTable) : Action → Option FdTable
  | .check thread fd event =>
      if m.phase thread = .idle ∧ fd < 2 ^ 31 then some (m.check thread fd event) else none
  | .grow thread =>
      match m.phase thread with
      | .growing fd event => some (m.grow thread fd event)
      | _ => none
  | .register thread granted =>
      match m.phase thread with
      | .adding _ event (some ctx) =>
          if m.events ctx &&& event.bit ≠ 0#32 then none
          else if granted then some ((m.setEvents ctx (m.events ctx ||| event.bit)).enter thread .idle)
          else some (m.enter thread .idle)
      | _ => none
  | .find thread fd call =>
      if m.phase thread = .idle ∧ fd < 2 ^ 31 then
        match m.find fd with
        | some ctx => some (m.enter thread (.taking call ctx))
        | none => some m
      else none
  | .take thread granted =>
      match m.phase thread with
      | .taking call ctx =>
          if m.events ctx &&& call.mask = 0#32 ∨ !granted then some (m.enter thread .idle)
          else some ((m.setEvents ctx (m.events ctx &&& ~~~call.mask)).enter thread .idle)
      | _ => none
  | .dispatch ctx real granted =>
      if m.events ctx &&& real = 0#32 ∨ !granted then some m
      else some (m.setEvents ctx (m.events ctx &&& ~~~real))

/-- Any number of threads on one new `IOManager`. -/
def machine : Machine FdTable Action := .ofNext (· = new) perform

end FdTable

end Sylar
