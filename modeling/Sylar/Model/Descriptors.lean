import Sylar.Model.IOManager
import Sylar.Model.SetSockOpt

/-! # The hooked `socket`, `accept` and `close`

All descriptors of the process, with what `FdMgr` has for each and one `IOManager`. The kernel gives a number that is not
open. `socket` and `accept` then have `FdMgr` make a context, and `close` cancels all events, has `FdMgr` drop the context
and only then closes the number. Each lock, and each call of the C library, is one step of a thread. How `m_datas` grows
is left to `FdManager`.
-/

namespace Sylar

namespace Descriptors

/-- Where a thread stands in `socket`, `accept` or `close`. -/
inductive Phase where
  | idle
  /-- In `get(fd, true)`, in front of the test of the slot. -/
  | testing (fd : ℕ)
  /-- In `get(fd, true)`, in front of the write lock. -/
  | storing (fd : ℕ)
  /-- In `close`, in front of `cancelAll`. -/
  | cancelling (fd : ℕ)
  /-- In `close`, in front of `del`. -/
  | deleting (fd : ℕ)
  /-- In front of `close_f`. -/
  | closing (fd : ℕ)
deriving DecidableEq, Repr

end Descriptors

/-- What the kernel keeps of each open descriptor, `m_datas`, the `IOManager` and every thread. -/
structure Descriptors (κ : Type) where
  file : ℕ → Option κ
  datas : ℕ → Option FdCtx
  iom : IOManager
  phase : ℕ → Descriptors.Phase

namespace Descriptors

variable {κ : Type}

/-- Nothing is open. -/
def new : Descriptors κ := ⟨fun _ => none, fun _ => none, IOManager.new, fun _ => .idle⟩

/-- The number that a request to the `IOManager` is about. -/
def target : IOManager.Request → ℕ
  | .addEvent fd _ _ _ _ => fd
  | .delEvent fd _ _ => fd
  | .cancelEvent fd _ _ => fd
  | .cancelAll fd _ => fd
  | .dispatch fd _ _ => fd

/-- Whether the kernel grants its call of `epoll_ctl`. -/
def granted : IOManager.Request → Bool
  | .addEvent _ _ _ _ granted => granted
  | .delEvent _ _ granted => granted
  | .cancelEvent _ _ granted => granted
  | .cancelAll _ granted => granted
  | .dispatch _ _ granted => granted

def enter (thread : ℕ) (phase : Phase) (s : Descriptors κ) : Descriptors κ :=
  { s with phase := Function.update s.phase thread phase }

def setFile (fd : ℕ) (file : Option κ) (s : Descriptors κ) : Descriptors κ :=
  { s with file := Function.update s.file fd file }

def setCtx (fd : ℕ) (ctx : Option FdCtx) (s : Descriptors κ) : Descriptors κ :=
  { s with datas := Function.update s.datas fd ctx }

/-- The descriptor as its user has it. -/
def descriptor (fd : ℕ) (k : κ) (s : Descriptors κ) : Descriptor κ := ⟨s.datas fd, k⟩

/-- `socket` and `accept` from the return of `socket_f` or `accept_f`, `close`, a call of the user on an open descriptor
and a request to the `IOManager`. -/
inductive Action (κ : Type) where
  /-- The number is given; `managed` says whether `get(fd, true)` follows. -/
  | opened (thread fd : ℕ) (k : κ) (managed : Bool)
  | test (thread fd : ℕ)
  | store (thread fd : ℕ)
  /-- `hookEnable` is `t_hook_enable`, and `iom` says whether `IOManager::GetThis()` is not null. -/
  | close (thread fd : ℕ) (hookEnable iom : Bool)
  | cancelAll (thread fd : ℕ) (granted : Bool)
  | del (thread fd : ℕ)
  | closeF (thread fd : ℕ)
  | call (fd : ℕ) (c : Descriptor.SockCall)
  | request (r : IOManager.Request)

/-- The request completes. -/
def request (r : IOManager.Request) (s : Descriptors κ) : Option (Descriptors κ) :=
  match IOManager.perform r s.iom with
  | .ok (_, iom) => some { s with iom }
  | .error _ => none

variable (kernel : SockKernel κ)

/-- The step, unless the thread is elsewhere or the call does not complete. Only an open number has its `epoll_ctl`
granted, and a closed one leaves the epoll set. -/
def perform (s : Descriptors κ) : Action κ → Option (Descriptors κ)
  | .opened thread fd k managed =>
      if s.phase thread = .idle ∧ s.file fd = none then
        some ((s.setFile fd (some k)).enter thread (if managed then .testing fd else .idle))
      else none
  | .test thread fd =>
      if s.phase thread = .testing fd then
        some (s.enter thread (if (s.datas fd).isSome then .idle else .storing fd))
      else none
  | .store thread fd =>
      match s.file fd with
      | some k =>
          if s.phase thread = .storing fd then
            let d := Descriptor.manage kernel.toKernel k
            some (((s.setCtx fd d.ctx).setFile fd (some d.kernel)).enter thread .idle)
          else none
      | none => none
  | .close thread fd hookEnable iom =>
      if s.phase thread = .idle then
        some (s.enter thread
          (if hookEnable && (s.datas fd).isSome then (if iom then .cancelling fd else .deleting fd) else .closing fd))
      else none
  | .cancelAll thread fd granted =>
      if s.phase thread = .cancelling fd ∧ ((s.file fd).isSome ∨ granted = false) then
        (s.request (.cancelAll fd granted)).map (enter thread (.deleting fd))
      else none
  | .del thread fd =>
      if s.phase thread = .deleting fd then some ((s.setCtx fd none).enter thread (.closing fd)) else none
  | .closeF thread fd =>
      if s.phase thread = .closing fd then
        let iom := { s.iom with epoll := Function.update s.iom.epoll fd none }
        some (({ s with iom }.setFile fd none).enter thread .idle)
      else none
  | .call fd c =>
      match s.file fd with
      | some k => ((s.descriptor fd k).sockCall kernel c).map fun (_, d) => (s.setCtx fd d.ctx).setFile fd (some d.kernel)
      | none => none
  | .request r => if (s.file (target r)).isSome ∨ granted r = false then s.request r else none

/-- Any number of threads. -/
def machine : Machine (Descriptors κ) (Action κ) := .ofNext (· = new) (perform kernel)

/-! ## What the users see to -/

/-- The number a thread is opening or closing. -/
def Phase.about : Phase → Option ℕ
  | .idle => none
  | .testing fd => some fd
  | .storing fd => some fd
  | .cancelling fd => some fd
  | .deleting fd => some fd
  | .closing fd => some fd

/-- Nobody is opening or closing it. -/
def Free (s : Descriptors κ) (fd : ℕ) : Prop := ∀ thread, (s.phase thread).about ≠ some fd

/-- A descriptor is used between its opening and its closing and closed once, by a call that cleans up what there is:
its context if the hooks are enabled, its events if also the thread belongs to an `IOManager`. -/
def Allowed (s : Descriptors κ) : Action κ → Prop
  | .close _ fd hookEnable iom => s.Free fd ∧ (s.file fd).isSome ∧ ((s.datas fd).isSome → hookEnable = true) ∧
      ((s.iom.context fd).events ≠ 0#32 → hookEnable = true ∧ iom = true ∧ (s.datas fd).isSome)
  | .cancelAll _ _ granted => granted = true
  | .call fd _ => s.Free fd
  | .request (.addEvent fd _ _ caller _) => s.Free fd ∧ (s.file fd).isSome ∧ caller.scheduler.isSome
  | _ => True

end Descriptors

end Sylar
