/-! # `FdCtx` and the hooked `fcntl` and `ioctl`

One descriptor. What the kernel keeps of it is `κ`, and the calls of the C library on it are a parameter.
The hooks change the two `fcntl` commands about the file status flags and the `ioctl` request `FIONBIO`;
every other command and request they hand on.
-/

namespace Sylar

def O_NONBLOCK : BitVec 32 := 0o4000

def S_ISSOCK (st_mode : BitVec 32) : Bool := st_mode &&& 0o170000 == 0o140000

/-- `fstat`, `fcntl_f` and `ioctl_f` on the descriptor, with what they return; `fstat` gives the mode, if it
succeeds. -/
structure Kernel (κ : Type) where
  fstat : κ → Option (BitVec 32)
  getfl : κ → BitVec 32
  setfl : κ → BitVec 32 → BitVec 32 × κ
  fionbio : κ → BitVec 32 → BitVec 32 × κ

structure FdCtx where
  isInit : Bool := false
  isSocket : Bool := false
  sysNonblock : Bool := false
  userNonblock : Bool := false
  isClosed : Bool := false
  recvTimeout : BitVec 64 := -1
  sendTimeout : BitVec 64 := -1
deriving DecidableEq, Repr

namespace FdCtx

variable {κ : Type} (kernel : Kernel κ)

def init (ctx : FdCtx) (k : κ) : FdCtx × κ :=
  if ctx.isInit then (ctx, k)
  else
    let isSocket := (kernel.fstat k).any S_ISSOCK
    let flags := kernel.getfl k
    ({ ctx with
        isInit := (kernel.fstat k).isSome
        isSocket
        sysNonblock := isSocket
        userNonblock := false
        isClosed := false
        recvTimeout := -1
        sendTimeout := -1 },
      if isSocket && flags &&& O_NONBLOCK == 0 then (kernel.setfl k (flags ||| O_NONBLOCK)).2 else k)

end FdCtx

/-- A descriptor, with what `FdMgr` has for it. -/
structure Descriptor (κ : Type) where
  ctx : Option FdCtx
  kernel : κ

/-- A command of `fcntl` with its argument, `F_SETFL` or `F_GETFL`. -/
inductive Fcntl where
  | setfl (arg : BitVec 32)
  | getfl
deriving DecidableEq, Repr

namespace Descriptor

variable {κ : Type} (kernel : Kernel κ) (d : Descriptor κ)

/-- `FdManager::get` makes a context. -/
def manage (k : κ) : Descriptor κ := ⟨some (FdCtx.init kernel {} k).1, (FdCtx.init kernel {} k).2⟩

/-- The context, unless the hooks have nothing to do with the descriptor. -/
def hooked : Option FdCtx := d.ctx.filter fun ctx => !ctx.isClosed && ctx.isSocket

/-- What it returns, and the descriptor after it. -/
def fcntl : Fcntl → BitVec 32 × Descriptor κ
  | .setfl arg =>
      match d.hooked with
      | none => ((kernel.setfl d.kernel arg).1, { d with kernel := (kernel.setfl d.kernel arg).2 })
      | some ctx =>
          let userNonblock := arg &&& O_NONBLOCK != 0
          let arg := if ctx.sysNonblock then arg ||| O_NONBLOCK else arg &&& ~~~O_NONBLOCK
          ((kernel.setfl d.kernel arg).1, ⟨some { ctx with userNonblock }, (kernel.setfl d.kernel arg).2⟩)
  | .getfl =>
      let arg := kernel.getfl d.kernel
      match d.hooked with
      | none => (arg, d)
      | some ctx => (if ctx.userNonblock then arg ||| O_NONBLOCK else arg &&& ~~~O_NONBLOCK, d)

/-- With the request `FIONBIO`; `arg` is the `int` the caller points to. -/
def ioctl (arg : BitVec 32) : BitVec 32 × Descriptor κ :=
  match d.hooked with
  | none => ((kernel.fionbio d.kernel arg).1, { d with kernel := (kernel.fionbio d.kernel arg).2 })
  | some ctx =>
      ((kernel.fionbio d.kernel arg).1,
        ⟨some { ctx with userNonblock := arg != 0 }, (kernel.fionbio d.kernel arg).2⟩)

/-- A call of the user. -/
inductive Call where
  | fcntl (cmd : Fcntl)
  | ioctl (arg : BitVec 32)
deriving DecidableEq, Repr

def call : Call → BitVec 32 × Descriptor κ
  | .fcntl cmd => d.fcntl kernel cmd
  | .ioctl arg => d.ioctl kernel arg

/-- One call after the other. -/
def calls (calls : List Call) : Descriptor κ := calls.foldl (fun d c => (d.call kernel c).2) d

end Descriptor

end Sylar
