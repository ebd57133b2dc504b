import Sylar.Model.DoIo
import Sylar.Model.FdCtx
import Sylar.Model.Sleep

/-! # The hooked `setsockopt`, and the timeout `do_io` reads

`FdCtx` keeps the two timeouts of a socket in milliseconds, all ones standing for none. `setsockopt`
converts the `timeval` it is given before it hands it on, and `do_io` reads the timeout of its direction
once, in front of the first call.
-/

namespace Sylar

def SOL_SOCKET : BitVec 32 := 1
def SO_RCVTIMEO : BitVec 32 := 20
def SO_SNDTIMEO : BitVec 32 := 21

structure Timeval where
  tvSec : ℤ
  tvUsec : ℤ
deriving DecidableEq, Repr

/-- `v->tv_sec * 1000 + v->tv_usec / 1000`, which is a `long`, as the `uint64_t` it is passed as. -/
def Timeval.milliseconds (v : Timeval) : Option (BitVec 64) := do
  let product ← long (v.tvSec * 1000)
  let sum ← long (product + v.tvUsec.tdiv 1000)
  return BitVec.ofInt 64 sum

/-- The kernel with `setsockopt_f`, which is given the level, the option and what `optval` points to. -/
structure SockKernel (κ : Type) extends Kernel κ where
  setsockopt : κ → BitVec 32 → BitVec 32 → Timeval → BitVec 32 × κ

namespace FdCtx

def setTimeout (type : BitVec 32) (v : BitVec 64) (ctx : FdCtx) : FdCtx :=
  if type = SO_RCVTIMEO then { ctx with recvTimeout := v } else { ctx with sendTimeout := v }

def getTimeout (type : BitVec 32) (ctx : FdCtx) : BitVec 64 :=
  if type = SO_RCVTIMEO then ctx.recvTimeout else ctx.sendTimeout

end FdCtx

/-- How `do_io` goes on behind its tests of the descriptor. -/
inductive DoIo.Entry where
  /-- `fun` is called and its answer returned. -/
  | original
  /-- `EBADF`. -/
  | closed
  /-- The loop around `fun`, with this `to`. -/
  | waits (timeout : BitVec 64)
deriving DecidableEq, Repr

/-- The period of the timer `do_io` arms when `fun` has answered `EAGAIN`. -/
def DoIo.armed (timeout : BitVec 64) : Option (BitVec 64) := if timeout ≠ -1 then some timeout else none

namespace Descriptor

variable {κ : Type} (kernel : SockKernel κ) (d : Descriptor κ)

/-- What it returns, and the descriptor after it; `none` if the conversion overflows. -/
def setsockopt (hookEnable : Bool) (level optname : BitVec 32) (optval : Timeval) :
    Option (BitVec 32 × Descriptor κ) :=
  let (result, after) := kernel.setsockopt d.kernel level optname optval
  if hookEnable && level == SOL_SOCKET && (optname == SO_RCVTIMEO || optname == SO_SNDTIMEO) then
    match d.ctx with
    | none => some (result, { d with kernel := after })
    | some ctx => optval.milliseconds.map fun v => (result, ⟨some (ctx.setTimeout optname v), after⟩)
  else some (result, { d with kernel := after })

/-- The tests at the top of `do_io`; `timeoutSo` is the option of its direction. -/
def doIo (hookEnable : Bool) (timeoutSo : BitVec 32) : DoIo.Entry :=
  if !hookEnable then .original
  else
    match d.ctx with
    | none => .original
    | some ctx =>
        if ctx.isClosed then .closed
        else if !ctx.isSocket || ctx.userNonblock then .original
        else .waits (ctx.getTimeout timeoutSo)

/-- A call of the user on a socket. -/
inductive SockCall where
  | call (call : Call)
  | setsockopt (hookEnable : Bool) (level optname : BitVec 32) (optval : Timeval)
deriving DecidableEq, Repr

def sockCall : SockCall → Option (BitVec 32 × Descriptor κ)
  | .call c => some (d.call kernel.toKernel c)
  | .setsockopt hookEnable level optname optval => d.setsockopt kernel hookEnable level optname optval

/-- One call after the other. -/
def sockCalls (calls : List SockCall) : Option (Descriptor κ) :=
  calls.foldlM (fun d c => (d.sockCall kernel c).map Prod.snd) d

end Descriptor

end Sylar
