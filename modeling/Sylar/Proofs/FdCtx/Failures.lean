import Sylar.Proofs.FdCtx.Nonblock
import Sylar.Proofs.FdCtx.Timeouts

/-! # What a failed call leaves in the context

`fcntl`, `ioctl` and `setsockopt` store what the user asks for and make the real call behind it, whose
answer they return and do not look at. A call that fails leaves the context alone only if there was nothing
to store.
-/

namespace Sylar

/-- The conversion to milliseconds stays in a `long`. -/
abbrev Timeval.Fits (v : Timeval) : Prop :=
  (-2 ^ 63 ≤ v.tvSec * 1000 ∧ v.tvSec * 1000 < 2 ^ 63) ∧
    -2 ^ 63 ≤ v.tvSec * 1000 + v.tvUsec.tdiv 1000 ∧ v.tvSec * 1000 + v.tvUsec.tdiv 1000 < 2 ^ 63

theorem Timeval.milliseconds_eq_some_iff {v : Timeval} {ms : BitVec 64} :
    v.milliseconds = some ms ↔ v.Fits ∧ BitVec.ofInt 64 (v.tvSec * 1000 + v.tvUsec.tdiv 1000) = ms := by
  unfold milliseconds Fits
  simp only [Option.bind_eq_bind, Option.bind_eq_some_iff, long_eq_some]
  constructor
  · rintro ⟨_, ⟨product, rfl⟩, _, ⟨sum, rfl⟩, same⟩
    exact ⟨⟨product, sum⟩, Option.some.inj same⟩
  · rintro ⟨⟨product, sum⟩, rfl⟩
    exact ⟨_, ⟨product, rfl⟩, _, ⟨sum, rfl⟩, rfl⟩

namespace Descriptor

variable {κ : Type} {kernel : SockKernel κ} {d : Descriptor κ} {ctx : FdCtx}

/-- What the hooks keep for the user in a context. -/
structure Same (ctx ctx' : FdCtx) : Prop where
  userNonblock : ctx'.userNonblock = ctx.userNonblock
  recvTimeout : ctx'.recvTimeout = ctx.recvTimeout
  sendTimeout : ctx'.sendTimeout = ctx.sendTimeout

/-- A call of a hook that stores what the user asks for. -/
inductive Storing where
  | setfl (arg : BitVec 32)
  | fionbio (arg : BitVec 32)
  | timeout (hookEnable : Bool) (optname : { o : BitVec 32 // o = SO_RCVTIMEO ∨ o = SO_SNDTIMEO })
      (tv : Timeval)

def Storing.call : Storing → SockCall
  | .setfl arg => .call (.fcntl (.setfl arg))
  | .fionbio arg => .call (.ioctl arg)
  | .timeout hookEnable optname tv => .setsockopt hookEnable SOL_SOCKET optname tv

/-- What the real call returns, made with the argument the hook makes it with. -/
def Storing.answer (kernel : SockKernel κ) (k : κ) (ctx : FdCtx) : Storing → BitVec 32
  | .setfl arg =>
      (kernel.setfl k (if ctx.sysNonblock then arg ||| O_NONBLOCK else arg &&& ~~~O_NONBLOCK)).1
  | .fionbio arg => (kernel.fionbio k arg).1
  | .timeout _ optname tv => (kernel.setsockopt k SOL_SOCKET optname tv).1

/-- The context has already what the user asks for. -/
def Storing.Idle (ctx : FdCtx) : Storing → Prop
  | .setfl arg => nonblock arg = ctx.userNonblock
  | .fionbio arg => (arg != 0) = ctx.userNonblock
  | .timeout hookEnable optname tv => hookEnable = true →
      BitVec.ofInt 64 (tv.tvSec * 1000 + tv.tvUsec.tdiv 1000) = ctx.getTimeout optname

/-- The hook has nothing to convert, or what it converts does not overflow. -/
def Storing.Defined : Storing → Prop
  | .timeout hookEnable _ tv => hookEnable = true → tv.Fits
  | _ => True

/-- The call is defined, and if it returns -1 the context says to the user what it said. -/
def LeavesAlone (kernel : SockKernel κ) (d : Descriptor κ) (ctx : FdCtx) (call : SockCall) : Prop :=
  ∃ result after ctx', d.sockCall kernel call = some (result, after) ∧ after.ctx = some ctx' ∧
    (result = -1 → Same ctx ctx')

/-- The call stores `ctx'` whatever the real call answers. -/
theorem leavesAlone_iff {ctx' : FdCtx} {call : SockCall} {result : BitVec 32} {k : κ}
    (ran : d.sockCall kernel call = some (result, ⟨some ctx', k⟩)) :
    LeavesAlone kernel d ctx call ↔ (result = -1 → Same ctx ctx') := by
  constructor
  · rintro ⟨_, _, _, ran', stored, kept⟩
    cases ran.symm.trans ran'
    cases stored
    exact kept
  · intro kept
    exact ⟨_, _, _, ran, rfl, kept⟩

theorem same_userNonblock {userNonblock : Bool} :
    Same ctx { ctx with userNonblock } ↔ userNonblock = ctx.userNonblock :=
  ⟨fun same => same.userNonblock, fun same => ⟨same, rfl, rfl⟩⟩

theorem same_setTimeout {type : BitVec 32} {v : BitVec 64} :
    Same ctx (ctx.setTimeout type v) ↔ v = ctx.getTimeout type := by
  unfold FdCtx.setTimeout FdCtx.getTimeout
  split_ifs
  · exact ⟨fun same => same.recvTimeout, fun same => ⟨rfl, same, rfl⟩⟩
  · exact ⟨fun same => same.sendTimeout, fun same => ⟨rfl, rfl, same⟩⟩

theorem leavesAlone_userNonblock_iff {call : SockCall} {result : BitVec 32} {userNonblock : Bool} {k : κ}
    (ran : d.sockCall kernel call = some (result, ⟨some { ctx with userNonblock }, k⟩)) :
    LeavesAlone kernel d ctx call ↔ result ≠ -1 ∨ userNonblock = ctx.userNonblock := by
  rw [leavesAlone_iff ran, same_userNonblock, imp_iff_not_or]

/-- `setsockopt` of a timeout converts it before it is stored. -/
theorem leavesAlone_timeout_iff {optname : BitVec 32} (found : d.ctx = some ctx)
    (isOption : optname = SO_RCVTIMEO ∨ optname = SO_SNDTIMEO) (tv : Timeval) :
    LeavesAlone kernel d ctx (.setsockopt true SOL_SOCKET optname tv) ↔ tv.Fits ∧
      ((kernel.setsockopt d.kernel SOL_SOCKET optname tv).1 ≠ -1 ∨
        BitVec.ofInt 64 (tv.tvSec * 1000 + tv.tvUsec.tdiv 1000) = ctx.getTimeout optname) := by
  have ran : d.sockCall kernel (.setsockopt true SOL_SOCKET optname tv) = _ := setsockopt_stores found isOption
  cases converted : tv.milliseconds with
  | none =>
    rw [converted, Option.map_none] at ran
    have overflows : ¬ tv.Fits := fun fits => by
      rw [Timeval.milliseconds_eq_some_iff.mpr ⟨fits, rfl⟩] at converted
      cases converted
    refine iff_of_false ?_ fun both => overflows both.1
    rintro ⟨_, _, _, ran', _⟩
    cases ran.symm.trans ran'
  | some v =>
    rw [converted, Option.map_some] at ran
    obtain ⟨fits, rfl⟩ := Timeval.milliseconds_eq_some_iff.mp converted
    rw [leavesAlone_iff ran, same_setTimeout, imp_iff_not_or, and_iff_right fits]

/-- A call of a hook on a managed open socket leaves the context alone when it fails if and only if the
conversion it makes does not overflow and the real call does not fail or the context has already what the
user asks for. -/
theorem failed_call_leaves_context_iff (kernel : SockKernel κ) (d : Descriptor κ) (ctx : FdCtx)
    (found : d.hooked = some ctx) (storing : Storing) :
    LeavesAlone kernel d ctx storing.call ↔ storing.Defined ∧
      (storing.answer kernel d.kernel ctx ≠ -1 ∨ storing.Idle ctx) := by
  cases storing with
  | setfl arg =>
    have ran : d.sockCall kernel (Storing.setfl arg).call =
        some ((Storing.setfl arg).answer kernel d.kernel ctx,
          ⟨some { ctx with userNonblock := nonblock arg }, (kernel.setfl d.kernel
            (if ctx.sysNonblock then arg ||| O_NONBLOCK else arg &&& ~~~O_NONBLOCK)).2⟩) := by
      simp only [Storing.call, sockCall, Descriptor.call, fcntl, found]
      rfl
    rw [leavesAlone_userNonblock_iff ran]
    exact (and_iff_right trivial).symm
  | fionbio arg =>
    have ran : d.sockCall kernel (Storing.fionbio arg).call =
        some ((Storing.fionbio arg).answer kernel d.kernel ctx,
          ⟨some { ctx with userNonblock := arg != 0 }, (kernel.fionbio d.kernel arg).2⟩) := by
      simp only [Storing.call, sockCall, Descriptor.call, ioctl, found]
      rfl
    rw [leavesAlone_userNonblock_iff ran]
    exact (and_iff_right trivial).symm
  | timeout hookEnable optname tv =>
    have present := (Option.filter_eq_some_iff.mp found).1
    cases hookEnable with
    | false =>
      have ran : d.sockCall kernel (Storing.timeout false optname tv).call =
          some ((Storing.timeout false optname tv).answer kernel d.kernel ctx,
            ⟨some ctx, (kernel.setsockopt d.kernel SOL_SOCKET optname tv).2⟩) := by
        rw [← present]
        rfl
      rw [leavesAlone_iff ran]
      have plain {p : Prop} (hooked : false = true) : p := absurd hooked Bool.false_ne_true
      exact iff_of_true (fun _ => ⟨rfl, rfl, rfl⟩) ⟨plain, Or.inr plain⟩
    | true =>
      refine (leavesAlone_timeout_iff present optname.2 tv).trans (and_congr ?_ (or_congr Iff.rfl ?_))
      · exact ⟨fun fits _ => fits, fun fits => fits rfl⟩
      · exact ⟨fun same _ => same, fun same => same rfl⟩

/-- Two seconds in microseconds are refused, and a receive timeout of two seconds is what the context has
already. -/
theorem failed_call_leaves_context : ∃ kernel : SockKernel Unit, ∃ ctx : FdCtx,
    (Storing.timeout true ⟨SO_RCVTIMEO, Or.inl rfl⟩ ⟨0, 2000000⟩).answer kernel () ctx = -1 ∧
    LeavesAlone kernel ⟨some ctx, ()⟩ ctx (.setsockopt true SOL_SOCKET SO_RCVTIMEO ⟨0, 2000000⟩) :=
  ⟨plainKernel, { isInit := true, isSocket := true, recvTimeout := 2000 }, rfl,
    (failed_call_leaves_context_iff plainKernel _ _ rfl
      (.timeout true ⟨SO_RCVTIMEO, Or.inl rfl⟩ ⟨0, 2000000⟩)).mpr ⟨fun _ => by decide, Or.inr fun _ => rfl⟩⟩

/-- `setsockopt` is refused on a new socket, and the context has a receive timeout that the socket has
not. -/
theorem failed_call_changes_context : ∃ kernel : SockKernel Unit, ∃ after,
    (manage kernel.toKernel ()).hooked.map FdCtx.recvTimeout = some (-1) ∧
    (manage kernel.toKernel ()).setsockopt kernel true SOL_SOCKET SO_RCVTIMEO ⟨0, 2000000⟩ =
      some (-1, after) ∧
    after.ctx.map FdCtx.recvTimeout = some 2000 :=
  ⟨plainKernel, _, rfl, rfl, rfl⟩

end Descriptor

end Sylar
