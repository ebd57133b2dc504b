import Sylar.Model.SetSockOpt
import Sylar.Proofs.Sleep.Delay

/-! # What a socket timeout means to a later `do_io`

A timeout is converted to whole milliseconds, and none is told by all ones. The `timeval` of zeros, which
means none to the user, becomes zero milliseconds, and what is below a millisecond is dropped. Calls that
do not set the timeout of a direction leave it alone, so the meaning is decided where it is set.
-/

namespace Sylar

/-- Seconds of 64 bits that are not negative, and microseconds of less than a second. -/
def Timeval.WellFormed (v : Timeval) : Prop :=
  0 ≤ v.tvSec ∧ v.tvSec < 2 ^ 63 ∧ 0 ≤ v.tvUsec ∧ v.tvUsec < 10 ^ 6

/-- The conversion is exact: a timeout is asked for, it is one of whole milliseconds, and these do not
overflow a `long`. -/
def Timeval.Exact (v : Timeval) : Prop :=
  v ≠ ⟨0, 0⟩ ∧ v.tvUsec % 1000 = 0 ∧ v.tvSec * 1000 + v.tvUsec / 1000 < 2 ^ 63

/-- The milliseconds of a `timeval`, rounded down, unless they overflow a `long`. -/
theorem Timeval.milliseconds_eq {v : Timeval} (wf : v.WellFormed) :
    v.milliseconds = if v.tvSec * 1000 + v.tvUsec / 1000 < 2 ^ 63 then
      some (BitVec.ofInt 64 (v.tvSec * 1000 + v.tvUsec / 1000)) else none := by
  obtain ⟨sec, _, usec, _⟩ := wf
  rw [← Int.tdiv_eq_ediv_of_nonneg usec]
  exact long_bind sec (Int.tdiv_nonneg usec (by decide)) fun sum => some (BitVec.ofInt 64 sum)

theorem toNat_ofInt {v : ℤ} (notNegative : 0 ≤ v) (fits : v < 2 ^ 63) : ((BitVec.ofInt 64 v).toNat : ℤ) = v := by
  rw [BitVec.toNat_ofInt]
  omega

theorem FdCtx.getTimeout_setTimeout (type : BitVec 32) (v : BitVec 64) (ctx : FdCtx) :
    (ctx.setTimeout type v).getTimeout type = v := by
  unfold setTimeout getTimeout
  split_ifs <;> rfl

/-- The two timeouts are kept apart. -/
theorem FdCtx.getTimeout_setTimeout_of_ne {type other : BitVec 32} (v : BitVec 64) (ctx : FdCtx)
    (isOption : type = SO_RCVTIMEO ∨ type = SO_SNDTIMEO) (isOption' : other = SO_RCVTIMEO ∨ other = SO_SNDTIMEO)
    (different : other ≠ type) : (ctx.setTimeout other v).getTimeout type = ctx.getTimeout type := by
  have apart : SO_SNDTIMEO ≠ SO_RCVTIMEO := by decide
  unfold setTimeout getTimeout
  rcases isOption with rfl | rfl <;> rcases isOption' with rfl | rfl
  · exact absurd rfl different
  · rw [if_neg apart]
    rfl
  · rw [if_pos rfl]
    rfl
  · exact absurd rfl different

/-- A timer is armed for every timeout but all ones. -/
theorem DoIo.perform_arm {timeout : BitVec 64} {s t : DoIo} (armed : perform timeout s .arm = some t) :
    t.timers.length = s.timers.length + if (DoIo.armed timeout).isSome then 1 else 0 := by
  unfold perform at armed
  dsimp only at armed
  unfold DoIo.armed
  split at armed
  · split_ifs at armed ⊢ <;> cases armed <;> simp_all [goto]
  · cases armed

namespace Descriptor

variable {κ : Type} {kernel : SockKernel κ} {d after : Descriptor κ} {optname : BitVec 32} {tv : Timeval}

/-- The call is one that sets the option of a socket, hooked or not. -/
def SockCall.sets (optname : BitVec 32) : SockCall → Bool
  | .call _ => false
  | .setsockopt _ level other _ => level == SOL_SOCKET && other == optname

/-- A managed open socket that its user left in blocking mode, with its context. -/
def Blocking (d : Descriptor κ) (ctx : FdCtx) : Prop := d.hooked = some ctx ∧ ctx.userNonblock = false

/-- `do_io` waits on such a socket with the timeout of its direction. -/
theorem Blocking.doIo {ctx : FdCtx} (blocking : Blocking d ctx) (optname : BitVec 32) :
    d.doIo true optname = .waits (ctx.getTimeout optname) := by
  obtain ⟨hooked, user⟩ := blocking
  obtain ⟨found, isOpen⟩ := Option.filter_eq_some_iff.mp hooked
  unfold Descriptor.doIo
  simp only [Bool.and_eq_true, Bool.not_eq_true'] at isOpen
  simp [found, isOpen, user]

/-- What `FdCtx` has for the option. -/
def timeout (optname : BitVec 32) (d : Descriptor κ) : Option (BitVec 64) := d.ctx.map (FdCtx.getTimeout optname)

theorem call_timeout (c : Call) (d : Descriptor κ) (kernel : Kernel κ) :
    (d.call kernel c).2.timeout optname = d.timeout optname := by
  have kept {ctx : FdCtx} (found : d.hooked = some ctx) (userNonblock : Bool) (k : κ) :
      timeout optname (⟨some { ctx with userNonblock }, k⟩ : Descriptor κ) = d.timeout optname := by
    rw [timeout, timeout, (Option.filter_eq_some_iff.mp found).1]
    rfl
  cases c with
  | fcntl cmd =>
    cases cmd with
    | getfl =>
      cases found : d.hooked <;> simp only [call, fcntl, found]
    | setfl arg =>
      cases found : d.hooked with
      | none =>
        simp only [call, fcntl, found]
        rfl
      | some ctx =>
        simp only [call, fcntl, found]
        exact kept found _ _
  | ioctl arg =>
    cases found : d.hooked with
    | none =>
      simp only [call, ioctl, found]
      rfl
    | some ctx =>
      simp only [call, ioctl, found]
      exact kept found _ _

/-- `setsockopt`, by whether the hook has something to store. -/
theorem setsockopt_cases {hookEnable : Bool} {level : BitVec 32} {result : BitVec 32}
    (ran : d.setsockopt kernel hookEnable level optname tv = some (result, after)) :
    result = (kernel.setsockopt d.kernel level optname tv).1 ∧
    (after.ctx = d.ctx ∨ hookEnable = true ∧ level = SOL_SOCKET ∧
      (optname = SO_RCVTIMEO ∨ optname = SO_SNDTIMEO) ∧ ∃ ctx v, d.ctx = some ctx ∧
        tv.milliseconds = some v ∧ after.ctx = some (ctx.setTimeout optname v)) := by
  unfold setsockopt at ran
  dsimp only at ran
  split_ifs at ran with stores
  · simp only [Bool.and_eq_true, Bool.or_eq_true, beq_iff_eq] at stores
    split at ran
    · cases ran
      exact ⟨rfl, Or.inl rfl⟩
    · next ctx found =>
      obtain ⟨v, converted, same⟩ := Option.map_eq_some_iff.mp ran
      cases same
      exact ⟨rfl, Or.inr ⟨stores.1.1, stores.1.2, stores.2, ctx, v, found, converted, rfl⟩⟩
  · cases ran
    exact ⟨rfl, Or.inl rfl⟩

theorem sockCall_timeout (isOption : optname = SO_RCVTIMEO ∨ optname = SO_SNDTIMEO) {c : SockCall}
    {result : BitVec 32} (spares : c.sets optname = false) (ran : d.sockCall kernel c = some (result, after)) :
    after.timeout optname = d.timeout optname := by
  cases c with
  | call c =>
    obtain rfl : (d.call kernel.toKernel c).2 = after := congrArg Prod.snd (Option.some.inj ran)
    exact call_timeout c d _
  | setsockopt hookEnable level other tv =>
    obtain ⟨_, same | ⟨_, rfl, isOption', ctx, v, found, _, stored⟩⟩ := setsockopt_cases ran
    · rw [timeout, same, timeout]
    · have different : other ≠ optname := by simpa [SockCall.sets] using spares
      rw [timeout, stored, timeout, found]
      exact congrArg some (FdCtx.getTimeout_setTimeout_of_ne v ctx isOption isOption' different)

theorem sockCalls_timeout (isOption : optname = SO_RCVTIMEO ∨ optname = SO_SNDTIMEO) {calls : List SockCall}
    (spare : ∀ c ∈ calls, c.sets optname = false) (ran : d.sockCalls kernel calls = some after) :
    after.timeout optname = d.timeout optname := by
  induction calls generalizing d with
  | nil =>
    cases ran
    rfl
  | cons c rest ih =>
    obtain ⟨first, spare⟩ := List.forall_mem_cons.mp spare
    rw [sockCalls, List.foldlM_cons, Option.bind_eq_bind, Option.bind_eq_some_iff] at ran
    obtain ⟨mid, ran, rest⟩ := ran
    obtain ⟨⟨result, mid'⟩, called, rfl⟩ := Option.map_eq_some_iff.mp ran
    rw [ih spare rest]
    exact sockCall_timeout isOption first called

/-- After the call the timeout means what the user set: as long as he does not set the option again,
whenever `do_io` waits in this direction it arms no timer if and only if he asked for no timeout, and else
one of at least the time he asked for. -/
def Means (kernel : SockKernel κ) (d : Descriptor κ) (optname : BitVec 32) (tv : Timeval) : Prop :=
  ∃ result after, d.setsockopt kernel true SOL_SOCKET optname tv = some (result, after) ∧
    ∀ calls later ctx, (∀ c ∈ calls, c.sets optname = false) → after.sockCalls kernel calls = some later →
      Blocking later ctx → ∃ timeout, later.doIo true optname = .waits timeout ∧
        (DoIo.armed timeout = none ↔ tv = ⟨0, 0⟩) ∧
        ∀ ms, DoIo.armed timeout = some ms → tv.tvSec * 10 ^ 6 + tv.tvUsec ≤ ms.toNat * 1000

theorem setsockopt_stores {ctx : FdCtx} (found : d.ctx = some ctx)
    (isOption : optname = SO_RCVTIMEO ∨ optname = SO_SNDTIMEO) :
    d.setsockopt kernel true SOL_SOCKET optname tv = tv.milliseconds.map fun v =>
      ((kernel.setsockopt d.kernel SOL_SOCKET optname tv).1,
        ⟨some (ctx.setTimeout optname v), (kernel.setsockopt d.kernel SOL_SOCKET optname tv).2⟩) := by
  rcases isOption with rfl | rfl <;> simp [setsockopt, found]

theorem Blocking.setTimeout {ctx : FdCtx} (blocking : Blocking d ctx) (v : BitVec 64) (k : κ) :
    Blocking ⟨some (ctx.setTimeout optname v), k⟩ (ctx.setTimeout optname v) := by
  have isOpen := (Option.filter_eq_some_iff.mp blocking.1).2
  unfold FdCtx.setTimeout
  split_ifs
  · exact ⟨Option.filter_eq_some_iff.mpr ⟨rfl, isOpen⟩, blocking.2⟩
  · exact ⟨Option.filter_eq_some_iff.mpr ⟨rfl, isOpen⟩, blocking.2⟩

/-- What fits a `long` is not all ones, so that a timer is armed for it. -/
theorem armed_ofInt {v : ℤ} (notNegative : 0 ≤ v) (fits : v < 2 ^ 63) :
    DoIo.armed (BitVec.ofInt 64 v) = some (BitVec.ofInt 64 v) := by
  have value := toNat_ofInt notNegative fits
  refine if_pos fun all => ?_
  rw [all] at value
  have ones : ((-1 : BitVec 64).toNat : ℤ) = 2 ^ 64 - 1 := by decide
  omega

theorem means_of_exact {ctx : FdCtx} (blocking : Blocking d ctx)
    (isOption : optname = SO_RCVTIMEO ∨ optname = SO_SNDTIMEO) (wf : tv.WellFormed) (exact : tv.Exact) :
    Means kernel d optname tv := by
  obtain ⟨asked, whole, fits⟩ := exact
  have converted := Timeval.milliseconds_eq wf
  rw [if_pos fits] at converted
  obtain ⟨sec, _, usec, _⟩ := wf
  have notNegative : 0 ≤ tv.tvSec * 1000 + tv.tvUsec / 1000 := by omega
  have ran : d.setsockopt kernel true SOL_SOCKET optname tv = _ :=
    setsockopt_stores (Option.filter_eq_some_iff.mp blocking.1).1 isOption
  rw [converted, Option.map_some] at ran
  refine ⟨_, _, ran, fun calls later ctx' spare calls' blocking' => ?_⟩
  have kept := sockCalls_timeout isOption spare calls'
  rw [timeout, timeout, (Option.filter_eq_some_iff.mp blocking'.1).1, Option.map_some, Option.map_some,
    FdCtx.getTimeout_setTimeout] at kept
  refine ⟨_, blocking'.doIo optname, ?_, ?_⟩
  · rw [Option.some.inj kept, armed_ofInt notNegative fits]
    exact iff_of_false nofun asked
  · intro ms armed
    rw [Option.some.inj kept, armed_ofInt notNegative fits] at armed
    obtain rfl := Option.some.inj armed
    have value := toNat_ofInt notNegative fits
    omega

/-- The `do_io` that follows at once tells what has been stored. -/
theorem exact_of_means {ctx : FdCtx} (blocking : Blocking d ctx)
    (isOption : optname = SO_RCVTIMEO ∨ optname = SO_SNDTIMEO) (wf : tv.WellFormed)
    (means : Means kernel d optname tv) : tv.Exact := by
  obtain ⟨result, after, ran, means⟩ := means
  rw [setsockopt_stores (Option.filter_eq_some_iff.mp blocking.1).1 isOption,
    Timeval.milliseconds_eq wf] at ran
  obtain ⟨sec, _, usec, _⟩ := wf
  split_ifs at ran with fits
  · cases ran
    have notNegative : 0 ≤ tv.tvSec * 1000 + tv.tvUsec / 1000 := by omega
    obtain ⟨timeout, waits, none, enough⟩ := means [] _ _ nofun rfl (blocking.setTimeout _ _)
    rw [(blocking.setTimeout _ _).doIo, FdCtx.getTimeout_setTimeout] at waits
    obtain rfl := DoIo.Entry.waits.inj waits
    have armed := armed_ofInt notNegative fits
    rw [armed] at none
    have enough := enough _ armed
    rw [toNat_ofInt notNegative fits] at enough
    refine ⟨fun zero => Option.some_ne_none _ (none.mpr zero), ?_, fits⟩
    omega
  · cases ran

/-- A timeout set on a managed blocking socket means to every later `do_io` what the user asked for if and
only if it is not the `timeval` of zeros, is one of whole milliseconds and does not overflow a `long`. -/
theorem socket_timeout_meaning_iff {ctx : FdCtx} (kernel : SockKernel κ) (d : Descriptor κ)
    (blocking : Blocking d ctx) (optname : BitVec 32)
    (isOption : optname = SO_RCVTIMEO ∨ optname = SO_SNDTIMEO) (tv : Timeval) (wf : tv.WellFormed) :
    Means kernel d optname tv ↔ tv.Exact :=
  ⟨exact_of_means blocking isOption wf, means_of_exact blocking isOption wf⟩

/-- A kernel that keeps nothing and refuses the microseconds of a second and more. -/
def plainKernel : SockKernel Unit where
  fstat _ := some 0o140777
  getfl _ := O_NONBLOCK
  setfl _ _ := (0, ())
  fionbio _ _ := (0, ())
  setsockopt _ _ _ tv := (if 0 ≤ tv.tvUsec ∧ tv.tvUsec < 10 ^ 6 then 0 else -1, ())

private theorem plain_blocking : Blocking (manage plainKernel.toKernel ())
    (FdCtx.init plainKernel.toKernel {} ()).1 := ⟨rfl, rfl⟩

/-- A second and a half. -/
theorem socket_timeout_meaning : ∃ kernel : SockKernel Unit,
    Means kernel (manage kernel.toKernel ()) SO_RCVTIMEO ⟨1, 500000⟩ :=
  ⟨plainKernel, (socket_timeout_meaning_iff plainKernel _ plain_blocking SO_RCVTIMEO (Or.inl rfl) _
    (by simp [Timeval.WellFormed])).mpr ⟨by decide, by decide, by decide⟩⟩

/-- No timeout is asked for, and `do_io` arms a timer of no time at all; so it does for half a
millisecond. -/
theorem socket_timeout_meaning_lost : ∃ kernel : SockKernel Unit, ∃ after,
    (manage kernel.toKernel ()).setsockopt kernel true SOL_SOCKET SO_RCVTIMEO ⟨0, 0⟩ = some (0, after) ∧
    after.doIo true SO_RCVTIMEO = .waits 0 ∧ DoIo.armed 0 = some 0 ∧
    ¬ Means kernel (manage kernel.toKernel ()) SO_RCVTIMEO ⟨0, 0⟩ ∧
    ¬ Means kernel (manage kernel.toKernel ()) SO_SNDTIMEO ⟨0, 500⟩ := by
  have meaningless (optname : BitVec 32) (isOption : optname = SO_RCVTIMEO ∨ optname = SO_SNDTIMEO)
      (tv : Timeval) (wf : tv.WellFormed) (inexact : ¬ tv.Exact) :
      ¬ Means plainKernel (manage plainKernel.toKernel ()) optname tv :=
    fun means => inexact (exact_of_means plain_blocking isOption wf means)
  refine ⟨plainKernel, _, rfl, rfl, rfl, meaningless _ (Or.inl rfl) _ ?_ ?_, meaningless _ (Or.inr rfl) _ ?_ ?_⟩
  · simp [Timeval.WellFormed]
  · simp [Timeval.Exact]
  · simp [Timeval.WellFormed]
  · simp [Timeval.Exact]

end Descriptor

end Sylar
