import Mathlib.Data.List.Induction
import Mathlib.Tactic.SplitIfs
import Sylar.Model.FdCtx
import Sylar.ToMathlib.Counting

/-! # What the user and the kernel see of `O_NONBLOCK`

The user sees `userNonblock`, and the kernel is to keep the flag set. `fcntl` sets it again whatever the
user asks for, and `ioctl` hands the kernel what the user asks for.
-/

namespace Sylar

/-- `O_NONBLOCK` is among the flags. -/
def nonblock (flags : BitVec 32) : Bool := flags &&& O_NONBLOCK != 0

/-- The calls succeed, and `O_NONBLOCK` stays as the last of them told. -/
structure Kernel.Obeys {κ : Type} (kernel : Kernel κ) : Prop where
  setfl : ∀ k arg, (kernel.setfl k arg).1 = 0 ∧ nonblock (kernel.getfl (kernel.setfl k arg).2) = nonblock arg
  fionbio : ∀ k arg, (kernel.fionbio k arg).1 = 0 ∧
    (nonblock (kernel.getfl (kernel.fionbio k arg).2) = true ↔ arg ≠ 0)

theorem nonblock_or (flags : BitVec 32) : nonblock (flags ||| O_NONBLOCK) = true := by
  have kept : (flags ||| O_NONBLOCK) &&& O_NONBLOCK = O_NONBLOCK := by
    ext i
    simp only [BitVec.getElem_and, BitVec.getElem_or]
    cases flags[i] <;> simp
  rw [nonblock, kept]
  rfl

theorem nonblock_and_not (flags : BitVec 32) : nonblock (flags &&& ~~~O_NONBLOCK) = false := by
  have cleared : (flags &&& ~~~O_NONBLOCK) &&& O_NONBLOCK = 0 := by
    rw [BitVec.and_assoc, BitVec.and_comm (~~~O_NONBLOCK), BitVec.and_not_self]
    exact BitVec.and_zero
  rw [nonblock, cleared]
  rfl

namespace Descriptor

variable {κ : Type} {kernel : Kernel κ} {d : Descriptor κ} {k : κ} {user system : Bool}

/-- What the user asks for, if it is a request. -/
def Call.asks : Call → Option Bool
  | .fcntl (.setfl arg) => some (nonblock arg)
  | .fcntl .getfl => none
  | .ioctl arg => some (arg != 0)

/-- What the kernel is told, if it is told anything. -/
def Call.tells : Call → Option Bool
  | .fcntl (.setfl _) => some true
  | .fcntl .getfl => none
  | .ioctl arg => some (arg != 0)

/-- The last request of the user was for non-blocking mode; with none it is blocking. -/
def asked (calls : List Call) : Bool := (calls.filterMap Call.asks).getLast?.getD false

/-- The last thing the kernel was told, after `FdCtx::init`. -/
def told (calls : List Call) : Bool := (calls.filterMap Call.tells).getLast?.getD true

/-- The descriptor is that of a managed open socket, and the user and the kernel have seen this much of
`O_NONBLOCK`. -/
def Shows (kernel : Kernel κ) (d : Descriptor κ) (user system : Bool) : Prop :=
  ∃ ctx, d.hooked = some ctx ∧ ctx.sysNonblock = true ∧ ctx.userNonblock = user ∧
    nonblock (kernel.getfl d.kernel) = system

/-- A context of an open socket stays one whatever the user asks for. -/
theorem hooked_some {ctx : FdCtx} (found : d.hooked = some ctx) (userNonblock : Bool) (k : κ) :
    hooked (⟨some { ctx with userNonblock }, k⟩ : Descriptor κ) = some { ctx with userNonblock } := by
  have isOpen := (Option.filter_eq_some_iff.mp found).2
  exact Option.filter_eq_some_iff.mpr ⟨rfl, isOpen⟩

namespace Shows

/-- A call changes what the user sees as he asks, and what the kernel does as it is told. -/
theorem call (obeys : kernel.Obeys) (shows : Shows kernel d user system) (c : Call) :
    Shows kernel (d.call kernel c).2 (c.asks.getD user) (c.tells.getD system) := by
  obtain ⟨ctx, hooked, sys, rfl, rfl⟩ := shows
  cases c with
  | fcntl cmd =>
    cases cmd with
    | getfl =>
      simp only [Descriptor.call, fcntl, hooked]
      exact ⟨ctx, hooked, sys, rfl, rfl⟩
    | setfl arg =>
      simp only [Descriptor.call, fcntl, hooked]
      rw [if_pos sys]
      refine ⟨{ ctx with userNonblock := nonblock arg }, hooked_some hooked _ _, sys, rfl, ?_⟩
      exact (obeys.setfl _ _).2.trans (nonblock_or arg)
  | ioctl arg =>
    simp only [Descriptor.call, ioctl, hooked]
    refine ⟨{ ctx with userNonblock := arg != 0 }, hooked_some hooked _ _, sys, rfl, ?_⟩
    exact Bool.eq_iff_iff.mpr ((obeys.fionbio _ arg).2.trans bne_iff_ne.symm)

theorem calls (obeys : kernel.Obeys) (shows : Shows kernel d false true) (cs : List Call) :
    Shows kernel (d.calls kernel cs) (asked cs) (told cs) := by
  induction cs using List.reverseRecOn with
  | nil => exact shows
  | append_singleton cs c ih =>
    rw [asked, told, List.getLast?_filterMap_append, List.getLast?_filterMap_append, Descriptor.calls,
      List.foldl_append]
    exact ih.call obeys c

/-- `F_GETFL` shows what the user sees. -/
theorem getfl (shows : Shows kernel d user system) : nonblock (d.fcntl kernel .getfl).1 = user := by
  obtain ⟨ctx, hooked, -, rfl, -⟩ := shows
  simp only [fcntl, hooked]
  split_ifs with asked
  · rw [nonblock_or, asked]
  · rw [nonblock_and_not, eq_false_of_ne_true asked]

end Shows

/-- What a managed open socket shows before any call of the user. -/
theorem shows_manage (obeys : kernel.Obeys) {st_mode : BitVec 32} (opened : kernel.fstat k = some st_mode)
    (socket : S_ISSOCK st_mode = true) : Shows kernel (manage kernel k) false true := by
  have isSocket : (kernel.fstat k).any S_ISSOCK = true := by
    rw [opened]
    exact socket
  refine ⟨(FdCtx.init kernel {} k).1, ?_, isSocket, rfl, ?_⟩
  · exact Option.filter_eq_some_iff.mpr ⟨rfl, isSocket⟩
  · have made : (FdCtx.init kernel {} k).2 = if (kernel.getfl k &&& O_NONBLOCK == 0) = true then
        (kernel.setfl k (kernel.getfl k ||| O_NONBLOCK)).2 else k := by
      simp [FdCtx.init, isSocket]
    change nonblock (kernel.getfl (FdCtx.init kernel {} k).2) = true
    rw [made]
    split_ifs with blocking
    · exact (obeys.setfl _ _).2.trans (nonblock_or _)
    · exact bne_iff_ne.mpr fun zero => blocking (beq_iff_eq.mpr zero)

theorem told_eq_true {cs : List Call} (never : ∀ c ∈ cs, c ≠ .ioctl 0) : told cs = true := by
  induction cs using List.reverseRecOn with
  | nil => rfl
  | append_singleton cs c ih =>
    rw [told, List.getLast?_filterMap_append]
    have before : told cs = true := ih fun c member => never c (List.mem_append_left _ member)
    have last := never c List.mem_concat_self
    cases c with
    | fcntl cmd =>
      cases cmd with
      | setfl _ => rfl
      | getfl => exact before
    | ioctl arg => exact bne_iff_ne.mpr fun zero => last (zero ▸ rfl)

/-- After every call on a managed open socket `F_GETFL` shows what the user last asked for; and the kernel
keeps `O_NONBLOCK` after every call if and only if none of them is `ioctl(FIONBIO)` with zero. -/
theorem nonblock_kept_iff (obeys : kernel.Obeys) {st_mode : BitVec 32}
    (opened : kernel.fstat k = some st_mode) (socket : S_ISSOCK st_mode = true) (cs : List Call) :
    (∀ before, before <+: cs →
      nonblock (((manage kernel k).calls kernel before).fcntl kernel .getfl).1 = asked before) ∧
    ((∀ before, before <+: cs →
      nonblock (kernel.getfl ((manage kernel k).calls kernel before).kernel) = true ∧
      nonblock (((manage kernel k).calls kernel before).fcntl kernel .getfl).1 = asked before) ↔
    ∀ c ∈ cs, c ≠ .ioctl 0) := by
  have shown (before : List Call) := (shows_manage obeys opened socket).calls obeys before
  refine ⟨fun before _ => (shown before).getfl, fun kept c member zero => ?_, fun never before isPrefix => ?_⟩
  · subst zero
    obtain ⟨before, after, rfl⟩ := List.append_of_mem member
    obtain ⟨_, _, _, _, system⟩ := shown (before ++ [.ioctl 0])
    have dropped : told (before ++ [.ioctl 0]) = false := List.getLast?_filterMap_append _ _ _ _
    have set := (kept (before ++ [.ioctl 0]) ⟨after, by simp⟩).1
    rw [system, dropped] at set
    cases set
  · obtain ⟨_, _, _, _, system⟩ := shown before
    rw [told_eq_true fun c member => never c (isPrefix.subset member)] at system
    exact ⟨system, (shown before).getfl⟩

/-- A socket whose flags are changed in `O_NONBLOCK` only. -/
private def socketKernel : Kernel (BitVec 32) where
  fstat _ := some 0o140777
  getfl flags := flags
  setfl flags arg := (0, if nonblock arg then flags ||| O_NONBLOCK else flags &&& ~~~O_NONBLOCK)
  fionbio flags arg := (0, if arg = 0 then flags &&& ~~~O_NONBLOCK else flags ||| O_NONBLOCK)

private theorem socketKernel_obeys : socketKernel.Obeys where
  setfl flags arg := by
    refine ⟨rfl, ?_⟩
    change nonblock (if nonblock arg = true then _ else _) = _
    split_ifs with set
    · rw [nonblock_or, set]
    · rw [nonblock_and_not, eq_false_of_ne_true set]
  fionbio flags arg := by
    refine ⟨rfl, ?_⟩
    change nonblock (if arg = 0 then _ else _) = true ↔ _
    split_ifs with zero
    · rw [nonblock_and_not]
      exact ⟨nofun, absurd zero⟩
    · exact ⟨fun _ => zero, fun _ => nonblock_or _⟩

/-- The user sets a blocking socket to non-blocking mode and back with `fcntl`, and then again with `ioctl`. -/
theorem nonblock_kept : S_ISSOCK 0o140777 = true ∧ ∀ before,
    before <+: [.fcntl (.setfl O_NONBLOCK), .fcntl .getfl, .fcntl (.setfl 2), .ioctl 1] →
    nonblock (socketKernel.getfl ((manage socketKernel 2).calls socketKernel before).kernel) = true ∧
    nonblock (((manage socketKernel 2).calls socketKernel before).fcntl socketKernel .getfl).1 = asked before :=
  ⟨rfl, (nonblock_kept_iff socketKernel_obeys rfl rfl _).2.mpr (by decide)⟩

/-- `ioctl(FIONBIO)` with zero on a managed socket makes it blocking, and the context still says that it is
not. -/
theorem nonblock_dropped : ∃ kernel : Kernel (BitVec 32), kernel.Obeys ∧ kernel.fstat 2 = some 0o140777 ∧
    nonblock (kernel.getfl ((manage kernel 2).calls kernel [.ioctl 0]).kernel) = false ∧
    ((manage kernel 2).calls kernel [.ioctl 0]).ctx.map FdCtx.sysNonblock = some true :=
  ⟨socketKernel, socketKernel_obeys, rfl, by decide, by decide⟩

end Descriptor

end Sylar
