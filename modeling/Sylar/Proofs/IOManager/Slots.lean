import Mathlib.Algebra.Order.BigOperators.Group.Finset
import Sylar.Model.IOManager

/-! # The four places an event is recorded in agree

A registered event stands in the mask of its descriptor, in an event context, in the epoll set and in
the pending count. `slot` reads a registration off the event context; the other three are functions of
the slots. The triggering of events updates all but the epoll set, and the functions bring the epoll
set in line before they trigger, so the invariant is split accordingly.
-/

namespace Sylar.IOManager

/-- The scheduler a registration goes back to and the task it gives it. There is no scheduler if the event
was added by a thread that belongs to none, and then the registration cannot be triggered. -/
abbrev Handoff := Option SchedulerPtr × Task

/-- An entry of the log of scheduled tasks as a registration. -/
def owned : SchedulerPtr × Task → Handoff := Prod.map some id

variable {m t : IOManager} {fd : ℕ} {event : Event} {p q : Event → Bool} {granted : Bool}

/-! ## Sets of events as masks -/

def Event.all : List Event := [.read, .write]

def bits (read write : Bool) : BitVec 32 :=
  (if read then READ else 0#32) ||| (if write then WRITE else 0#32)

/-- The mask of a set of events. -/
def mask (p : Event → Bool) : BitVec 32 := bits (p .read) (p .write)

theorem mask_and_bit (p : Event → Bool) (event : Event) :
    mask p &&& event.bit = 0#32 ↔ p event = false := by
  have table : ∀ r w, (bits r w &&& READ = 0#32 ↔ r = false) ∧
      (bits r w &&& WRITE = 0#32 ↔ w = false) := by
    decide
  cases event with
  | read => exact (table _ _).1
  | write => exact (table _ _).2

theorem mask_or_bit (p : Event → Bool) (event : Event) :
    mask p ||| event.bit = mask (Function.update p event true) := by
  have table : ∀ r w, bits r w ||| READ = bits true w ∧ bits r w ||| WRITE = bits r true := by decide
  cases event with
  | read => exact (table _ _).1
  | write => exact (table _ _).2

theorem mask_and_mask (p q : Event → Bool) : mask p &&& mask q = mask fun event => p event && q event := by
  have table : ∀ r w r' w', bits r w &&& bits r' w' = bits (r && r') (w && w') := by decide
  exact table _ _ _ _

theorem mask_and_not_mask (p q : Event → Bool) :
    mask p &&& ~~~mask q = mask fun event => p event && !q event := by
  have table : ∀ r w r' w', bits r w &&& ~~~bits r' w' = bits (r && !r') (w && !w') := by decide
  exact table _ _ _ _

theorem mask_and_not_bit (p : Event → Bool) (event : Event) :
    mask p &&& ~~~event.bit = mask (Function.update p event false) := by
  have table : ∀ r w, bits r w &&& ~~~READ = bits false w ∧ bits r w &&& ~~~WRITE = bits r false := by
    decide
  cases event with
  | read => exact (table _ _).1
  | write => exact (table _ _).2

theorem mask_eq_zero : mask p = 0#32 ↔ ∀ event, p event = false := by
  have both : (∀ event, p event = false) ↔ p .read = false ∧ p .write = false := by
    constructor
    · intro none
      exact ⟨none .read, none .write⟩
    · rintro ⟨noRead, noWrite⟩ event
      cases event with
      | read => exact noRead
      | write => exact noWrite
  have table : ∀ r w, bits r w = 0#32 ↔ r = false ∧ w = false := by decide
  rw [both]
  exact table _ _

/-- What `triggerEvent` makes of a context in use. -/
def EventContext.handoff (ctx : EventContext) : Option Handoff :=
  match ctx.fiber, ctx.cb with
  | none, some cb => some (ctx.scheduler, .cb cb)
  | some fiber, none => some (ctx.scheduler, .fiber fiber)
  | _, _ => none

@[simp] theorem getContext_setContext (ctx : FdContext) (event other : Event) (context : EventContext) :
    (ctx.setContext event context).getContext other =
      if other = event then context else ctx.getContext other := by
  cases event <;> cases other <;> rfl

/-- The mask is no part of an event's own context. -/
theorem getContext_events (ctx : FdContext) (events : BitVec 32) (event : Event) :
    FdContext.getContext { ctx with events } event = ctx.getContext event := by
  cases event <;> rfl

@[simp] theorem events_setContext (ctx : FdContext) (event : Event) (context : EventContext) :
    (ctx.setContext event context).events = ctx.events := by
  cases event <;> rfl

/-- The registration of an event on a descriptor. -/
def slot (m : IOManager) (fd : ℕ) (event : Event) : Option Handoff :=
  ((m.context fd).getContext event).handoff

/-- The events registered on a descriptor. -/
def registered (m : IOManager) (fd : ℕ) (event : Event) : Bool := (m.slot fd event).isSome

/-- The event is registered, and by a thread with a scheduler. -/
def Ready (m : IOManager) (fd : ℕ) (event : Event) : Prop :=
  ∃ scheduler task, m.slot fd event = some (some scheduler, task)

theorem Ready.registered (ready : m.Ready fd event) : m.registered fd event = true := by
  obtain ⟨scheduler, task, held⟩ := ready
  rw [IOManager.registered, held]
  rfl

/-- Everything but the epoll set agrees with the slots. -/
structure Core (m : IOManager) : Prop where
  size : 32 ≤ m.size
  empty : ∀ fd event, m.slot fd event = none → (m.context fd).getContext event = {}
  events : ∀ fd, (m.context fd).events = mask (m.registered fd)
  outside : ∀ fd, m.size ≤ fd → ∀ event, m.slot fd event = none
  pending : m.pendingEventCount = ∑ fd ∈ Finset.range m.size, Event.all.countP (m.registered fd)

/-- The interest a descriptor with these events has in the epoll set. -/
def interest (events : BitVec 32) : Option (BitVec 32) :=
  if events = 0#32 then none else some (EPOLLET ||| events)

/-- The epoll set agrees as well. -/
structure Consistent (m : IOManager) : Prop where
  core : Core m
  epoll : ∀ fd, m.epoll fd = interest (m.context fd).events

theorem new_consistent : Consistent new where
  core := {
    size := le_rfl
    empty := by intro fd event _; cases event <;> rfl
    events := fun fd => show 0#32 = bits false false by decide
    outside := by intro fd _ event; cases event <;> rfl
    pending := by
      symm
      apply Finset.sum_eq_zero
      intro fd _
      rfl }
  epoll := fun fd => rfl

/-! ## Changing one slot -/

/-- The context of a descriptor after one of its registrations has been set or reset. -/
def FdContext.assign (ctx : FdContext) (event : Event) (context : EventContext) : FdContext :=
  { ctx with events := if context.handoff.isSome then ctx.events ||| event.bit
      else ctx.events &&& ~~~event.bit }.setContext event context

/-- The state after that, with the pending count it should have. -/
def assign (fd : ℕ) (event : Event) (context : EventContext) (pending : ℕ) (m : IOManager) : IOManager :=
  { m.setFdContext fd ((m.context fd).assign event context) with pendingEventCount := pending }

theorem slot_assign (m : IOManager) (fd : ℕ) (event : Event) (context : EventContext) (pending other : ℕ) :
    (m.assign fd event context pending).slot other =
      if other = fd then Function.update (m.slot fd) event context.handoff else m.slot other := by
  funext event'
  rcases eq_or_ne other fd with rfl | different
  · rw [if_pos rfl, slot, assign, setFdContext]
    simp only [Function.update_self, FdContext.assign, getContext_setContext]
    rcases eq_or_ne event' event with rfl | others
    · rw [if_pos rfl, Function.update_self]
    · rw [if_neg others, Function.update_of_ne others]
      cases event' <;> rfl
  · rw [if_neg different, slot, slot, assign, setFdContext]
    simp only [Function.update_of_ne different]

theorem registered_assign (m : IOManager) (fd : ℕ) (event : Event) (context : EventContext)
    (pending other : ℕ) : (m.assign fd event context pending).registered other =
      if other = fd then Function.update (m.registered fd) event context.handoff.isSome
      else m.registered other := by
  funext event'
  rw [registered, slot_assign]
  split_ifs with same
  · rcases eq_or_ne event' event with rfl | others
    · rw [Function.update_self, Function.update_self]
    · rw [Function.update_of_ne others, Function.update_of_ne others]
      rfl
  · rfl

/-- Counting the events of a set with one of them changed. -/
theorem countP_update (p : Event → Bool) (event : Event) (b : Bool) :
    Event.all.countP (Function.update p event b) + (p event).toNat =
      Event.all.countP p + b.toNat := by
  have table : ∀ r w b : Bool, (if w then 1 else 0) + (if b then 1 else 0) + r.toNat =
      (if w then 1 else 0) + (if r then 1 else 0) + b.toNat ∧
      (if b then 1 else 0) + (if r then 1 else 0) + w.toNat =
      (if w then 1 else 0) + (if r then 1 else 0) + b.toNat := by decide
  simp only [Event.all, List.countP_cons, List.countP_nil, Nat.zero_add]
  cases event with
  | read => exact (table _ _ _).1
  | write => exact (table _ _ _).2

/-- Summing a function with one value changed. -/
theorem sum_range_update {n fd : ℕ} (inside : fd < n) (f g : ℕ → ℕ)
    (same : ∀ other, other ≠ fd → g other = f other) :
    ∑ x ∈ Finset.range n, g x + f fd = ∑ x ∈ Finset.range n, f x + g fd := by
  have member := Finset.mem_range.mpr inside
  have others : ∑ x ∈ (Finset.range n).erase fd, g x = ∑ x ∈ (Finset.range n).erase fd, f x :=
    Finset.sum_congr rfl fun x other => same x (Finset.ne_of_mem_erase other)
  have whole := Finset.add_sum_erase _ f member
  have whole' := Finset.add_sum_erase _ g member
  omega

theorem Core.assign (core : Core m) (inside : fd < m.size) {context : EventContext} {pending : ℕ}
    (blank : context.handoff = none → context = {})
    (counted : pending + (m.registered fd event).toNat =
      m.pendingEventCount + context.handoff.isSome.toNat) :
    Core (m.assign fd event context pending) where
  size := core.size
  empty := by
    intro other event' none
    rw [slot_assign] at none
    rcases eq_or_ne other fd with rfl | different
    · rw [if_pos rfl] at none
      simp only [IOManager.assign, setFdContext, Function.update_self, FdContext.assign,
        getContext_setContext]
      rcases eq_or_ne event' event with rfl | others
      · rw [Function.update_self] at none
        rw [if_pos rfl, blank none]
      · rw [Function.update_of_ne others] at none
        rw [if_neg others]
        have old := core.empty other event' none
        cases event' <;> exact old
    · rw [if_neg different] at none
      simp only [IOManager.assign, setFdContext, Function.update_of_ne different]
      exact core.empty other event' none
  events := by
    intro other
    rw [registered_assign]
    rcases eq_or_ne other fd with rfl | different
    · rw [if_pos rfl]
      simp only [IOManager.assign, setFdContext, Function.update_self, FdContext.assign,
        events_setContext, core.events]
      split_ifs with filled
      · rw [mask_or_bit, filled]
      · rw [mask_and_not_bit, Bool.eq_false_of_not_eq_true filled]
    · rw [if_neg different, ← core.events]
      simp only [IOManager.assign, setFdContext, Function.update_of_ne different]
  outside := by
    intro other past event'
    have different : other ≠ fd := by
      rintro rfl
      exact absurd inside (not_lt_of_ge past)
    rw [slot_assign, if_neg different]
    exact core.outside other past event'
  pending := by
    have step := sum_range_update inside (fun other => Event.all.countP (m.registered other))
      (fun other => Event.all.countP ((m.assign fd event context pending).registered other))
      fun other different => by rw [registered_assign, if_neg different]
    simp only [registered_assign m fd event context pending fd, if_pos] at step
    have here := countP_update (m.registered fd) event context.handoff.isSome
    have before := core.pending
    change pending = ∑ fd ∈ Finset.range m.size, _
    omega

/-! ## Triggering -/

theorem Core.inside (core : Core m) {handoff : Handoff} (held : m.slot fd event = some handoff) :
    fd < m.size := by
  by_contra past
  rw [core.outside fd (not_lt.mp past) event] at held
  cases held

theorem Core.pending_pos (core : Core m) {handoff : Handoff} (held : m.slot fd event = some handoff) :
    0 < m.pendingEventCount := by
  have counted : 0 < Event.all.countP (m.registered fd) := by
    apply List.countP_pos_iff.mpr
    exact ⟨event, by cases event <;> decide, by rw [registered, held]; rfl⟩
  have member := Finset.mem_range.mpr (core.inside held)
  have least := Finset.single_le_sum (f := fun fd => Event.all.countP (m.registered fd))
    (fun _ _ => Nat.zero_le _) member
  have whole := core.pending
  omega

theorem decrementPending_of_pos (positive : 0 < m.pendingEventCount) :
    m.decrementPending = { m with pendingEventCount := m.pendingEventCount - 1 } := by
  rw [decrementPending, if_neg (show ¬ m.pendingEventCount = 0 by omega)]

/-- The slots of `fd` have become `slots`, the tasks `out` have been scheduled, and everything but the
epoll set agrees again. -/
structure Rewrites (m : IOManager) (fd : ℕ) (slots : Event → Option Handoff) (out : List Handoff)
    (t : IOManager) : Prop where
  core : Core t
  here : t.slot fd = slots
  elsewhere : ∀ other, other ≠ fd → t.slot other = m.slot other
  size : t.size = m.size
  epoll : t.epoll = m.epoll
  scheduled : t.scheduled.map owned = m.scheduled.map owned ++ out

theorem Core.rewrites_self (core : Core m) (fd : ℕ) : Rewrites m fd (m.slot fd) [] m where
  core := core
  here := rfl
  elsewhere := fun _ _ => rfl
  size := rfl
  epoll := rfl
  scheduled := (List.append_nil _).symm

theorem Rewrites.trans {slots slots' : Event → Option Handoff} {out out' : List Handoff} {u : IOManager}
    (first : Rewrites m fd slots out t) (second : Rewrites t fd slots' out' u) :
    Rewrites m fd slots' (out ++ out') u where
  core := second.core
  here := second.here
  elsewhere := fun other different =>
    (second.elsewhere other different).trans (first.elsewhere other different)
  size := second.size.trans first.size
  epoll := second.epoll.trans first.epoll
  scheduled := by rw [second.scheduled, first.scheduled, List.append_assoc]

/-- On an event that is not ready `triggerEvent` fails its assertion or has no scheduler to call. -/
theorem Core.triggerEvent_error (core : Core m) (unready : ¬ m.Ready fd event) :
    ∃ fault, m.triggerEvent fd event = .error fault := by
  rw [triggerEvent]
  dsimp only
  split
  · exact ⟨_, rfl⟩
  next bit =>
    rw [core.events, mask_and_bit, registered, slot] at bit
    rw [Ready, slot] at unready
    rw [getContext_events]
    rcases context : (m.context fd).getContext event with ⟨_ | scheduler, _ | fiber, _ | cb⟩ <;>
      rw [context] at bit unready
    all_goals first
      | exact ⟨_, rfl⟩
      | exact absurd rfl bit
      | exact absurd ⟨_, _, rfl⟩ unready

/-- On a ready one it hands the registration over and resets its slot. -/
theorem Core.triggerEvent_some (core : Core m) {scheduler : SchedulerPtr} {task : Task}
    (held : m.slot fd event = some (some scheduler, task)) :
    m.triggerEvent fd event = .ok { m.assign fd event {} m.pendingEventCount with
      scheduled := m.scheduled ++ [(scheduler, task)] } := by
  have bit : (m.context fd).events &&& event.bit ≠ 0#32 := by
    rw [core.events, ne_eq, mask_and_bit, registered, held]
    exact Bool.noConfusion
  rw [triggerEvent]
  dsimp only
  rw [if_neg bit, getContext_events]
  rw [slot] at held
  rcases context : (m.context fd).getContext event with ⟨_ | scheduler, _ | fiber, _ | cb⟩ <;>
    rw [context] at held <;> cases held <;> rfl

/-- Resetting a filled slot and counting one less. -/
theorem Core.resetSlot (core : Core m) {handoff : Handoff} (held : m.slot fd event = some handoff) :
    Rewrites m fd (Function.update (m.slot fd) event none) []
      (m.assign fd event {} (m.pendingEventCount - 1)) where
  core := by
    have positive := core.pending_pos held
    apply core.assign (core.inside held) (fun _ => rfl)
    rw [registered, held]
    change m.pendingEventCount - 1 + 1 = m.pendingEventCount + 0
    omega
  here := (slot_assign m fd event {} (m.pendingEventCount - 1) fd).trans (if_pos rfl)
  elsewhere := fun other different =>
    (slot_assign m fd event {} (m.pendingEventCount - 1) other).trans (if_neg different)
  size := rfl
  epoll := rfl
  scheduled := (List.append_nil _).symm

/-- Triggering a ready event and counting one less. -/
theorem Core.trigger (core : Core m) {scheduler : SchedulerPtr} {task : Task}
    (held : m.slot fd event = some (some scheduler, task)) :
    ∃ t, m.triggerEvent fd event = .ok t ∧
      Rewrites m fd (Function.update (m.slot fd) event none) [(some scheduler, task)]
        t.decrementPending := by
  refine ⟨_, core.triggerEvent_some held, ?_⟩
  have positive := core.pending_pos held
  have cleared := core.resetSlot held
  have counted := @decrementPending_of_pos { m.assign fd event {} m.pendingEventCount with
    scheduled := m.scheduled ++ [(scheduler, task)] } positive
  rw [counted]
  exact {
    core := { cleared.core with }
    here := cleared.here
    elsewhere := cleared.elsewhere
    size := rfl
    epoll := rfl
    scheduled := List.map_append }

theorem Core.triggerIf (core : Core m) {v : BitVec 32} {b : Bool}
    (masked : v &&& event.bit = 0#32 ↔ b = false) (ready : b = true → m.Ready fd event) :
    ∃ t, m.triggerIf v fd event = .ok t ∧
      Rewrites m fd (if b then Function.update (m.slot fd) event none else m.slot fd)
        (if b then (m.slot fd event).toList else []) t := by
  rw [IOManager.triggerIf]
  cases b with
  | false => exact ⟨m, if_pos (masked.mpr rfl), core.rewrites_self fd⟩
  | true =>
    obtain ⟨scheduler, task, here⟩ := ready rfl
    obtain ⟨t, ran, rewrites⟩ := core.trigger here
    have nonzero : ¬ v &&& event.bit = 0#32 := fun zero => Bool.noConfusion (masked.mp zero)
    refine ⟨t.decrementPending, ?_, ?_⟩
    · rw [if_neg nonzero, ran]
      rfl
    · rw [here]
      exact rewrites

/-- The registrations of a set of events, in the order in which events are triggered. -/
def released (q : Event → Bool) (slots : Event → Option Handoff) : List Handoff :=
  Event.all.flatMap fun event => if q event then (slots event).toList else []

/-- The slots after the events of a set have been reset. -/
def reset (q : Event → Bool) (slots : Event → Option Handoff) : Event → Option Handoff :=
  fun event => if q event then none else slots event

/-- Triggering a set of ready events, first `READ`, then `WRITE`; the mask the second test reads
may have been computed in between. -/
theorem Core.triggerBoth (core : Core m) (fd : ℕ) (q : Event → Bool) (first : BitVec 32)
    (second : IOManager → BitVec 32) (masked : first &&& READ = 0#32 ↔ q .read = false)
    (masked' : ∀ t, Core t → t.slot fd .write = m.slot fd .write →
      (second t &&& WRITE = 0#32 ↔ q .write = false))
    (ready : ∀ event, q event = true → m.Ready fd event) :
    ∃ t u, m.triggerIf first fd .read = .ok t ∧ t.triggerIf (second t) fd .write = .ok u ∧
      Rewrites m fd (reset q (m.slot fd)) (released q (m.slot fd)) u := by
  obtain ⟨t, ran, step⟩ := core.triggerIf masked (ready .read)
  have write : t.slot fd .write = m.slot fd .write := by
    rw [step.here]
    split_ifs
    · exact Function.update_of_ne (by decide) _ _
    · rfl
  obtain ⟨u, ran', step'⟩ := step.core.triggerIf (masked' t step.core write) fun set => by
    rw [Ready, write]
    exact ready .write set
  refine ⟨t, u, ran, ran', ?_⟩
  have both := step.trans step'
  rw [write, step.here] at both
  have slots : (if q .write then Function.update (if q .read then Function.update (m.slot fd) .read none
      else m.slot fd) .write none else if q .read then Function.update (m.slot fd) .read none
      else m.slot fd) = reset q (m.slot fd) := by
    funext event
    cases event <;> cases read : q .read <;> cases write : q .write <;>
      simp [reset, read, write, Function.update]
  have out : (if q .read then (m.slot fd .read).toList else []) ++
      (if q .write then (m.slot fd .write).toList else []) = released q (m.slot fd) := by
    simp only [released, Event.all, List.flatMap_cons, List.flatMap_nil, List.append_nil]
  rwa [slots, out] at both

/-! ## The epoll set -/

/-- An interest that shrinks, or goes, is granted if the kernel is willing. -/
theorem epollCtl_shrink {epoll : EpollSet} (present : (epoll fd).isSome) (events : BitVec 32) :
    epollCtl (if events ≠ 0#32 then .mod else .del) fd (EPOLLET ||| events) granted epoll =
      if granted then some (Function.update epoll fd (interest events)) else none := by
  unfold epollCtl interest
  by_cases empty : events = 0#32 <;> cases granted <;> simp [empty, present]

/-- An interest that grows, or is new, is granted if the kernel is willing. -/
theorem epollCtl_grow {epoll : EpollSet} {before : BitVec 32} (agrees : epoll fd = interest before)
    (events : BitVec 32) :
    epollCtl (if before ≠ 0#32 then .mod else .add) fd events granted epoll =
      if granted then some (Function.update epoll fd (some events)) else none := by
  unfold epollCtl
  unfold interest at agrees
  by_cases empty : before = 0#32 <;> cases granted <;> simp [empty, agrees]

theorem Consistent.present (consistent : Consistent m) {handoff : Handoff}
    (held : m.slot fd event = some handoff) : (m.epoll fd).isSome := by
  have events : (m.context fd).events ≠ 0#32 := by
    rw [consistent.core.events, ne_eq, mask_eq_zero]
    intro none
    have unset := none event
    rw [registered, held] at unset
    cases unset
  rw [consistent.epoll, interest, if_neg events]
  rfl

/-- The epoll set with the interest of a descriptor brought in line with its slots to be. -/
def align (fd : ℕ) (slots : Event → Option Handoff) (m : IOManager) : IOManager :=
  { m with epoll := Function.update m.epoll fd (interest (mask fun event => (slots event).isSome)) }

theorem Core.align (core : Core m) (fd : ℕ) (slots : Event → Option Handoff) : Core (m.align fd slots) :=
  { core with }

theorem Rewrites.consistent {slots : Event → Option Handoff} {out : List Handoff}
    (consistent : Consistent m) (rewrites : Rewrites (m.align fd slots) fd slots out t) : Consistent t where
  core := rewrites.core
  epoll := by
    intro other
    rw [rewrites.epoll, rewrites.core.events, IOManager.align]
    dsimp only
    rcases eq_or_ne other fd with rfl | different
    · have here : t.registered other = fun event => (slots event).isSome := by
        funext event
        rw [registered, rewrites.here]
      rw [Function.update_self, here]
    · have same : t.registered other = m.registered other := by
        funext event
        rw [registered, rewrites.elsewhere other different]
        rfl
      rw [Function.update_of_ne different, consistent.epoll, consistent.core.events, same]

end Sylar.IOManager
