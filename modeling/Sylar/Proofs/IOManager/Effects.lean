import Sylar.Proofs.IOManager.Slots

/-! # What each function of `IOManager` does to the registrations

Every function that completes either changes nothing a registration is recorded in or rewrites the
slots of one descriptor; `Effect` says how, function by function, and what it hands to schedulers. The
invariants of whole runs, the bookkeeping first, use `Effect` and look into no function.
-/

namespace Sylar.IOManager

variable {m t : IOManager} {fd : ℕ} {event : Event} {p q : Event → Bool} {granted : Bool}

/-! ## What each function does -/

/-- The slots of `fd` have become `slots`, the tasks `out` have been scheduled, and everything agrees
again. -/
structure Moves (m : IOManager) (fd : ℕ) (slots : Event → Option Handoff) (out : List Handoff)
    (t : IOManager) : Prop where
  consistent : Consistent t
  here : t.slot fd = slots
  elsewhere : ∀ other, other ≠ fd → t.slot other = m.slot other
  scheduled : t.scheduled.map owned = m.scheduled.map owned ++ out

/-- Nothing a registration is recorded in has changed. -/
structure Unchanged (m t : IOManager) : Prop where
  context : t.context = m.context
  pending : t.pendingEventCount = m.pendingEventCount
  epoll : t.epoll = m.epoll
  scheduled : t.scheduled = m.scheduled

theorem Unchanged.refl (m : IOManager) : Unchanged m m := ⟨rfl, rfl, rfl, rfl⟩

theorem Rewrites.moves {slots : Event → Option Handoff} {out : List Handoff} (consistent : Consistent m)
    (rewrites : Rewrites (m.align fd slots) fd slots out t) : Moves m fd slots out t where
  consistent := rewrites.consistent consistent
  here := rewrites.here
  elsewhere := rewrites.elsewhere
  scheduled := rewrites.scheduled

/-- What `addEvent` registers. -/
def handoffOf (cb : Option Callback) (caller : Caller) : Handoff :=
  (caller.scheduler, cb.elim (.fiber caller.fiber) .cb)

/-- The events a report stands for. -/
def reported (report : BitVec 32) (event : Event) : Bool :=
  decide (report &&& event.bit ≠ 0#32 ∨ report &&& (EPOLLERR ||| EPOLLHUP) ≠ 0#32)

theorem realEvents_eq (report : BitVec 32) : realEvents report = mask (reported report) := by
  have widened (event : Event) : (report ||| (EPOLLIN ||| EPOLLOUT)) &&& event.bit ≠ 0#32 := by
    have hit : (EPOLLIN ||| EPOLLOUT) &&& event.bit ≠ 0#32 := by cases event <;> decide
    rw [BitVec.and_or_distrib_right]
    exact fun zero => hit (BitVec.or_eq_zero_iff.mp zero).2
  have read : (report ||| (EPOLLIN ||| EPOLLOUT)) &&& EPOLLIN ≠ 0#32 := widened .read
  have write : (report ||| (EPOLLIN ||| EPOLLOUT)) &&& EPOLLOUT ≠ 0#32 := widened .write
  unfold realEvents mask bits reported
  by_cases failed : report &&& (EPOLLERR ||| EPOLLHUP) = 0#32
  · simp [failed, Event.bit, READ, WRITE]
  · simp [failed, read, write]

theorem consumes_align (consistent : Consistent m) {handoff : Handoff}
    (held : m.slot fd event = some handoff) (q : Event → Bool) :
    epollCtl (if (m.context fd).events &&& ~~~mask q ≠ 0#32 then .mod else .del) fd
      (EPOLLET ||| ((m.context fd).events &&& ~~~mask q)) granted m.epoll =
      if granted then some (m.align fd (reset q (m.slot fd))).epoll else none := by
  have left : (m.context fd).events &&& ~~~mask q =
      mask fun event => (reset q (m.slot fd) event).isSome := by
    rw [consistent.core.events, mask_and_not_mask]
    congr 1
    funext event
    rw [registered, reset]
    cases q event <;> simp
  rw [epollCtl_shrink (consistent.present held), left]
  rfl

theorem mask_single (event : Event) : mask (· == event) = event.bit := by
  cases event <;> decide

theorem reset_single (slots : Event → Option Handoff) (event : Event) :
    reset (· == event) slots = Function.update slots event none := by
  funext other
  rcases eq_or_ne other event with rfl | different
  · rw [reset, beq_self_eq_true, if_pos rfl, Function.update_self]
  · rw [reset, beq_false_of_ne different, if_neg Bool.false_ne_true, Function.update_of_ne different]

theorem released_single {slots : Event → Option Handoff} {handoff : Handoff}
    (held : slots event = some handoff) : released (· == event) slots = [handoff] := by
  cases event <;> simp [released, Event.all, held]

/-- What a completed step does, by the function it runs. -/
inductive Effect (m : IOManager) : Request × Bool → IOManager → Prop
  | refused {request : Request} {t : IOManager} : Unchanged m t → Consistent t →
      Effect m (request, false) t
  | added {fd : ℕ} {event : Event} {cb : Option Callback} {caller : Caller} {granted : Bool}
      {t : IOManager} : m.slot fd event = none →
      Moves m fd (Function.update (m.slot fd) event (some (handoffOf cb caller))) [] t →
      Effect m (.addEvent fd event cb caller granted, true) t
  | deleted {fd : ℕ} {event : Event} {granted : Bool} {t : IOManager} :
      m.registered fd event = true → Moves m fd (reset (· == event) (m.slot fd)) [] t →
      Effect m (.delEvent fd event granted, true) t
  | cancelled {fd : ℕ} {event : Event} {granted : Bool} {t : IOManager} : m.Ready fd event →
      Moves m fd (reset (· == event) (m.slot fd)) (released (· == event) (m.slot fd)) t →
      Effect m (.cancelEvent fd event granted, true) t
  | cancelledAll {fd : ℕ} {granted : Bool} {t : IOManager} :
      (∀ event, m.registered fd event = true → m.Ready fd event) →
      Moves m fd (reset (m.registered fd) (m.slot fd)) (released (m.registered fd) (m.slot fd)) t →
      Effect m (.cancelAll fd granted, true) t
  | dispatched {fd : ℕ} {report : BitVec 32} {granted : Bool} {t : IOManager} :
      (∀ event, reported report event = true → m.Ready fd event) →
      Moves m fd (reset (reported report) (m.slot fd)) (released (reported report) (m.slot fd)) t →
      Effect m (.dispatch fd report granted, true) t

/-- A trigger of an event that is not ready does not complete. -/
theorem Core.triggerIf_error (core : Core m) {v : BitVec 32} (set : v &&& event.bit ≠ 0#32)
    (unready : ¬ m.Ready fd event) : ∃ fault, m.triggerIf v fd event = .error fault := by
  obtain ⟨fault, failed⟩ := core.triggerEvent_error unready
  refine ⟨fault, ?_⟩
  rw [IOManager.triggerIf, if_neg set, failed]
  rfl

/-- Nor do the triggers of a set of events that are not all ready. -/
theorem Core.triggerBoth_error (core : Core m) (fd : ℕ) (q : Event → Bool) (first : BitVec 32)
    (second : IOManager → BitVec 32) (masked : first &&& READ = 0#32 ↔ q .read = false)
    (masked' : ∀ t, Core t → t.slot fd .write = m.slot fd .write →
      (second t &&& WRITE = 0#32 ↔ q .write = false))
    (unready : ∃ event, q event = true ∧ ¬ m.Ready fd event) :
    ∃ fault, (do let t ← m.triggerIf first fd .read; t.triggerIf (second t) fd .write) =
      Except.error fault := by
  obtain ⟨event, set, unready⟩ := unready
  by_cases early : q .read = true ∧ ¬ m.Ready fd .read
  · have hit : first &&& READ ≠ 0#32 := fun zero => Bool.noConfusion (early.1.symm.trans (masked.mp zero))
    obtain ⟨fault, failed⟩ := @Core.triggerIf_error m fd .read core first hit early.2
    refine ⟨fault, ?_⟩
    rw [failed]
    rfl
  · cases event with
    | read => exact absurd ⟨set, unready⟩ early
    | write =>
      obtain ⟨t, ran, rewrites⟩ := core.triggerIf masked fun reads => not_not.mp fun free =>
        early ⟨reads, free⟩
      have same : t.slot fd .write = m.slot fd .write := by
        rw [rewrites.here]
        split_ifs
        · exact Function.update_of_ne (by decide) _ _
        · rfl
      have hit : second t &&& WRITE ≠ 0#32 := fun zero =>
        Bool.noConfusion (set.symm.trans ((masked' t rewrites.core same).mp zero))
      have still : ¬ t.Ready fd .write := by
        rw [Ready, same]
        exact unready
      obtain ⟨fault, failed⟩ := rewrites.core.triggerIf_error hit still
      refine ⟨fault, ?_⟩
      rw [ran]
      exact failed

namespace Consistent

theorem unregistered (consistent : Consistent m) (zero : (m.context fd).events &&& event.bit = 0#32) :
    m.registered fd event = false := by
  rw [consistent.core.events] at zero
  exact (mask_and_bit _ _).mp zero

theorem isRegistered (consistent : Consistent m) (nonzero : ¬ (m.context fd).events &&& event.bit = 0#32) :
    m.registered fd event = true := by
  rw [consistent.core.events, mask_and_bit] at nonzero
  exact Bool.eq_true_of_not_eq_false nonzero

/-- A registered event has something to hand over, and the kernel is asked for what the others leave. -/
theorem consumes (consistent : Consistent m) (nonzero : ¬ (m.context fd).events &&& event.bit = 0#32)
    (granted : Bool) : ∃ handoff, m.slot fd event = some handoff ∧
      epollCtl (if (m.context fd).events &&& ~~~event.bit ≠ 0#32 then .mod else .del) fd
          (EPOLLET ||| ((m.context fd).events &&& ~~~event.bit)) granted m.epoll =
        if granted then some (m.align fd (reset (· == event) (m.slot fd))).epoll else none := by
  obtain ⟨handoff, held⟩ := Option.isSome_iff_exists.mp (consistent.isRegistered nonzero)
  have ctl := @consumes_align m fd event granted consistent handoff held (· == event)
  rw [mask_single] at ctl
  exact ⟨handoff, held, ctl⟩

theorem refused (consistent : Consistent m) {request : Request} : Effect m (request, false) m :=
  .refused (.refl m) consistent

theorem delEvent (consistent : Consistent m) {result : Bool}
    (ran : m.delEvent fd event granted = .ok (result, t)) :
    Effect m (.delEvent fd event granted, result) t := by
  unfold IOManager.delEvent at ran
  dsimp only at ran
  split at ran
  · cases ran; exact consistent.refused
  split at ran
  · cases ran; exact consistent.refused
  next nonzero =>
  obtain ⟨handoff, held, ctl⟩ := consistent.consumes nonzero granted
  rw [ctl] at ran
  cases granted with
  | false => cases ran; exact consistent.refused
  | true =>
    have positive := consistent.core.pending_pos held
    have aligned := consistent.core.align fd (reset (· == event) (m.slot fd))
    have cleared := aligned.resetSlot held
    rw [← reset_single] at cleared
    have counted := @decrementPending_of_pos (m.align fd (reset (· == event) (m.slot fd))) positive
    have final : (m.align fd (reset (· == event) (m.slot fd))).decrementPending.setFdContext fd
        (FdContext.resetContext
          { m.context fd with events := (m.context fd).events &&& ~~~event.bit } event) =
        (m.align fd (reset (· == event) (m.slot fd))).assign fd event {} (m.pendingEventCount - 1) := by
      rw [counted]
      rfl
    have ended := (congrArg (fun after => Except.ok (true, after)) final).symm.trans ran
    cases ended
    exact .deleted (consistent.isRegistered nonzero) (Rewrites.moves consistent cleared)

theorem cancelEvent (consistent : Consistent m) {result : Bool}
    (ran : m.cancelEvent fd event granted = .ok (result, t)) :
    Effect m (.cancelEvent fd event granted, result) t := by
  unfold IOManager.cancelEvent at ran
  dsimp only at ran
  split at ran
  · cases ran; exact consistent.refused
  split at ran
  · cases ran; exact consistent.refused
  next nonzero =>
  obtain ⟨handoff, held, ctl⟩ := consistent.consumes nonzero granted
  rw [ctl] at ran
  cases granted with
  | false => cases ran; exact consistent.refused
  | true =>
    have aligned := consistent.core.align fd (reset (· == event) (m.slot fd))
    have ended : (do
        let m ← (m.align fd (reset (· == event) (m.slot fd))).triggerEvent fd event
        return (true, m.decrementPending)) = Except.ok (result, t) := ran
    by_cases ready : m.Ready fd event
    · obtain ⟨scheduler, task, held⟩ := ready
      obtain ⟨u, triggered, rewrites⟩ := aligned.trigger held
      rw [triggered] at ended
      cases ended
      refine .cancelled ⟨scheduler, task, held⟩ (Rewrites.moves consistent ?_)
      rw [released_single held]
      rw [reset_single] at rewrites ⊢
      exact rewrites
    · obtain ⟨fault, failed⟩ := aligned.triggerEvent_error ready
      rw [failed] at ended
      cases ended

theorem cancelAll (consistent : Consistent m) {result : Bool}
    (ran : m.cancelAll fd granted = .ok (result, t)) : Effect m (.cancelAll fd granted, result) t := by
  unfold IOManager.cancelAll at ran
  dsimp only at ran
  split at ran
  · cases ran; exact consistent.refused
  split at ran
  · cases ran; exact consistent.refused
  next nonzero =>
  have present : (m.epoll fd).isSome := by
    rw [consistent.epoll, interest, if_neg nonzero]
    rfl
  have all : (fun event => (reset (m.registered fd) (m.slot fd) event).isSome) = fun _ => false := by
    funext event
    rw [reset, registered]
    cases m.slot fd event <;> rfl
  have ctl : epollCtl .del fd 0#32 granted m.epoll =
      if granted then some (m.align fd (reset (m.registered fd) (m.slot fd))).epoll else none := by
    rw [IOManager.align, all]
    cases granted <;> simp [epollCtl, present, interest, mask, bits]
  rw [ctl] at ran
  cases granted with
  | false => cases ran; exact consistent.refused
  | true =>
    have aligned := consistent.core.align fd (reset (m.registered fd) (m.slot fd))
    have masked : (m.context fd).events &&& READ = 0#32 ↔ m.registered fd .read = false := by
      rw [consistent.core.events]
      exact mask_and_bit _ .read
    have masked' (v : IOManager) (core : Core v) (same : v.slot fd .write = m.slot fd .write) :
        (v.context fd).events &&& WRITE = 0#32 ↔ m.registered fd .write = false := by
      rw [core.events]
      refine (mask_and_bit _ .write).trans ?_
      rw [registered, same]
      rfl
    by_cases ready : ∀ event, m.registered fd event = true → m.Ready fd event
    · obtain ⟨v, u, first, second, rewrites⟩ := aligned.triggerBoth fd (m.registered fd)
        (m.context fd).events (fun v => (v.context fd).events) masked masked' ready
      have emptied : (u.context fd).events = 0#32 := by
        rw [rewrites.core.events, mask_eq_zero]
        intro event
        rw [registered, rewrites.here]
        exact congrFun all event
      change Except.bind ((m.align fd _).triggerIf (m.context fd).events fd .read) _ = _ at ran
      rw [first] at ran
      change Except.bind (v.triggerIf (v.context fd).events fd .write) _ = _ at ran
      rw [second] at ran
      change (if (u.context fd).events ≠ 0#32 then _ else _) = _ at ran
      rw [if_neg (not_not.mpr emptied)] at ran
      cases ran
      exact .cancelledAll ready (rewrites.moves consistent)
    · push Not at ready
      obtain ⟨fault, failed⟩ := aligned.triggerBoth_error fd (m.registered fd) (m.context fd).events
        (fun v => (v.context fd).events) masked masked' ready
      have sequence : (do
          let v ← (m.align fd (reset (m.registered fd) (m.slot fd))).triggerIf (m.context fd).events fd .read
          v.triggerIf (v.context fd).events fd .write) >>= (fun u =>
            if (u.context fd).events ≠ 0#32 then Except.error Fault.assertion else .ok (true, u)) =
          .ok (result, t) := by
        rw [bind_assoc]
        exact ran
      rw [failed] at sequence
      cases sequence

end Consistent

/-! ## Dispatch -/

namespace Consistent

theorem reported_zero_iff (consistent : Consistent m) (report : BitVec 32) :
    (m.context fd).events &&& realEvents report = 0#32 ↔
      ∀ event, m.registered fd event = true → reported report event = false := by
  rw [consistent.core.events, realEvents_eq, mask_and_mask, mask_eq_zero]
  apply forall_congr'
  intro event
  cases m.registered fd event <;> simp

/-- Nothing happens if no registered event is reported. -/
theorem dispatch_disjoint (consistent : Consistent m) {report : BitVec 32}
    (disjoint : ∀ event, m.registered fd event = true → reported report event = false) :
    m.dispatch fd report granted = .ok (false, m) := by
  unfold IOManager.dispatch
  dsimp only
  rw [if_pos ((consistent.reported_zero_iff report).mpr disjoint)]

/-- Otherwise the epoll set is brought in line, if the kernel is willing, and the events are triggered. -/
theorem dispatch_overlap (consistent : Consistent m) {report : BitVec 32}
    (overlap : m.registered fd event = true ∧ reported report event = true) :
    m.dispatch fd report granted = if granted then (do
      let t ← (m.align fd (reset (reported report) (m.slot fd))).triggerIf (mask (reported report)) fd .read
      let u ← t.triggerIf (mask (reported report)) fd .write
      return (true, u)) else .ok (false, m) := by
  obtain ⟨handoff, held⟩ := Option.isSome_iff_exists.mp overlap.1
  have meets : ¬ (m.context fd).events &&& realEvents report = 0#32 := by
    rw [consistent.reported_zero_iff]
    intro disjoint
    exact Bool.noConfusion ((disjoint event overlap.1).symm.trans overlap.2)
  unfold IOManager.dispatch
  dsimp only
  rw [if_neg meets, realEvents_eq,
    @consumes_align m fd event granted consistent handoff held (reported report)]
  cases granted <;> rfl

/-- If every reported event is ready, exactly these are triggered. -/
theorem dispatch_covered (consistent : Consistent m) {report : BitVec 32}
    (overlap : m.registered fd event = true ∧ reported report event = true)
    (covered : ∀ event, reported report event = true → m.Ready fd event) :
    ∃ t, m.dispatch fd report true = .ok (true, t) ∧
      Moves m fd (reset (reported report) (m.slot fd)) (released (reported report) (m.slot fd)) t := by
  have aligned := consistent.core.align fd (reset (reported report) (m.slot fd))
  obtain ⟨t, u, first, second, rewrites⟩ := aligned.triggerBoth fd (reported report)
    (mask (reported report)) (fun _ => mask (reported report)) (mask_and_bit _ .read)
    (fun _ _ _ => mask_and_bit _ .write) covered
  refine ⟨u, ?_, rewrites.moves consistent⟩
  rw [consistent.dispatch_overlap overlap, if_pos rfl, first]
  change Except.bind (t.triggerIf _ fd .write) _ = _
  rw [second]
  rfl

/-- If one of them is not, a trigger fails. -/
theorem dispatch_uncovered (consistent : Consistent m) {report : BitVec 32}
    (overlap : m.registered fd event = true ∧ reported report event = true)
    (unready : ∃ event, reported report event = true ∧ ¬ m.Ready fd event) :
    ∃ fault, m.dispatch fd report true = .error fault := by
  have aligned := consistent.core.align fd (reset (reported report) (m.slot fd))
  obtain ⟨fault, failed⟩ := aligned.triggerBoth_error fd (reported report) (mask (reported report))
    (fun _ => mask (reported report)) (mask_and_bit _ .read) (fun _ _ _ => mask_and_bit _ .write) unready
  refine ⟨fault, ?_⟩
  rw [consistent.dispatch_overlap overlap, if_pos rfl, ← bind_assoc, failed]
  rfl

theorem dispatch (consistent : Consistent m) {report : BitVec 32} {result : Bool}
    (ran : m.dispatch fd report granted = .ok (result, t)) :
    Effect m (.dispatch fd report granted, result) t := by
  by_cases disjoint : ∀ event, m.registered fd event = true → reported report event = false
  · rw [consistent.dispatch_disjoint disjoint] at ran
    cases ran
    exact consistent.refused
  · push Not at disjoint
    obtain ⟨event, set, hit⟩ := disjoint
    have overlap : m.registered fd event = true ∧ reported report event = true :=
      ⟨set, Bool.eq_true_of_not_eq_false hit⟩
    cases granted with
    | false =>
      rw [consistent.dispatch_overlap overlap] at ran
      cases ran
      exact consistent.refused
    | true =>
      by_cases covered : ∀ event, reported report event = true → m.Ready fd event
      · obtain ⟨u, ran', moves⟩ := consistent.dispatch_covered overlap covered
        rw [ran'] at ran
        cases ran
        exact .dispatched covered moves
      · push Not at covered
        obtain ⟨fault, failed⟩ := consistent.dispatch_uncovered overlap covered
        rw [failed] at ran
        cases ran

end Consistent

/-! ## Registering -/

/-- Descriptors past the end of the table count for nothing. -/
theorem Core.pending_range (core : Core m) {n : ℕ} (larger : m.size ≤ n) :
    m.pendingEventCount = ∑ fd ∈ Finset.range n, Event.all.countP (m.registered fd) := by
  refine core.pending.trans (Finset.sum_subset (Finset.range_mono larger) ?_)
  intro fd _ past
  have outside : m.size ≤ fd := not_lt.mp fun inside => past (Finset.mem_range.mpr inside)
  apply List.countP_eq_zero.mpr
  intro event _
  rw [registered, core.outside fd outside event]
  exact Bool.noConfusion

/-- The pending count follows the slots of the descriptor. -/
theorem Moves.pending {slots : Event → Option Handoff} {out : List Handoff} (core : Core m)
    (moves : Moves m fd slots out t) :
    t.pendingEventCount + Event.all.countP (m.registered fd) =
      m.pendingEventCount + Event.all.countP (fun event => (slots event).isSome) := by
  have inside : fd < max m.size t.size + fd + 1 := by omega
  have here : t.registered fd = fun event => (slots event).isSome := by
    funext event
    rw [registered, moves.here]
  have elsewhere (other : ℕ) (different : other ≠ fd) : Event.all.countP (t.registered other) =
      Event.all.countP (m.registered other) := by
    congr 1
    funext event
    rw [registered, moves.elsewhere other different, registered]
  rw [core.pending_range (show m.size ≤ max m.size t.size + fd + 1 by omega),
    moves.consistent.core.pending_range (show t.size ≤ max m.size t.size + fd + 1 by omega), ← here]
  exact sum_range_update inside (fun fd => Event.all.countP (m.registered fd))
    (fun fd => Event.all.countP (t.registered fd)) elsewhere

/-- The log of scheduled tasks grows by what is handed over. -/
theorem Moves.length {slots : Event → Option Handoff} {out : List Handoff} (moves : Moves m fd slots out t) :
    t.scheduled.length = m.scheduled.length + out.length := by
  have lengths := congrArg List.length moves.scheduled
  rwa [List.length_append, List.length_map, List.length_map] at lengths

/-- A larger table has the same contexts. -/
theorem Core.contextResize (core : Core m) {size : ℕ} (larger : m.size ≤ size) :
    m.contextResize size = { m with size } ∧ Core { m with size } := by
  have blank : ∀ fd, m.size ≤ fd → m.context fd = {} := by
    intro fd past
    have none (event : Event) : (m.context fd).getContext event = {} :=
      core.empty fd event (core.outside fd past event)
    have events : (m.context fd).events = 0#32 := by
      rw [core.events, mask_eq_zero]
      intro event
      rw [registered, core.outside fd past event]
      rfl
    have read := none .read
    have write := none .write
    cases context : m.context fd
    rw [context] at read write events
    cases read
    cases write
    cases events
    rfl
  constructor
  · rw [IOManager.contextResize, Nat.min_eq_left larger]
    congr 1
    funext fd
    split_ifs with inside
    · rfl
    · exact (blank fd (not_lt.mp inside)).symm
  · exact {
      size := core.size.trans larger
      empty := core.empty
      events := core.events
      outside := fun fd past => core.outside fd (larger.trans past)
      pending := core.pending_range larger }

/-- Filling a free slot and counting one more. -/
theorem Core.fillSlot (core : Core m) (inside : fd < m.size) (free : m.slot fd event = none)
    {context : EventContext} {handoff : Handoff} (filled : context.handoff = some handoff) :
    Rewrites m fd (Function.update (m.slot fd) event (some handoff)) []
      (m.assign fd event context (m.pendingEventCount + 1)) where
  core := by
    apply core.assign inside
    · intro none
      rw [filled] at none
      cases none
    · rw [registered, free, filled]
      rfl
  here := by rw [slot_assign, if_pos rfl, filled]
  elsewhere := fun other different => by rw [slot_assign, if_neg different]
  size := rfl
  epoll := rfl
  scheduled := (List.append_nil _).symm

namespace Consistent

/-- What `addEvent` leaves once the kernel has granted the larger interest. -/
theorem fill (consistent : Consistent m) (inside : fd < m.size) (free : m.slot fd event = none)
    {context : EventContext} {handoff : Handoff} (filled : context.handoff = some handoff) :
    Moves m fd (Function.update (m.slot fd) event (some handoff)) []
      (setFdContext fd (FdContext.setContext
        { m.context fd with events := (m.context fd).events ||| event.bit } event context)
        { m with
          epoll := Function.update m.epoll fd
            (some (EPOLLET ||| (m.context fd).events ||| event.bit))
          pendingEventCount := m.pendingEventCount + 1 }) := by
  have events : (m.context fd).events ||| event.bit =
      mask fun other => (Function.update (m.slot fd) event (some handoff) other).isSome := by
    rw [consistent.core.events, mask_or_bit]
    congr 1
    funext other
    rcases eq_or_ne other event with rfl | different
    · rw [Function.update_self, Function.update_self, Option.isSome_some]
    · rw [Function.update_of_ne different, Function.update_of_ne different, registered]
  have interested : interest ((m.context fd).events ||| event.bit) =
      some (EPOLLET ||| (m.context fd).events ||| event.bit) := by
    rw [interest, if_neg, BitVec.or_assoc]
    intro zero
    have bit : event.bit ≠ 0#32 := by cases event <;> decide
    exact bit (BitVec.or_eq_zero_iff.mp zero).2
  have aligned := consistent.core.align fd (Function.update (m.slot fd) event (some handoff))
  have moves := (aligned.fillSlot inside free filled).moves consistent
  rw [IOManager.align, ← events, interested, IOManager.assign, FdContext.assign, filled] at moves
  exact moves

/-- `addEvent` on a descriptor the table has room for. -/
theorem addEvent_inside (consistent : Consistent m) (inside : fd < m.size) {cb : Option Callback}
    {caller : Caller} {result : Bool} (ran : m.addEvent fd event cb caller granted = .ok (result, t)) :
    Effect m (.addEvent fd event cb caller granted, result) t := by
  unfold IOManager.addEvent at ran
  dsimp only at ran
  rw [if_pos inside] at ran
  split at ran
  · cases ran
  next free =>
  have free := consistent.unregistered (not_not.mp free)
  have none : m.slot fd event = none := by simpa [registered] using free
  rw [epollCtl_grow (consistent.epoll fd)] at ran
  cases granted with
  | false => cases ran; exact consistent.refused
  | true =>
    have blank : FdContext.getContext
        { m.context fd with events := (m.context fd).events ||| event.bit } event = {} :=
      (getContext_events _ _ event).trans (consistent.core.empty fd event none)
    change (if FdContext.getContext { m.context fd with
      events := (m.context fd).events ||| event.bit } event ≠ {} then _ else _) = _ at ran
    rw [if_neg (not_not.mpr blank)] at ran
    cases cb with
    | some cb =>
      cases ran
      exact .added none (consistent.fill inside none rfl)
    | none =>
      change (if (!caller.executing) = true then _ else _) = _ at ran
      split at ran
      · cases ran
      · cases ran
        exact .added none (consistent.fill inside none rfl)

theorem addEvent (consistent : Consistent m) {cb : Option Callback} {caller : Caller} {result : Bool}
    (ran : m.addEvent fd event cb caller granted = .ok (result, t)) :
    Effect m (.addEvent fd event cb caller granted, result) t := by
  by_cases inside : fd < m.size
  · exact consistent.addEvent_inside inside ran
  · have size := consistent.core.size
    have grows : m.size ≤ fd * 3 / 2 := by omega
    obtain ⟨resized, core⟩ := consistent.core.contextResize grows
    have consistent' : Consistent { m with size := fd * 3 / 2 } := ⟨core, consistent.epoll⟩
    have room : fd < ({ m with size := fd * 3 / 2 } : IOManager).size := show fd < fd * 3 / 2 by omega
    have same : IOManager.addEvent fd event cb caller granted { m with size := fd * 3 / 2 } =
        m.addEvent fd event cb caller granted := by
      unfold IOManager.addEvent
      rw [if_pos room, if_neg inside, resized]
    have effect := consistent'.addEvent_inside room (same.trans ran)
    cases effect with
    | refused unchanged after => exact .refused { unchanged with } after
    | added free moves => exact .added free { moves with }

end Consistent

/-! ## Runs -/

/-- The inversion of one step of a run, used by every invariant of runs. -/
theorem Consistent.effect (consistent : Consistent m) {label : Request × Bool}
    (step : machine.Step m label t) : Effect m label t := by
  obtain ⟨request, result⟩ := label
  cases request with
  | addEvent fd event cb caller granted => exact consistent.addEvent step
  | delEvent fd event granted => exact consistent.delEvent step
  | cancelEvent fd event granted => exact consistent.cancelEvent step
  | cancelAll fd granted => exact consistent.cancelAll step
  | dispatch fd report granted => exact consistent.dispatch step

theorem Effect.consistent {label : Request × Bool} (effect : Effect m label t) : Consistent t := by
  cases effect with
  | refused _ after => exact after
  | added _ moves => exact moves.consistent
  | deleted _ moves => exact moves.consistent
  | cancelled _ moves => exact moves.consistent
  | cancelledAll _ moves => exact moves.consistent
  | dispatched _ moves => exact moves.consistent

theorem reachable_consistent (reached : machine.Reachable m) : Consistent m := by
  apply reached.invariant (P := Consistent)
  · rintro _ rfl
    exact new_consistent
  · intro m label t consistent step
    exact (consistent.effect step).consistent

/-- Every registration has a scheduler. -/
def Owned (m : IOManager) : Prop := ∀ fd event handoff, m.slot fd event = some handoff → handoff.1.isSome

theorem Moves.owned {slots : Event → Option Handoff} {out : List Handoff} (moves : Moves m fd slots out t)
    (before : Owned m) (here : ∀ event handoff, slots event = some handoff → handoff.1.isSome) :
    Owned t := by
  intro other event handoff held
  rcases eq_or_ne other fd with rfl | different
  · rw [moves.here] at held
    exact here event handoff held
  · rw [moves.elsewhere other different] at held
    exact before other event handoff held

theorem Owned.reset (before : Owned m) (q : Event → Bool) (fd : ℕ) (event : Event) (handoff : Handoff)
    (held : reset q (m.slot fd) event = some handoff) : handoff.1.isSome := by
  rw [IOManager.reset] at held
  split_ifs at held
  exact before fd event handoff held

theorem Effect.owned {label : Request × Bool} (effect : Effect m label t) (before : Owned m)
    (onScheduler : label.1.OnScheduler) : Owned t := by
  cases effect with
  | refused unchanged _ =>
    intro fd event handoff held
    rw [slot, unchanged.context] at held
    exact before fd event handoff held
  | @added fd event cb caller _ _ _ moves =>
    refine moves.owned before fun other handoff held => ?_
    rcases eq_or_ne other event with rfl | different
    · rw [Function.update_self] at held
      cases held
      exact onScheduler
    · rw [Function.update_of_ne different] at held
      exact before fd other handoff held
  | @deleted fd _ _ _ _ moves => exact moves.owned before (before.reset _ fd)
  | @cancelled fd _ _ _ _ moves => exact moves.owned before (before.reset _ fd)
  | @cancelledAll fd _ _ _ moves => exact moves.owned before (before.reset _ fd)
  | @dispatched fd _ _ _ _ moves => exact moves.owned before (before.reset _ fd)

/-- The runs in which events are added by scheduler threads only. -/
def onScheduler : Machine IOManager (Request × Bool) :=
  machine.restrict fun _ label => label.1.OnScheduler

/-- Scheduler 1 waits with callback 9 until descriptor 5 can be read. -/
def oneReader : IOManager where
  size := 32
  context := Function.update (fun _ => {}) 5 ⟨⟨some 1, none, some 9⟩, {}, READ⟩
  pendingEventCount := 1
  epoll := Function.update (fun _ => none) 5 (some (EPOLLET ||| READ))
  scheduled := []

theorem oneReader_step : onScheduler.Step new
    (.addEvent 5 .read (some 9) ⟨some 1, 7, true⟩ true, true) oneReader := ⟨rfl, rfl⟩

theorem oneReader_reachable : onScheduler.Reachable oneReader :=
  (Machine.Reachable.init rfl).step oneReader_step

end Sylar.IOManager
