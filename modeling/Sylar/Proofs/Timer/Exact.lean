import Sylar.Proofs.Timer.Expiry

/-! # `listExpiredCb` takes exactly the timers that are due

The end iterator is found with a probe that ties with real timers by its address and is then moved
over the ties, so the prefix in front of it is what the deadlines select. What happens to a timer of
that prefix is told by the timer alone, since the loop runs over distinct timers.
-/

namespace Sylar

/-- What the loop of `listExpiredCb` makes of a timer it takes. -/
def Timer.expire (now : BitVec 64) (timer : Timer) : Timer :=
  if timer.recurring then { timer with next := now + timer.ms } else { timer with cb := none }

namespace TimerManager

variable {m : TimerManager} {now : BitVec 64} {probe a : TimerPtr}

/-! ## The timers the loop leaves -/

theorem expire_heap (now : BitVec 64) (timer : TimerPtr) (m : TimerManager) :
    (m.expire now timer).heap = Function.update m.heap timer ((m.heap timer).expire now) := by
  unfold expire Timer.expire
  dsimp only
  split_ifs <;> rfl

theorem expireAll_heap (now : BitVec 64) (expired : List TimerPtr) (distinct : expired.Nodup) :
    (expireAll now expired m).2.heap a =
      if a ∈ expired then (m.heap a).expire now else m.heap a := by
  induction expired generalizing m with
  | nil => rfl
  | cons timer rest ih =>
    obtain ⟨first, distinct⟩ := List.nodup_cons.mp distinct
    change (expireAll now rest (m.expire now timer)).2.heap a = _
    rw [ih distinct, expire_heap]
    rcases eq_or_ne a timer with rfl | other
    · rw [if_neg first, if_pos List.mem_cons_self, Function.update_self]
    · rw [Function.update_of_ne other]
      simp only [List.mem_cons, other, false_or]

theorem Ordered.listExpiredCbLocked_heap (ordered : Ordered m) {cbs : List (Option Callback)}
    {after : TimerManager} (ran : m.listExpiredCbLocked now probe = .ok (cbs, after)) (a : TimerPtr) :
    after.heap a = if a ∈ m.expired now probe then (m.heap a).expire now else m.heap a := by
  have distinct := ordered.expired_nodup now probe
  obtain ⟨it, expired, ran⟩ := listExpiredCbLocked_ran ran
  rw [expired] at distinct ⊢
  have loop := expireAll_heap (a := a) now _ distinct
    (m := { m with previousTime := now, timers := m.timers.drop it })
  rwa [ran] at loop

/-! ## The timers it takes -/

/-- The timers that are due at `now`, in the order of the set. -/
def dueTimers (now : BitVec 64) (m : TimerManager) : List TimerPtr :=
  m.timers.filter fun a => decide ((m.heap a).next ≤ now)

theorem mem_dueTimers : a ∈ m.dueTimers now ↔ a ∈ m.timers ∧ (m.heap a).next ≤ now := by simp [dueTimers]

theorem Ordered.increasing (ordered : Ordered m) :
    m.timers.Pairwise fun a b => (m.heap a).next ≤ (m.heap b).next := by
  apply ordered.sorted.imp
  intro a b less
  rcases Timer.key_lt_iff.mp less with earlier | ⟨tie, _⟩
  · exact BitVec.le_of_lt earlier
  · exact BitVec.le_of_eq tie

/-- The timers behind the end iterator are not due. -/
theorem Ordered.not_due (ordered : Ordered m) (fresh : m.live probe = false)
    (left : a ∈ m.timers.drop (m.expiredEnd false now probe)) : now < (m.heap a).next := by
  obtain ⟨absent, sorted⟩ := ordered.sorted_probe fresh now
  set it := OrderedSet.lowerBound (Timer.before (Function.update m.heap probe (Timer.probe now)))
    probe m.timers with lowerBound
  have behind (b : TimerPtr) (member : b ∈ m.timers.drop it) : now.toNat ≤ (m.heap b).next.toNat := by
    obtain ⟨member, notBefore⟩ := (OrderedSet.mem_drop_lowerBound (Timer.before_iff _) sorted).mp member
    have other : b ≠ probe := ne_of_mem_of_not_mem member absent
    by_contra earlier
    apply not_lt_of_ge notBefore
    rw [Timer.key_lt_iff, Function.update_of_ne other, Function.update_self]
    exact Or.inl (BitVec.lt_def.mpr (not_le.mp earlier))
  have tail : a ∈ (m.timers.drop it).dropWhile fun timer => (m.heap timer).next == now := by
    unfold expiredEnd at left
    dsimp only at left
    rw [if_neg Bool.false_ne_true, ← lowerBound, ← List.drop_drop] at left
    rwa [OrderedSet.drop_length_takeWhile] at left
  rw [BitVec.lt_def]
  refine OrderedSet.lt_of_mem_dropWhile (fun b => (m.heap b).next.toNat) ?_ ?_ behind tail
  · intro b
    rw [beq_iff_eq, BitVec.toNat_inj]
  · exact (ordered.increasing.sublist (List.drop_sublist _ _)).imp BitVec.le_def.mp

theorem Ordered.take_expiredEnd (ordered : Ordered m) (fresh : m.live probe = false) :
    m.timers.take (m.expiredEnd false now probe) = m.dueTimers now := by
  apply OrderedSet.take_eq_filter
  · intro a taken
    exact decide_eq_true (ordered.due fresh taken)
  · intro a left
    rw [decide_eq_true_iff]
    exact BitVec.not_le.mpr (ordered.not_due fresh left)

/-- When the front of the set is not due, nothing in it is. -/
theorem Ordered.dueTimers_eq_nil (ordered : Ordered m) {first : TimerPtr} {rest : List TimerPtr}
    (timers : m.timers = first :: rest) (later : now < (m.heap first).next) : m.dueTimers now = [] := by
  apply List.eq_nil_iff_forall_not_mem.mpr
  intro a due
  obtain ⟨member, early⟩ := mem_dueTimers.mp due
  have least : (m.heap first).next ≤ (m.heap a).next := by
    rw [timers] at member
    rcases List.mem_cons.mp member with rfl | behind
    · exact BitVec.le_refl _
    · have increasing := ordered.increasing
      rw [timers] at increasing
      exact List.rel_of_pairwise_cons increasing behind
  exact BitVec.not_le.mpr later (BitVec.le_trans least early)

theorem Ordered.expired_eq (ordered : Ordered m) (fresh : m.live probe = false) :
    m.expired now probe = if (m.detectClockRollover now).1 then m.timers else m.dueTimers now := by
  rw [TimerManager.expired_eq]
  cases (m.detectClockRollover now).1 with
  | true =>
    have all : m.timers.length ≤ m.expiredEnd true now probe := Nat.le_add_right _ _
    exact List.take_of_length_le all
  | false =>
    unfold nothingExpired
    rw [if_neg Bool.false_ne_true, if_neg Bool.false_ne_true]
    cases timers : m.timers with
    | nil => simp [dueTimers, timers]
    | cons first rest =>
      by_cases later : now < (m.heap first).next
      · rw [ordered.dueTimers_eq_nil timers later]
        simp [later]
      · rw [← ordered.take_expiredEnd fresh, timers]
        simp [later]

theorem detectClockRollover_iff (hour : 3600000#64 ≤ m.previousTime) :
    (m.detectClockRollover now).1 = true ↔ ¬ m.previousTime - 3600000#64 ≤ now := by
  have back : (m.detectClockRollover now).1 =
      (decide (now < m.previousTime) && decide (now < m.previousTime - 3600000#64)) := rfl
  rw [back, Bool.and_eq_true, decide_eq_true_iff, decide_eq_true_iff]
  bv_omega

theorem Ordered.getNextTimer_eq_zero_iff (ordered : Ordered m) :
    (m.getNextTimer now).1 = 0 ↔ m.dueTimers now ≠ [] := by
  unfold getNextTimer
  dsimp only
  split
  · next timers => exact iff_of_false (show ¬ ~~~0#64 = 0 by decide) (by simp [dueTimers, timers])
  · next first rest timers =>
    split_ifs with early
    · have taken : first ∈ m.dueTimers now := mem_dueTimers.mpr ⟨by rw [timers]; exact List.mem_cons_self, early⟩
      exact iff_of_true rfl (List.ne_nil_of_mem taken)
    · have later : now < (m.heap first).next := BitVec.not_le.mp early
      refine iff_of_false ?_ (not_not.mpr (ordered.dueTimers_eq_nil timers later))
      show ¬ (m.heap first).next - now = 0
      bv_omega

/-- What `listExpiredCb` leaves of a manager when it takes the timers `taken`. -/
structure Takes (taken : List TimerPtr) (m : TimerManager) (now : BitVec 64)
    (cbs : List (Option Callback)) (after : TimerManager) : Prop where
  cbs : cbs = taken.map fun a => (m.heap a).cb
  once : taken.Nodup
  increasing : taken.Pairwise fun a b => (m.heap a).next ≤ (m.heap b).next
  oneShot : ∀ a ∈ taken, (m.heap a).recurring = false → a ∉ after.timers ∧ (after.heap a).cb = none
  recurring : ∀ a ∈ taken, (m.heap a).recurring = true →
    a ∈ after.timers ∧ after.heap a = { m.heap a with next := now + (m.heap a).ms }
  others : ∀ a, a ∉ taken → after.heap a = m.heap a ∧ (a ∈ after.timers ↔ a ∈ m.timers)

theorem Ordered.takes (ordered : Ordered m) {cbs : List (Option Callback)} {after : TimerManager}
    (ran : m.listExpiredCbLocked now probe = .ok (cbs, after)) :
    Takes (m.expired now probe) m now cbs after := by
  have hands := ordered.handsOut ran
  have left := ordered.listExpiredCbLocked_heap ran
  have inSet := expired_subset now probe m
  refine ⟨hands.cbs, ordered.expired_nodup now probe, ?_, ?_, ?_, ?_⟩
  · apply List.Pairwise.sublist _ ordered.increasing
    unfold TimerManager.expired
    dsimp only
    split
    · exact List.take_sublist _ _
    · exact List.nil_sublist _
  · intro a taken once
    refine ⟨?_, ?_⟩
    · rw [hands.mem]
      intro both
      exact Bool.false_ne_true (once.symm.trans (both.2 taken))
    · rw [hands.cb, if_pos ⟨taken, once⟩]
  · intro a taken recurs
    refine ⟨(hands.mem a).mpr ⟨inSet a taken, fun _ => recurs⟩, ?_⟩
    rw [left, if_pos taken, Timer.expire, if_pos recurs]
  · intro a spared
    refine ⟨by rw [left, if_neg spared], ?_⟩
    rw [hands.mem]
    exact and_iff_left fun taken => absurd taken spared

/-- Behind its emptiness check, with the set not emptied since, `listExpiredCb` takes the timers that
are due, once each and by deadline, or all of them when the clock is more than an hour behind its last
reading. Those that recur are due again one period from `now`, the others leave the set and lose their
callback, and every timer it does not take is as it was. It takes one exactly when `getNextTimer` would
have said that there is no time to wait. -/
theorem listExpiredCb_exact (s : State) (reached : machine.Reachable s) (some : s.manager.timers ≠ [])
    (now previous : BitVec 64) (hour : 3600000#64 ≤ previous) (probe : TimerPtr)
    (fresh : s.manager.live probe = false) : ∃ cbs after,
    TimerManager.listExpiredCbLocked now probe { s.manager with previousTime := previous } =
      .ok (cbs, after) ∧
    (previous - 3600000#64 ≤ now →
      Takes (s.manager.timers.filter fun a => decide ((s.manager.heap a).next ≤ now)) s.manager now
        cbs after ∧
      ((s.manager.getNextTimer now).1 = 0 ↔ cbs ≠ [])) ∧
    (now < previous - 3600000#64 → Takes s.manager.timers s.manager now cbs after) := by
  have ordered := reachable_ordered reached
  have ordered' : Ordered { s.manager with previousTime := previous } := { ordered with }
  have rollover : (TimerManager.detectClockRollover now { s.manager with previousTime := previous }).1 =
      true ↔ ¬ previous - 3600000#64 ≤ now := detectClockRollover_iff hour
  have expired : TimerManager.expired now probe { s.manager with previousTime := previous } = _ :=
    ordered'.expired_eq fresh
  cases ran : TimerManager.listExpiredCbLocked now probe { s.manager with previousTime := previous } with
  | error cause => exact absurd (listExpiredCbLocked_error cause ran) some
  | ok done =>
    obtain ⟨cbs, after⟩ := done
    have takes := ordered'.takes ran
    refine ⟨cbs, after, rfl, ?_, ?_⟩
    · intro ahead
      rw [if_neg fun back => rollover.mp back ahead] at expired
      rw [expired] at takes
      refine ⟨{ takes with }, ordered.getNextTimer_eq_zero_iff.trans (not_congr ?_)⟩
      rw [takes.cbs]
      exact List.map_eq_nil_iff.symm
    · intro behind
      rw [if_pos (rollover.mpr (BitVec.not_le.mpr behind))] at expired
      rw [expired] at takes
      exact { takes with }

/-- Two timers are due at the instant the clock is read, and the address of the probe is between theirs. -/
theorem listExpiredCb_exact_tie : ∃ s, machine.Reachable s ∧ s.manager.timers = [3, 5, 7] ∧
    ∃ after, TimerManager.listExpiredCbLocked 10 4 { s.manager with previousTime := 3600000 } =
        .ok ([some 2, some 1], after) ∧
      (3 ∈ after.timers ∧ (after.heap 3).next = 14) ∧ 5 ∉ after.timers ∧ 7 ∈ after.timers := by
  have start : machine.Reachable ⟨new 0 fun _ => Timer.probe 0, fun _ => .idle⟩ := .init ⟨_, _, rfl⟩
  have first := start.step (@Step.addTimer _ 5 10 (some 1) false 0 rfl)
  have second := first.step (@Step.addTimer _ 3 4 (some 2) true 6 rfl)
  have third := second.step (@Step.addTimer _ 7 40 (some 3) false 6 rfl)
  obtain ⟨cbs, after, ran, near, _⟩ :=
    listExpiredCb_exact _ third (by decide) 10 3600000 (by decide) 4 rfl
  have takes := (near (by decide)).1
  obtain rfl : cbs = [some 2, some 1] := takes.cbs.trans rfl
  refine ⟨_, third, rfl, after, ran, ?_, ?_, ?_⟩
  · obtain ⟨stays, again⟩ := takes.recurring 3 (by decide) rfl
    exact ⟨stays, (congrArg Timer.next again).trans rfl⟩
  · exact (takes.oneShot 5 (by decide) rfl).1
  · exact (takes.others 7 (by decide)).2.mpr (by decide)

end TimerManager

end Sylar
