import Sylar.Model.Timer

/-! # The set of timers is ordered by its current keys

The comparator compares deadline and address lexicographically, so an element's key changes with its
deadline. Every function that changes a deadline does so while the timer is outside the set; the
invariant therefore passes through erasing, changing an absent timer and inserting one.
-/

namespace Sylar

namespace Timer

variable {heap : TimerPtr → Timer} {a b : TimerPtr}

/-- What the comparator compares. -/
def key (heap : TimerPtr → Timer) (timer : TimerPtr) : ℕ ×ₗ ℕ :=
  toLex ((heap timer).next.toNat, timer)

theorem key_lt_iff : key heap a < key heap b ↔
    (heap a).next < (heap b).next ∨ (heap a).next = (heap b).next ∧ a < b := by
  rw [key, key, Prod.Lex.toLex_lt_toLex, BitVec.lt_def, BitVec.toNat_inj]

theorem before_iff (heap : TimerPtr → Timer) (a b : TimerPtr) :
    before heap a b = true ↔ key heap a < key heap b := by
  rw [key_lt_iff, before, comparator]
  split_ifs with less greater
  · exact iff_of_true rfl (Or.inl less)
  · refine iff_of_false (fun never => never) ?_
    rintro (less' | ⟨same, _⟩)
    · exact less less'
    · exact absurd (same ▸ greater) (BitVec.lt_irrefl _)
  · have same : (heap a).next = (heap b).next := BitVec.le_antisymm
      (BitVec.not_lt.mp greater) (BitVec.not_lt.mp less)
    simp [same]

theorem key_injective (heap : TimerPtr → Timer) : Function.Injective (key heap) := by
  intro a b same
  exact congrArg (fun k => (ofLex k).2) same

/-- A key depends on the deadline alone. -/
theorem key_update (heap : TimerPtr → Timer) (self : TimerPtr) (timer : Timer)
    (other : a ≠ self ∨ timer.next = (heap self).next) :
    key (Function.update heap self timer) a = key heap a := by
  rcases eq_or_ne a self with rfl | different
  · rcases other with other | same
    · exact absurd rfl other
    · rw [key, key, Function.update_self, same]
  · rw [key, key, Function.update_of_ne different]

end Timer

namespace TimerManager

variable {m : TimerManager} {self : TimerPtr} {timer : Timer} {it : ℕ} {a : TimerPtr}

/-- The set is ordered by the current keys, and its elements are live. -/
structure Ordered (m : TimerManager) : Prop where
  sorted : OrderedSet.Sorted (Timer.key m.heap) m.timers
  live : ∀ timer ∈ m.timers, m.live timer = true

namespace Ordered

/-- The set is found to hold exactly its elements. -/
theorem find_isSome_iff (ordered : Ordered m) : (m.find self).isSome ↔ self ∈ m.timers :=
  OrderedSet.find_isSome_iff (Timer.before_iff m.heap) (Timer.key_injective m.heap) ordered.sorted

theorem getElem?_of_find (found : m.find self = some it) : m.timers[it]? = some self :=
  OrderedSet.getElem?_of_find (Timer.before_iff m.heap) (Timer.key_injective m.heap) found

theorem mem_of_find (found : m.find self = some it) : self ∈ m.timers :=
  List.mem_of_getElem? (getElem?_of_find found)

/-- Changing a timer outside the set, or anything but the deadline of one inside. -/
theorem set (ordered : Ordered m) (harmless : self ∉ m.timers ∨ timer.next = (m.heap self).next) :
    Ordered (m.set self timer) where
  sorted := by
    refine ordered.sorted.congr fun a member => Timer.key_update m.heap self timer ?_
    exact harmless.imp_left fun absent same => absent (same ▸ member)
  live := ordered.live

theorem mem_erase (ordered : Ordered m) (found : m.find self = some it) :
    a ∈ (m.erase it).timers ↔ a ∈ m.timers ∧ a ≠ self :=
  OrderedSet.mem_eraseIdx (Timer.before_iff m.heap) (Timer.key_injective m.heap) ordered.sorted found

theorem erase (ordered : Ordered m) (it : ℕ) : Ordered (m.erase it) where
  sorted := ordered.sorted.eraseIdx
  live := fun timer member => ordered.live timer (List.mem_of_mem_eraseIdx member)

theorem mem_insert (ordered : Ordered m) : a ∈ (m.insert self).2.timers ↔ a = self ∨ a ∈ m.timers :=
  OrderedSet.mem_insert (Timer.before_iff m.heap) (Timer.key_injective m.heap) ordered.sorted

theorem insert (ordered : Ordered m) (isLive : m.live self = true) : Ordered (m.insert self).2 where
  sorted := ordered.sorted.insert (Timer.before_iff m.heap) (Timer.key_injective m.heap)
  live := by
    intro a member
    rcases ordered.mem_insert.mp member with rfl | old
    · exact isLive
    · exact ordered.live a old

end Ordered

/-- What `addTimer(val, lock)` leaves, up to `m_tickled`. -/
theorem addTimerLocked_eq (m : TimerManager) (val : TimerPtr) : ∃ tickled,
    (m.addTimerLocked val).manager = { (m.insert val).2 with tickled } := by
  unfold addTimerLocked
  dsimp only
  split_ifs
  · exact ⟨_, rfl⟩
  · exact ⟨_, rfl⟩

namespace Ordered

theorem addTimerLocked (ordered : Ordered m) (isLive : m.live self = true) :
    Ordered (m.addTimerLocked self).manager := by
  obtain ⟨tickled, left⟩ := addTimerLocked_eq m self
  rw [left]
  exact { ordered.insert isLive with }

theorem addTimer (ordered : Ordered m) (fresh : m.live self = false) (ms : BitVec 64)
    (cb : Option Callback) (recurring : Bool) (now : BitVec 64) :
    Ordered (m.addTimer self ms cb recurring now).manager := by
  have absent : self ∉ m.timers := fun member => by simp [ordered.live self member] at fresh
  have allocated : Ordered { m with live := Function.update m.live self true } := {
    sorted := ordered.sorted
    live := by
      intro a member
      have other : a ≠ self := ne_of_mem_of_not_mem member absent
      exact (Function.update_of_ne other true m.live).trans (ordered.live a member) }
  exact (allocated.set (Or.inl absent)).addTimerLocked (Function.update_self _ _ _)

theorem cancel (ordered : Ordered m) : Ordered (m.cancel self).manager := by
  unfold TimerManager.cancel
  dsimp only
  have emptied : Ordered (m.set self { m.heap self with cb := none }) := ordered.set (Or.inr rfl)
  split_ifs
  · exact ordered
  · split
    · exact emptied.erase _
    · exact emptied

/-- Taking a timer out, changing its deadline and putting it back. -/
theorem relink (ordered : Ordered m) (found : m.find self = some it) (timer : Timer) :
    Ordered (((m.erase it).set self timer).addTimerLocked self).manager := by
  have absent : self ∉ (m.erase it).timers := fun member =>
    ((ordered.mem_erase found).mp member).2 rfl
  exact ((ordered.erase it).set (Or.inl absent)).addTimerLocked (ordered.live self (mem_of_find found))

theorem refresh (ordered : Ordered m) (now : BitVec 64) : Ordered (m.refresh self now).manager := by
  unfold TimerManager.refresh
  dsimp only
  split_ifs
  · exact ordered
  · split
    · exact ordered
    · next found => exact ordered.relink found _

theorem resetLocked (ordered : Ordered m) (ms : BitVec 64) (fromNow : Bool) (now : BitVec 64) :
    Ordered (m.resetLocked self ms fromNow now).manager := by
  unfold TimerManager.resetLocked
  dsimp only
  split
  · exact ordered
  · split
    · exact ordered
    · next found => exact ordered.relink found _

end Ordered

/-! ## Expiry -/

/-- The loop of `listExpiredCb` keeps every address live. -/
theorem expire_live (now : BitVec 64) (timer : TimerPtr) (m : TimerManager) :
    (m.expire now timer).live = m.live := by
  unfold expire
  dsimp only
  split_ifs <;> rfl

theorem Ordered.expire (ordered : Ordered m) (now : BitVec 64) (absent : self ∉ m.timers)
    (isLive : m.live self = true) :
    Ordered (m.expire now self) ∧ ∀ a ∈ (m.expire now self).timers, a = self ∨ a ∈ m.timers := by
  unfold TimerManager.expire
  dsimp only
  split_ifs
  · have changed : Ordered (m.set self { m.heap self with next := now + (m.heap self).ms }) :=
      ordered.set (Or.inl absent)
    exact ⟨changed.insert isLive, fun a => changed.mem_insert.mp⟩
  · exact ⟨ordered.set (Or.inr rfl), fun a member => Or.inr member⟩

/-- The loop runs over distinct timers that are not in the set. -/
theorem Ordered.expireAll (now : BitVec 64) (expired : List TimerPtr) (ordered : Ordered m)
    (distinct : expired.Nodup) (absent : ∀ a ∈ expired, a ∉ m.timers)
    (isLive : ∀ a ∈ expired, m.live a = true) : Ordered (expireAll now expired m).2 := by
  induction expired generalizing m with
  | nil => exact ordered
  | cons timer rest ih =>
    obtain ⟨first, distinct⟩ := List.nodup_cons.mp distinct
    obtain ⟨absentTimer, absent⟩ := List.forall_mem_cons.mp absent
    obtain ⟨isLiveTimer, isLive⟩ := List.forall_mem_cons.mp isLive
    obtain ⟨ordered', members⟩ := ordered.expire now absentTimer isLiveTimer
    apply ih ordered' distinct
    · intro a member inSet
      rcases members a inSet with rfl | old
      · exact first member
      · exact absent a member old
    · rw [expire_live]
      exact isLive

/-- `listExpiredCb` from the write lock on, case by case. -/
theorem listExpiredCbLocked_eq (m : TimerManager) (now : BitVec 64) (probe : TimerPtr) :
    m.listExpiredCbLocked now probe =
      match m.nothingExpired (m.detectClockRollover now).1 now with
      | .error cause => .error cause
      | .ok true => .ok ([], { m with previousTime := now })
      | .ok false =>
          let it := m.expiredEnd (m.detectClockRollover now).1 now probe
          .ok (expireAll now (m.timers.take it)
            { m with previousTime := now, timers := m.timers.drop it }) := by
  change Except.bind (m.nothingExpired (m.detectClockRollover now).1 now) _ = _
  cases m.nothingExpired (m.detectClockRollover now).1 now with
  | error cause => rfl
  | ok nothing => cases nothing <;> rfl

/-- Without a fault, either nothing has expired or the loop runs. -/
theorem listExpiredCbLocked_cases {now : BitVec 64} {probe : TimerPtr} {cbs : List (Option Callback)}
    {after : TimerManager} (ran : m.listExpiredCbLocked now probe = .ok (cbs, after)) :
    (cbs, after) = ([], { m with previousTime := now }) ∨
      ∃ it, m.expiredEnd (m.detectClockRollover now).1 now probe = it ∧ (cbs, after) =
        expireAll now (m.timers.take it) { m with previousTime := now, timers := m.timers.drop it } := by
  rw [listExpiredCbLocked_eq] at ran
  cases test : m.nothingExpired (m.detectClockRollover now).1 now with
  | error cause => rw [test] at ran; cases ran
  | ok nothing =>
    rw [test] at ran
    cases nothing with
    | true => exact Or.inl (Except.ok.inj ran).symm
    | false => exact Or.inr ⟨_, rfl, (Except.ok.inj ran).symm⟩

/-- The set splits into what is handed out and what stays. -/
theorem Ordered.cut (ordered : Ordered m) (now : BitVec 64) (it : ℕ) :
    Ordered { m with previousTime := now, timers := m.timers.drop it } ∧ (m.timers.take it).Nodup ∧
      (∀ a ∈ m.timers.take it, a ∉ m.timers.drop it) ∧ ∀ a ∈ m.timers.take it, m.live a = true := by
  have parts : (m.timers.take it ++ m.timers.drop it).Nodup := by
    rw [List.take_append_drop]
    exact ordered.sorted.nodup
  obtain ⟨distinct, _, apart⟩ := List.nodup_append.mp parts
  have kept : Ordered { m with previousTime := now, timers := m.timers.drop it } := {
    sorted := ordered.sorted.sublist (List.drop_sublist _ _)
    live := fun a member => ordered.live a (List.mem_of_mem_drop member) }
  refine ⟨kept, distinct, ?_, ?_⟩
  · intro a taken left
    exact apart a taken a left rfl
  · intro a taken
    exact ordered.live a (List.mem_of_mem_take taken)

theorem Ordered.listExpiredCbLocked (ordered : Ordered m) {now : BitVec 64} {probe : TimerPtr}
    {cbs : List (Option Callback)} {after : TimerManager}
    (ran : m.listExpiredCbLocked now probe = .ok (cbs, after)) : Ordered after := by
  rcases listExpiredCbLocked_cases ran with early | ⟨it, _, loop⟩
  · cases early
    exact { ordered with }
  · obtain ⟨kept, distinct, apart, alive⟩ := ordered.cut now it
    have done := kept.expireAll now (m.timers.take it) distinct apart alive
    rwa [← loop] at done

/-- `getNextTimer` resets `m_tickled` and nothing else. -/
theorem getNextTimer_manager (m : TimerManager) (now : BitVec 64) :
    (m.getNextTimer now).2 = { m with tickled := false } := by
  unfold getNextTimer
  dsimp only
  split
  · rfl
  · split_ifs <;> rfl

/-! ## Runs -/

theorem Ordered.step {s t : State} {event : Event} (ordered : Ordered s.manager)
    (step : Step s event t) : Ordered t.manager := by
  cases step with
  | addTimer fresh => exact ordered.addTimer fresh _ _ _ _
  | cancel _ => exact ordered.cancel
  | refresh _ => exact ordered.refresh _
  | resetSkip _ _ => exact ordered
  | resetEnter _ _ _ => exact ordered
  | resetLocked _ => exact ordered.resetLocked _ _ _
  | getNextTimer =>
    rw [getNextTimer_manager]
    exact { ordered with }
  | listExpiredCbEmpty _ => exact ordered
  | listExpiredCbEnter _ _ => exact ordered
  | listExpiredCbLocked _ _ ran => exact ordered.listExpiredCbLocked ran
  | release isLive absent _ =>
    refine { ordered with live := ?_ }
    intro a member
    have other : a ≠ _ := ne_of_mem_of_not_mem member absent
    exact (Function.update_of_ne other false s.manager.live).trans (ordered.live a member)

theorem reachable_ordered {s : State} (reached : machine.Reachable s) : Ordered s.manager := by
  apply reached.invariant (P := fun s => Ordered s.manager)
  · rintro _ ⟨now, heap, rfl⟩
    exact { sorted := List.Pairwise.nil, live := fun a member => absurd member List.not_mem_nil }
  · intro s event t ordered step
    exact ordered.step step

/-- In every reachable state the set is strictly ordered by the current deadlines and addresses of its
elements, so its front is due first and `find` finds exactly the elements. -/
theorem timers_strictly_ordered (s : State) (reached : machine.Reachable s) :
    s.manager.timers.Pairwise (fun a b => (s.manager.heap a).next < (s.manager.heap b).next ∨
      (s.manager.heap a).next = (s.manager.heap b).next ∧ a < b) ∧
    s.manager.timers.Nodup ∧
    (∀ first, s.manager.timers.head? = some first → ∀ timer ∈ s.manager.timers,
      (s.manager.heap first).next ≤ (s.manager.heap timer).next) ∧
    ∀ timer, (s.manager.find timer).isSome ↔ timer ∈ s.manager.timers := by
  have ordered := reachable_ordered reached
  refine ⟨ordered.sorted.imp Timer.key_lt_iff.mp, ordered.sorted.nodup, ?_,
    fun timer => ordered.find_isSome_iff⟩
  intro first head timer member
  rcases (ordered.sorted.head_le head member).lt_or_eq with less | same
  · rcases Timer.key_lt_iff.mp less with earlier | ⟨tie, _⟩
    · exact BitVec.le_of_lt earlier
    · exact BitVec.le_of_eq tie
  · rw [Timer.key_injective _ same]
    exact BitVec.le_refl _

/-- Two timers due at once are in the order of their addresses, not of their insertion. -/
theorem timers_strictly_ordered_tie : ∃ s, machine.Reachable s ∧ s.manager.timers = [3, 5] ∧
    ∀ timer, (s.manager.find timer).isSome ↔ timer ∈ s.manager.timers := by
  have start : machine.Reachable ⟨new 0 fun _ => Timer.probe 0, fun _ => .idle⟩ := .init ⟨_, _, rfl⟩
  have first := start.step (@Step.addTimer _ 5 10 (some 1) false 0 rfl)
  have second := first.step (@Step.addTimer _ 3 4 (some 2) true 6 rfl)
  exact ⟨_, second, rfl, (timers_strictly_ordered _ second).2.2.2⟩

end TimerManager

end Sylar
