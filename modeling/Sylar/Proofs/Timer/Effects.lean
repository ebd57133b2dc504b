import Sylar.Proofs.Timer.Ordering

/-! # What each critical section does to the set and to the callbacks

Every operation is described once, by which timers are in the set afterwards and by what happened to
callbacks; deadlines are not mentioned. `fate` puts the descriptions together from the side of one
timer.
-/

namespace Sylar.TimerManager

variable {m : TimerManager} {self a : TimerPtr} {it : ℕ} {now : BitVec 64}

/-! ## The operations under one lock -/

@[simp] theorem set_timers (self : TimerPtr) (timer : Timer) (m : TimerManager) :
    (m.set self timer).timers = m.timers := rfl

theorem set_heap (self : TimerPtr) (timer : Timer) (m : TimerManager) :
    (m.set self timer).heap = Function.update m.heap self timer := rfl

@[simp] theorem addTimerLocked_heap (m : TimerManager) (val : TimerPtr) :
    (m.addTimerLocked val).manager.heap = m.heap := by
  obtain ⟨tickled, left⟩ := addTimerLocked_eq m val
  rw [left]
  rfl

@[simp] theorem addTimerLocked_live (m : TimerManager) (val : TimerPtr) :
    (m.addTimerLocked val).manager.live = m.live := by
  obtain ⟨tickled, left⟩ := addTimerLocked_eq m val
  rw [left]
  rfl

theorem Ordered.find_eq_none (ordered : Ordered m) (missing : m.find self = none) : self ∉ m.timers := by
  intro member
  have found := ordered.find_isSome_iff.mpr member
  rw [missing] at found
  cases found

theorem Ordered.mem_addTimerLocked (ordered : Ordered m) :
    a ∈ (m.addTimerLocked self).manager.timers ↔ a = self ∨ a ∈ m.timers := by
  obtain ⟨tickled, left⟩ := addTimerLocked_eq m self
  rw [left]
  exact ordered.mem_insert

theorem Ordered.mem_addTimer (ordered : Ordered m) (fresh : m.live self = false) (ms : BitVec 64)
    (cb : Option Callback) (recurring : Bool) (now : BitVec 64) :
    a ∈ (m.addTimer self ms cb recurring now).manager.timers ↔ a = self ∨ a ∈ m.timers := by
  have absent : self ∉ m.timers := fun member => by simp [ordered.live self member] at fresh
  obtain ⟨tickled, left⟩ := addTimerLocked_eq
    ({ m with live := Function.update m.live self true }.set self (Timer.new ms cb recurring now)) self
  have changed : Ordered (m.set self (Timer.new ms cb recurring now)) := ordered.set (Or.inl absent)
  rw [TimerManager.addTimer, left]
  exact OrderedSet.mem_insert (Timer.before_iff _) (Timer.key_injective _) changed.sorted

theorem addTimer_heap (m : TimerManager) (self : TimerPtr) (ms : BitVec 64) (cb : Option Callback)
    (recurring : Bool) (now : BitVec 64) : (m.addTimer self ms cb recurring now).manager.heap =
      Function.update m.heap self (Timer.new ms cb recurring now) := by
  rw [TimerManager.addTimer, addTimerLocked_heap]
  rfl

theorem addTimer_live (m : TimerManager) (self : TimerPtr) (ms : BitVec 64) (cb : Option Callback)
    (recurring : Bool) (now : BitVec 64) :
    (m.addTimer self ms cb recurring now).manager.live = Function.update m.live self true := by
  rw [TimerManager.addTimer, addTimerLocked_live]
  rfl

/-- `Timer::cancel`, by whether there is a callback to cancel. -/
theorem cancel_cases (m : TimerManager) (self : TimerPtr) :
    (m.heap self).cb = none ∧ m.cancel self = ⟨false, false, m⟩ ∨
    (m.heap self).cb.isSome ∧ (m.cancel self).result = true ∧
      (m.cancel self).manager.heap = Function.update m.heap self { m.heap self with cb := none } ∧
      (m.cancel self).manager.live = m.live ∧ (m.cancel self).manager.tickled = m.tickled := by
  unfold cancel
  dsimp only
  split_ifs with dead
  · exact Or.inl ⟨Option.isNone_iff_eq_none.mp dead, rfl⟩
  · refine Or.inr ⟨by simpa [Option.isSome_iff_ne_none] using dead, ?_⟩
    split <;> exact ⟨rfl, rfl, rfl, rfl⟩

/-- A successful `cancel` takes out its timer. -/
theorem Ordered.mem_cancel (ordered : Ordered m) (armed : (m.heap self).cb.isSome) :
    a ∈ (m.cancel self).manager.timers ↔ a ∈ m.timers ∧ a ≠ self := by
  have emptied : Ordered (m.set self { m.heap self with cb := none }) := ordered.set (Or.inr rfl)
  unfold TimerManager.cancel
  dsimp only
  rw [if_neg (by simpa using Option.ne_none_iff_isSome.mpr armed)]
  split
  · next found => exact emptied.mem_erase found
  · next missing =>
    have absent : self ∉ m.timers := emptied.find_eq_none missing
    exact ⟨fun member => ⟨member, ne_of_mem_of_not_mem member absent⟩, And.left⟩

/-- Taking a timer out and putting it back leaves the same timers in the set. -/
theorem Ordered.mem_relink (ordered : Ordered m) (found : m.find self = some it) (timer : Timer) :
    a ∈ (((m.erase it).set self timer).addTimerLocked self).manager.timers ↔ a ∈ m.timers := by
  have absent : self ∉ (m.erase it).timers := fun member =>
    ((ordered.mem_erase found).mp member).2 rfl
  rw [((ordered.erase it).set (Or.inl absent)).mem_addTimerLocked, set_timers, ordered.mem_erase found]
  rcases eq_or_ne a self with rfl | other
  · simp [Ordered.mem_of_find found]
  · simp [other]

/-- What `refresh` and the locked part of `reset` answer and leave: they fail on a timer that is
not there, and otherwise keep its callback, its recurrence and its place among the live. -/
structure Relinks (timer : TimerPtr) (m : TimerManager) (locked : Locked) : Prop where
  result : locked.result = true ↔ (m.heap timer).cb.isSome ∧ timer ∈ m.timers
  unchanged : locked.result = false → locked.manager = m
  mem : ∀ a, a ∈ locked.manager.timers ↔ a ∈ m.timers
  cb : ∀ a, (locked.manager.heap a).cb = (m.heap a).cb
  recurring : ∀ a, (locked.manager.heap a).recurring = (m.heap a).recurring
  live : locked.manager.live = m.live

namespace Relinks

theorem failed (dead : ¬ ((m.heap self).cb.isSome ∧ self ∈ m.timers)) :
    Relinks self m ⟨false, false, m⟩ where
  result := iff_of_false Bool.false_ne_true dead
  unchanged := fun _ => rfl
  mem := fun _ => Iff.rfl
  cb := fun _ => rfl
  recurring := fun _ => rfl
  live := rfl

theorem relinked (ordered : Ordered m) (armed : (m.heap self).cb.isSome) (found : m.find self = some it)
    {timer : Timer} (cb : timer.cb = (m.heap self).cb) (recurring : timer.recurring = (m.heap self).recurring) :
    Relinks self m (((m.erase it).set self timer).addTimerLocked self) where
  result := iff_of_true rfl ⟨armed, Ordered.mem_of_find found⟩
  unchanged := fun failed => Bool.noConfusion failed
  mem := fun _ => ordered.mem_relink found timer
  cb := by
    intro a
    rw [addTimerLocked_heap, set_heap]
    rcases eq_or_ne a self with rfl | other
    · rw [Function.update_self, cb]
    · rw [Function.update_of_ne other]; rfl
  recurring := by
    intro a
    rw [addTimerLocked_heap, set_heap]
    rcases eq_or_ne a self with rfl | other
    · rw [Function.update_self, recurring]
    · rw [Function.update_of_ne other]; rfl
  live := by rw [addTimerLocked_live]; rfl

end Relinks

theorem Ordered.refresh_relinks (ordered : Ordered m) (now : BitVec 64) :
    Relinks self m (m.refresh self now) := by
  unfold TimerManager.refresh
  dsimp only
  split_ifs with dead
  · exact .failed fun both => by simp [Option.isNone_iff_eq_none.mp dead] at both
  · split
    · next missing => exact .failed fun both => ordered.find_eq_none missing both.2
    · next found =>
      exact .relinked ordered (by simpa [Option.isSome_iff_ne_none] using dead) found rfl rfl

theorem Ordered.resetLocked_relinks (ordered : Ordered m) (ms : BitVec 64) (fromNow : Bool)
    (now : BitVec 64) : Relinks self m (m.resetLocked self ms fromNow now) := by
  unfold TimerManager.resetLocked
  dsimp only
  split
  · next dead => exact .failed fun both => by simp [Option.isNone_iff_eq_none.mp dead] at both
  · next armed =>
    split
    · next missing => exact .failed fun both => ordered.find_eq_none missing both.2
    · next found =>
      exact .relinked ordered (by simpa [Option.isSome_iff_ne_none] using armed) found rfl rfl

/-! ## Expiry -/

/-- One turn of the loop over an expired timer. -/
theorem Ordered.mem_expire (ordered : Ordered m) (absent : self ∉ m.timers) :
    a ∈ (m.expire now self).timers ↔ a ∈ m.timers ∨ a = self ∧ (m.heap self).recurring = true := by
  unfold TimerManager.expire
  dsimp only
  split_ifs with recurs
  · have changed : Ordered (m.set self { m.heap self with next := now + (m.heap self).ms }) :=
      ordered.set (Or.inl absent)
    rw [changed.mem_insert, set_timers, and_iff_left recurs, or_comm]
  · simp [recurs]

theorem expire_heap_self (m : TimerManager) : ((m.expire now self).heap self).cb =
    if (m.heap self).recurring then (m.heap self).cb else none := by
  unfold expire
  dsimp only
  split_ifs <;> simp [set, insert]

theorem expire_heap_of_ne (m : TimerManager) (other : a ≠ self) :
    (m.expire now self).heap a = m.heap a := by
  unfold expire
  dsimp only
  split_ifs <;> simp [set, insert, other]

theorem expire_recurring (now : BitVec 64) (self : TimerPtr) (m : TimerManager) :
    ((m.expire now self).heap a).recurring = (m.heap a).recurring := by
  rcases eq_or_ne a self with rfl | other
  · unfold expire
    dsimp only
    split_ifs <;> simp [set, insert]
  · rw [expire_heap_of_ne m other]

/-- What the loop over `expired` has done when it ends. -/
structure Expires (expired : List TimerPtr) (m : TimerManager)
    (done : List (Option Callback) × TimerManager) : Prop where
  cbs : done.1 = expired.map fun a => (m.heap a).cb
  mem : ∀ a, a ∈ done.2.timers ↔ a ∈ m.timers ∨ a ∈ expired ∧ (m.heap a).recurring = true
  cb : ∀ a, (done.2.heap a).cb =
    if a ∈ expired ∧ (m.heap a).recurring = false then none else (m.heap a).cb
  recurring : ∀ a, (done.2.heap a).recurring = (m.heap a).recurring
  live : done.2.live = m.live

theorem Ordered.expires (now : BitVec 64) (expired : List TimerPtr) (ordered : Ordered m)
    (distinct : expired.Nodup) (absent : ∀ a ∈ expired, a ∉ m.timers)
    (isLive : ∀ a ∈ expired, m.live a = true) :
    Expires expired m (TimerManager.expireAll now expired m) := by
  induction expired generalizing m with
  | nil => exact ⟨rfl, by simp [TimerManager.expireAll], by simp [TimerManager.expireAll], fun _ => rfl, rfl⟩
  | cons timer rest ih =>
    obtain ⟨first, distinct⟩ := List.nodup_cons.mp distinct
    obtain ⟨absentTimer, absent⟩ := List.forall_mem_cons.mp absent
    obtain ⟨isLiveTimer, isLive⟩ := List.forall_mem_cons.mp isLive
    have next : Ordered (m.expire now timer) := (ordered.expire now absentTimer isLiveTimer).1
    have others : ∀ a ∈ rest, a ≠ timer := fun a member => ne_of_mem_of_not_mem member first
    have loop := ih next distinct
      (fun a member inSet => by
        rcases (ordered.mem_expire absentTimer).mp inSet with old | ⟨same, _⟩
        · exact absent a member old
        · exact others a member same)
      (by rw [expire_live]; exact isLive)
    refine ⟨?_, ?_, ?_, ?_, ?_⟩
    · change (m.heap timer).cb :: (TimerManager.expireAll now rest (m.expire now timer)).1 = _
      rw [loop.cbs, List.map_cons]
      congr 1
      refine List.map_congr_left fun a member => ?_
      rw [expire_heap_of_ne m (others a member)]
    · intro a
      refine (loop.mem a).trans ?_
      rw [ordered.mem_expire absentTimer, expire_recurring, List.mem_cons]
      rcases eq_or_ne a timer with rfl | other
      · simp [first]
      · simp [other]
    · intro a
      refine (loop.cb a).trans ?_
      rw [expire_recurring]
      rcases eq_or_ne a timer with rfl | other
      · rw [if_neg fun both => first both.1, expire_heap_self]
        cases (m.heap a).recurring <;> simp
      · rw [expire_heap_of_ne m other]
        simp [other]
    · exact fun a => (loop.recurring a).trans (expire_recurring now timer m)
    · exact loop.live.trans (expire_live now timer m)

/-- The local `expired` of `listExpiredCb`. -/
def expired (now : BitVec 64) (probe : TimerPtr) (m : TimerManager) : List TimerPtr :=
  let (rollover, m) := m.detectClockRollover now
  match m.nothingExpired rollover now with
  | .ok false => m.timers.take (m.expiredEnd rollover now probe)
  | _ => []

theorem expired_eq (m : TimerManager) (now : BitVec 64) (probe : TimerPtr) :
    m.expired now probe = match m.nothingExpired (m.detectClockRollover now).1 now with
      | .ok false => m.timers.take (m.expiredEnd (m.detectClockRollover now).1 now probe)
      | _ => [] := rfl

theorem expired_subset (now : BitVec 64) (probe : TimerPtr) (m : TimerManager) :
    ∀ a ∈ m.expired now probe, a ∈ m.timers := by
  intro a member
  unfold expired at member
  dsimp only at member
  split at member
  · exact List.mem_of_mem_take member
  · cases member

theorem Ordered.expired_nodup (ordered : Ordered m) (now : BitVec 64) (probe : TimerPtr) :
    (m.expired now probe).Nodup := by
  unfold TimerManager.expired
  dsimp only
  split
  · exact ordered.sorted.nodup.sublist (List.take_sublist _ _)
  · exact List.nodup_nil

/-- `listExpiredCb` from the write lock on: it hands out the callbacks of the expired timers, and of
these only the recurring ones stay. -/
structure HandsOut (expired : List TimerPtr) (m : TimerManager) (cbs : List (Option Callback))
    (after : TimerManager) : Prop where
  cbs : cbs = expired.map fun a => (m.heap a).cb
  mem : ∀ a, a ∈ after.timers ↔ a ∈ m.timers ∧ (a ∈ expired → (m.heap a).recurring = true)
  cb : ∀ a, (after.heap a).cb =
    if a ∈ expired ∧ (m.heap a).recurring = false then none else (m.heap a).cb
  recurring : ∀ a, (after.heap a).recurring = (m.heap a).recurring
  live : after.live = m.live

/-- What is handed out stands in front of the set, and the loop runs through it. -/
theorem listExpiredCbLocked_ran {probe : TimerPtr} {cbs : List (Option Callback)} {after : TimerManager}
    (ran : m.listExpiredCbLocked now probe = .ok (cbs, after)) :
    ∃ it, m.expired now probe = m.timers.take it ∧ TimerManager.expireAll now (m.timers.take it)
      { m with previousTime := now, timers := m.timers.drop it } = (cbs, after) := by
  have shape := expired_eq m now probe
  rw [listExpiredCbLocked_eq] at ran
  cases test : m.nothingExpired (m.detectClockRollover now).1 now with
  | error cause => rw [test] at ran; cases ran
  | ok nothing =>
    rw [test] at ran shape
    cases nothing with
    | true =>
      cases ran
      exact ⟨0, shape, rfl⟩
    | false => exact ⟨_, shape, Except.ok.inj ran⟩

theorem Ordered.handsOut (ordered : Ordered m) {probe : TimerPtr} {cbs : List (Option Callback)}
    {after : TimerManager} (ran : m.listExpiredCbLocked now probe = .ok (cbs, after)) :
    HandsOut (m.expired now probe) m cbs after := by
  obtain ⟨it, expired, ran⟩ := listExpiredCbLocked_ran ran
  rw [expired]
  obtain ⟨kept, distinct, apart, alive⟩ := ordered.cut now it
  have loop := kept.expires now (m.timers.take it) distinct apart alive
  rw [ran] at loop
  refine ⟨loop.cbs, fun a => ?_, loop.cb, loop.recurring, loop.live⟩
  have split : a ∈ m.timers ↔ a ∈ m.timers.take it ∨ a ∈ m.timers.drop it := by
    rw [← List.mem_append, List.take_append_drop]
  have apart : a ∈ m.timers.drop it → a ∉ m.timers.take it := fun left taken => apart a taken left
  refine (loop.mem a).trans ?_
  change a ∈ m.timers.drop it ∨ a ∈ m.timers.take it ∧ (m.heap a).recurring = true ↔ _
  rw [split]
  rcases Classical.em (a ∈ m.timers.drop it) with left | taken
  · simp [left, apart left]
  · simpa [taken] using Or.inl

end Sylar.TimerManager
