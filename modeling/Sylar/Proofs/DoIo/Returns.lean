import Sylar.Proofs.DoIo.Timeout
import Sylar.ToMathlib.ListConcat

/-! # What a hooked call returns and what it leaves behind

`do_io` turns a call that would block into one that waits. It returns what `fun` has answered last, unless the event
could not be registered or one of its timers has expired, and by then its fiber is neither registered nor in a queue
and none of its timers is in the set. It does not spin: `fun` is asked again only after a wake-up.
-/

namespace Sylar.DoIo

variable {timeout : BitVec 64} {s t : DoIo} {action : Action} {actions : List Action} {i j : ℕ}

/-- The timer that is still to be cancelled. -/
def Location.timer : Location → Option ℕ
  | .adding timer => timer
  | .failed timer => timer
  | .added timer => timer
  | .parked timer => timer
  | .resumed timer => timer
  | _ => none

/-- Whether the last wake-up has been used up. -/
def Location.spent : Location → ℕ
  | .calling => 0
  | .resumed _ => 0
  | .testing => 0
  | _ => 1

/-- How `fun` has returned, if the step is its return. -/
def Action.outcome? : Action → Option Outcome
  | .call outcome => some outcome
  | _ => none

/-- How `fun` has returned last. -/
def answer (actions : List Action) : Option Outcome := (actions.filterMap Action.outcome?).getLast?

theorem answer_call (actions : List Action) (outcome : Outcome) :
    answer (actions ++ [.call outcome]) = some outcome := by
  rw [answer, List.filterMap_append]
  exact List.getLast?_concat

/-- What the call returns follows from what has happened in it. -/
inductive Returns (actions : List Action) : ℤ → Option ℕ → Prop
  | answered {n : ℤ} : answer actions = some (.done n) → Returns actions n none
  | refused : .addEvent false ∈ actions → Returns actions (-1) none
  | timedOut {i : ℕ} : .expire i ∈ actions → Returns actions (-1) (some ETIMEDOUT)

/-- Everything a call has about is accounted for by where its fiber is and by what has happened. -/
structure Accounted (actions : List Action) (s : DoIo) : Prop where
  woken : s.scheduled + s.registered.toNat = s.location.waits.toNat
  armed : ∀ i : ℕ, s.timers[i]? = some .pending → s.location.timer = some i
  expired : ∀ i : ℕ, s.timers[i]? = some .handedOut ∨ s.Running i → .expire i ∈ actions
  cancelled : s.cancelled ≠ 0 → s.cancelled = ETIMEDOUT ∧ ∃ i, .expire i ∈ actions
  refused : ∀ timer, s.location = .failed timer → .addEvent false ∈ actions
  returned : ∀ n errno, s.location = .returned n errno → Returns actions n errno
  paced : actions.count (.call .again) ≤ actions.count .resume + s.location.spent

/-- A call that starts, or goes on with an answer that was to wait. -/
theorem Accounted.fresh {location : Location} (fresh : location = .calling ∨ location = .arming) :
    Accounted [] { location } where
  woken := by rcases fresh with rfl | rfl <;> rfl
  armed := by rintro _ ⟨⟩
  expired := by rintro i (found | found | found) <;> cases found
  cancelled := fun set => absurd rfl set
  refused := by rcases fresh with rfl | rfl <;> nofun
  returned := by rcases fresh with rfl | rfl <;> nofun
  paced := Nat.zero_le _

/-- A step by which nothing has returned leaves the answer. -/
theorem Returns.snoc {n : ℤ} {errno : Option ℕ} (returns : Returns actions n errno) (other : action.outcome? = none) :
    Returns (actions ++ [action]) n errno := by
  cases returns with
  | answered answered =>
    apply Returns.answered
    simpa [answer, other] using answered
  | refused member => exact .refused (List.mem_append_left _ member)
  | timedOut member => exact .timedOut (List.mem_append_left _ member)

namespace Accounted

/-- The pace of the call, with the step it makes. -/
theorem pace (accounted : Accounted actions s) {before after : Location} (located : s.location = before)
    (kept : (if action = .call .again then 1 else 0) + before.spent ≤ (if action = .resume then 1 else 0) + after.spent) :
    (actions ++ [action]).count (.call .again) ≤ (actions ++ [action]).count .resume + after.spent := by
  have paced := accounted.paced
  rw [located] at paced
  simp only [List.count_append, List.count_singleton, beq_iff_eq]
  omega

/-- The fiber goes on and is woken as often as where it is asks for. -/
theorem move (accounted : Accounted actions s) {before : Location} (located : s.location = before)
    (woken : t.scheduled + t.registered.toNat = t.location.waits.toNat) (timers : t.timers = s.timers)
    (cancelled : t.cancelled = s.cancelled) (timer : t.location.timer = before.timer)
    (refused : ∀ timer, t.location = .failed timer → .addEvent false ∈ actions ++ [action])
    (returned : ∀ n errno, t.location = .returned n errno → Returns (actions ++ [action]) n errno)
    (paced : (if action = .call .again then 1 else 0) + before.spent ≤
      (if action = .resume then 1 else 0) + t.location.spent) : Accounted (actions ++ [action]) t where
  woken := woken
  armed := by
    intro i pending
    rw [timers] at pending
    rw [timer, ← located]
    exact accounted.armed i pending
  expired := by
    intro i ran
    unfold Running at ran
    rw [timers] at ran
    exact List.mem_append_left _ (accounted.expired i ran)
  cancelled := by
    intro set
    rw [cancelled] at set ⊢
    obtain ⟨value, i, member⟩ := accounted.cancelled set
    exact ⟨value, i, List.mem_append_left _ member⟩
  refused := refused
  returned := returned
  paced := accounted.pace located paced

/-- It goes from where it does not wait to where it does not wait. -/
theorem goto (accounted : Accounted actions s) {before after : Location} (located : s.location = before)
    (here : before.waits = false) (there : after.waits = false) (timer : after.timer = before.timer)
    (refused : ∀ timer, after = .failed timer → .addEvent false ∈ actions ++ [action])
    (returned : ∀ n errno, after = .returned n errno → Returns (actions ++ [action]) n errno)
    (paced : (if action = .call .again then 1 else 0) + before.spent ≤
      (if action = .resume then 1 else 0) + after.spent) : Accounted (actions ++ [action]) (s.goto after) := by
  refine accounted.move located ?_ rfl rfl timer refused returned paced
  have woken := accounted.woken
  rw [located, here] at woken
  exact woken.trans (congrArg Bool.toNat there.symm)

/-- Nothing that happens to the event or a timer moves the fiber. -/
theorem beside (accounted : Accounted actions s) (located : t.location = s.location)
    (own : action.outcome? = none ∧ action ≠ .resume)
    (woken : t.scheduled + t.registered.toNat = s.scheduled + s.registered.toNat)
    (armed : ∀ i : ℕ, t.timers[i]? = some .pending → s.timers[i]? = some .pending)
    (expired : ∀ i : ℕ, t.timers[i]? = some .handedOut ∨ t.Running i → .expire i ∈ actions ++ [action])
    (cancelled : t.cancelled ≠ 0 → t.cancelled = ETIMEDOUT ∧ ∃ i, .expire i ∈ actions ++ [action]) :
    Accounted (actions ++ [action]) t where
  woken := by rw [woken, accounted.woken, located]
  armed := by
    intro i pending
    rw [located]
    exact accounted.armed i (armed i pending)
  expired := expired
  cancelled := cancelled
  refused := by
    intro timer failed
    exact List.mem_append_left _ (accounted.refused timer (located.symm.trans failed))
  returned := by
    intro n errno returned
    exact (accounted.returned n errno (located.symm.trans returned)).snoc own.1
  paced := by
    have again : action ≠ .call .again := by
      rintro rfl
      cases own.1
    rw [located, List.count_append, List.count_append, List.count_singleton, List.count_singleton,
      if_neg (by simpa using again), if_neg (by simpa using own.2)]
    exact accounted.paced

/-- The account as it was, after a step of others. -/
theorem later (accounted : Accounted actions s) (set : s.cancelled ≠ 0) :
    s.cancelled = ETIMEDOUT ∧ ∃ i, .expire i ∈ actions ++ [action] := by
  obtain ⟨value, i, member⟩ := accounted.cancelled set
  exact ⟨value, i, List.mem_append_left _ member⟩

/-- A timer goes on, and its callback has set `cancelled` or woken the fiber. -/
theorem setTimer (accounted : Accounted actions s) {state old : Callback.State} (located : t.location = s.location)
    (timers : t.timers = s.timers) (woken : t.scheduled + t.registered.toNat = s.scheduled + s.registered.toNat)
    (cancelled : t.cancelled ≠ 0 → t.cancelled = ETIMEDOUT ∧ ∃ i, .expire i ∈ actions ++ [action])
    (known : s.timers[i]? = some old) (own : action.outcome? = none ∧ action ≠ .resume) (later : state ≠ .pending)
    (expired : .expire i ∈ actions ++ [action]) : Accounted (actions ++ [action]) (t.setTimer i state) := by
  rw [← timers] at known
  refine accounted.beside (t := t.setTimer i state) located own woken ?_ ?_ cancelled
  · intro j pending
    rw [← timers]
    rcases eq_or_ne j i with rfl | different
    · rw [getElem?_setTimer_self known] at pending
      exact absurd (Option.some.inj pending) later
    · rwa [getElem?_setTimer_of_ne different] at pending
  · intro j ran
    rcases eq_or_ne j i with rfl | different
    · exact expired
    · unfold Running at ran
      rw [getElem?_setTimer_of_ne different, timers] at ran
      exact List.mem_append_left _ (accounted.expired j ran)

/-- `timer->cancel()` consumes a timer of the set and leaves the others. -/
theorem of_cancelTimer {timer : Option ℕ} {state : Callback.State}
    (found : (s.cancelTimer timer).timers[i]? = some state) (other : state ≠ .consumed) :
    s.timers[i]? = some state ∧ (state = .pending → timer ≠ some i) := by
  cases timer with
  | none => exact ⟨found, by rintro _ ⟨⟩⟩
  | some k =>
    unfold DoIo.cancelTimer at found
    dsimp only at found
    split_ifs at found with pending
    · rcases eq_or_ne i k with rfl | different
      · rw [getElem?_setTimer_self pending] at found
        exact absurd (Option.some.inj found).symm other
      · rw [getElem?_setTimer_of_ne different] at found
        exact ⟨found, fun _ same => different (Option.some.inj same).symm⟩
    · refine ⟨found, ?_⟩
      rintro rfl same
      obtain rfl := Option.some.inj same
      exact pending found

/-- The fiber cancels the timer it has and goes on without it. -/
theorem disarm (accounted : Accounted actions s) {before after : Location} (located : s.location = before)
    (here : before.waits = false) (there : after.waits = false)
    (refused : ∀ timer, after = .failed timer → .addEvent false ∈ actions ++ [action])
    (returned : ∀ n errno, after = .returned n errno → Returns (actions ++ [action]) n errno)
    (paced : (if action = .call .again then 1 else 0) + before.spent ≤
      (if action = .resume then 1 else 0) + after.spent) :
    Accounted (actions ++ [action]) ((s.cancelTimer before.timer).goto after) where
  woken := by
    have woken := accounted.woken
    rw [located, here] at woken
    have same : (s.cancelTimer before.timer).scheduled = s.scheduled ∧
        (s.cancelTimer before.timer).registered = s.registered := by
      unfold DoIo.cancelTimer
      split
      · split_ifs <;> exact ⟨rfl, rfl⟩
      · exact ⟨rfl, rfl⟩
    change (s.cancelTimer before.timer).scheduled + (s.cancelTimer before.timer).registered.toNat = after.waits.toNat
    rw [same.1, same.2, woken, there]
  armed := by
    intro i pending
    obtain ⟨found, apart⟩ := of_cancelTimer pending (by rintro ⟨⟩)
    exact absurd ((congrArg Location.timer located).symm.trans (accounted.armed i found)) (apart rfl)
  expired := by
    rintro i (handedOut | setting | cancelling)
    · exact List.mem_append_left _ (accounted.expired i (.inl (of_cancelTimer handedOut (by rintro ⟨⟩)).1))
    · exact List.mem_append_left _ (accounted.expired i (.inr (.inl (of_cancelTimer setting (by rintro ⟨⟩)).1)))
    · exact List.mem_append_left _ (accounted.expired i (.inr (.inr (of_cancelTimer cancelling (by rintro ⟨⟩)).1)))
  cancelled := by
    intro set
    have same : (s.cancelTimer before.timer).cancelled = s.cancelled := by
      unfold DoIo.cancelTimer
      split
      · split_ifs <;> rfl
      · rfl
    change (s.cancelTimer before.timer).cancelled ≠ 0 at set
    rw [same] at set
    obtain ⟨value, i, member⟩ := accounted.cancelled set
    exact ⟨same.trans value, i, List.mem_append_left _ member⟩
  refused := refused
  returned := returned
  paced := accounted.pace located paced

/-- Another timer is armed. -/
theorem arm (accounted : Accounted actions s) (located : s.location = .arming) : Accounted (actions ++ [.arm])
    (DoIo.goto (.adding (some s.timers.length)) { s with timers := s.timers ++ [.pending] }) := by
  have kept (i : ℕ) (state : Callback.State) (other : state ≠ .pending)
      (here : (s.timers ++ [.pending])[i]? = some state) : s.timers[i]? = some state :=
    (List.getElem?_concat_eq_some_iff.mp here).resolve_right fun last => other last.2
  refine ⟨?_, ?_, ?_, ?_, by rintro _ ⟨⟩, by rintro _ _ ⟨⟩,
    accounted.pace located (by simp [Location.spent, DoIo.goto])⟩
  · have woken := accounted.woken
    rw [located] at woken
    exact woken
  · intro i pending
    rcases List.getElem?_concat_eq_some_iff.mp pending with old | ⟨rfl, -⟩
    · have timer := accounted.armed i old
      rw [located] at timer
      cases timer
    · rfl
  · rintro i (handedOut | setting | cancelling)
    · exact List.mem_append_left _ (accounted.expired i (.inl (kept i _ (by rintro ⟨⟩) handedOut)))
    · exact List.mem_append_left _ (accounted.expired i (.inr (.inl (kept i _ (by rintro ⟨⟩) setting))))
    · exact List.mem_append_left _ (accounted.expired i (.inr (.inr (kept i _ (by rintro ⟨⟩) cancelling))))
  · intro set
    obtain ⟨value, i, member⟩ := accounted.cancelled set
    exact ⟨value, i, List.mem_append_left _ member⟩

/-- Every step keeps the account. -/
theorem acts (accounted : Accounted actions s) (acted : Acts timeout s action t) :
    Accounted (actions ++ [action]) t := by
  have woken := accounted.woken
  cases acted with
  | interrupted located =>
    exact accounted.goto located rfl rfl rfl (by rintro _ ⟨⟩) (by rintro _ _ ⟨⟩) (by decide)
  | again located => exact accounted.goto located rfl rfl rfl (by rintro _ ⟨⟩) (by rintro _ _ ⟨⟩) (by decide)
  | @done n located =>
    refine accounted.goto located rfl rfl rfl (by rintro _ ⟨⟩) ?_ (by simp [Location.spent])
    rintro n errno same
    cases same
    exact .answered (answer_call actions _)
  | arm located _ => exact accounted.arm located
  | untimed located _ =>
    exact accounted.goto located rfl rfl rfl (by rintro _ ⟨⟩) (by rintro _ _ ⟨⟩) (by simp [Location.spent])
  | add located =>
    refine accounted.move located ?_ rfl rfl rfl
      (by rintro _ ⟨⟩) (by rintro _ _ ⟨⟩) (by simp [Location.spent, DoIo.goto])
    rw [located] at woken
    have unscheduled : s.scheduled = 0 := (Nat.add_eq_zero_iff.mp woken).1
    change s.scheduled + 1 = 1
    rw [unscheduled]
  | fail located =>
    refine accounted.goto located rfl rfl rfl ?_ (by rintro _ _ ⟨⟩) (by simp [Location.spent])
    intro timer _
    exact List.mem_append_right _ List.mem_cons_self
  | yield located =>
    refine accounted.move located ?_ rfl rfl rfl
      (by rintro _ ⟨⟩) (by rintro _ _ ⟨⟩) (by simp [Location.spent, DoIo.goto])
    rw [located] at woken
    exact woken
  | resume located scheduled =>
    refine accounted.move located ?_ rfl rfl rfl
      (by rintro _ ⟨⟩) (by rintro _ _ ⟨⟩) (by simp [Location.spent, DoIo.goto])
    rw [located] at woken
    change s.scheduled - 1 + s.registered.toNat = 0
    change s.scheduled + s.registered.toNat = 1 at woken
    omega
  | disarm located =>
    exact accounted.disarm located rfl rfl (by rintro _ ⟨⟩) (by rintro _ _ ⟨⟩) (by simp [Location.spent])
  | giveUp located =>
    refine accounted.disarm located rfl rfl (by rintro _ ⟨⟩) ?_ (by simp [Location.spent])
    rintro n errno same
    cases same
    exact .refused (List.mem_append_left _ (accounted.refused _ located))
  | timedOut located set =>
    refine accounted.goto located rfl rfl rfl (by rintro _ ⟨⟩) ?_ (by simp [Location.spent])
    rintro n errno same
    cases same
    obtain ⟨value, i, member⟩ := accounted.cancelled set
    rw [value]
    exact .timedOut (List.mem_append_left _ member)
  | retry located _ =>
    exact accounted.goto located rfl rfl rfl (by rintro _ ⟨⟩) (by rintro _ _ ⟨⟩) (by simp [Location.spent])
  | expire pending =>
    exact accounted.setTimer rfl rfl rfl accounted.later pending ⟨rfl, by rintro ⟨⟩⟩ (by rintro ⟨⟩)
      (List.mem_append_right _ List.mem_cons_self)
  | @first i handedOut _ =>
    exact accounted.setTimer rfl rfl rfl accounted.later handedOut ⟨rfl, by rintro ⟨⟩⟩ (by rintro ⟨⟩)
      (List.mem_append_left _ (accounted.expired i (.inl handedOut)))
  | @late i handedOut _ =>
    exact accounted.setTimer rfl rfl rfl accounted.later handedOut ⟨rfl, by rintro ⟨⟩⟩ (by rintro ⟨⟩)
      (List.mem_append_left _ (accounted.expired i (.inl handedOut)))
  | @set i setting =>
    have expired := List.mem_append_left [Action.set i] (accounted.expired i (.inr (.inl setting)))
    exact accounted.setTimer (t := { s with cancelled := ETIMEDOUT }) rfl rfl rfl (fun _ => ⟨rfl, i, expired⟩) setting
      ⟨rfl, by rintro ⟨⟩⟩ (by rintro ⟨⟩) expired
  | @cancel i granted cancelling =>
    have expired := List.mem_append_left [Action.cancelEvent i granted] (accounted.expired i (.inr (.inr cancelling)))
    refine accounted.setTimer location_cancelEvent timers_cancelEvent woken_cancelEvent ?_ cancelling
      ⟨rfl, by rintro ⟨⟩⟩ (by rintro ⟨⟩) expired
    rw [cancelled_cancelEvent]
    exact accounted.later
  | trigger registered =>
    refine accounted.beside (t := s.trigger) rfl ⟨rfl, by rintro ⟨⟩⟩ ?_ (fun _ => id) ?_ accounted.later
    · rw [registered]
      rfl
    · intro i ran
      exact List.mem_append_left _ (accounted.expired i ran)

end Accounted

/-- The account of a run. -/
theorem accounted_of_run {location : Location} (fresh : location = .calling ∨ location = .arming)
    (run : (machine timeout).Path { location } actions s) : Accounted actions s := by
  apply run.history (P := Accounted) ?_ (Accounted.fresh fresh)
  intro before s action t accounted step
  exact accounted.acts (acts_of_step step)

/-- A call that has returned is not registered and in no queue and has no timer in the set, whatever its callbacks
and the `IOManager` do. It has returned the last answer of `fun`, or `-1` because `addEvent` failed or, with `ETIMEDOUT`,
because one of its timers expired; and `fun` has answered `EAGAIN` once more than the fiber was woken at most. -/
theorem returns_accounted (timeout : BitVec 64) (actions : List Action) (s : DoIo)
    (run : (machine timeout).Path {} actions s) (n : ℤ) (errno : Option ℕ) (returned : s.location = .returned n errno) :
    s.registered = false ∧ s.scheduled = 0 ∧ (∀ i : ℕ, s.timers[i]? ≠ some .pending) ∧ Returns actions n errno ∧
      actions.count (.call .again) ≤ actions.count .resume + 1 := by
  have accounted := accounted_of_run (.inl rfl) run
  have woken := accounted.woken
  have paced := accounted.paced
  rw [returned] at woken paced
  obtain ⟨unscheduled, unregistered⟩ := Nat.add_eq_zero_iff.mp woken
  refine ⟨?_, unscheduled, ?_, accounted.returned n errno returned, paced⟩
  · exact Bool.toNat_eq_zero.mp unregistered
  · intro i pending
    have timer := accounted.armed i pending
    rw [returned] at timer
    cases timer

/-- The first timer expires while the fiber waits for the second time. -/
theorem returns_accounted_late : ∃ actions s, (machine 5).Path {} actions s ∧ s.location = .returned (-1) (some ETIMEDOUT) ∧
    s.timers = [.consumed, .consumed] ∧ Returns actions (-1) (some ETIMEDOUT) := by
  have run : (machine 5).Path {}
      [.call .again, .arm, .addEvent true, .yield, .expire 0, .trigger, .resume, .cancelTimer, .test, .call .again, .arm,
        .addEvent true, .yield, .lock 0, .set 0, .cancelEvent 0 true, .resume, .cancelTimer, .test]
      { location := .returned (-1) (some ETIMEDOUT), cancelled := ETIMEDOUT, timers := [.consumed, .consumed] } :=
    Machine.Path.ofNext_iff.mpr rfl
  exact ⟨_, _, run, rfl, rfl, (returns_accounted _ _ _ run _ _ rfl).2.2.2.1⟩

end Sylar.DoIo
