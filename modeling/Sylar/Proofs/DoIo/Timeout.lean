import Mathlib.Logic.Basic
import Sylar.Model.DoIo

/-! # When the timeout of a hooked call is not lost

The timer is armed before the event is registered, and its callback cancels the event whether or not it
is registered by then. A callback that cancels too early has set `cancelled`, which the fiber does not
look at before it parks, and which makes every later callback of the call end without cancelling. So has one
whose `epoll_ctl` fails, and nobody looks at what `cancelEvent` returns.
-/

namespace Sylar.DoIo

variable {timeout : BitVec 64} {s t : DoIo} {action : Action} {i j : ℕ}

/-- The fiber goes on to register and park without looking at `cancelled`. -/
def Location.ahead : Location → Bool
  | .calling | .arming | .adding _ => true
  | _ => false

/-- The fiber is about to register, or has registered and does nothing until it is woken. -/
def Location.waits : Location → Bool
  | .added _ | .parked _ => true
  | _ => false

/-- A callback that has found `cancelled` to be zero and has not ended. -/
def Running (s : DoIo) (i : ℕ) : Prop := s.timers[i]? = some .setting ∨ s.timers[i]? = some .cancelling

/-- The timer will lead to a `cancelEvent`. -/
def WillCancel (s : DoIo) (i : ℕ) : Prop :=
  s.Running i ∨ s.cancelled = 0 ∧ (s.timers[i]? = some .pending ∨ s.timers[i]? = some .handedOut)

/-- The fiber is parked with its event registered and its timer consumed, and nothing but the event will
wake it. -/
def Stranded (s : DoIo) : Prop :=
  ∃ i, s.location = .parked (some i) ∧ s.registered = true ∧ s.scheduled = 0 ∧
    s.timers[i]? = some .consumed ∧ ∀ j, ¬ s.WillCancel j

/-- `cancelEvent` cancels nothing that the fiber is to wait for: the event is not registered yet, or it is
and `epoll_ctl` fails. -/
def Misses (s : DoIo) (granted : Bool) : Prop :=
  s.location.ahead = true ∨ s.registered = true ∧ granted = false

/-- No callback calls `cancelEvent` while the fiber is between its last look at `cancelled` and its
`addEvent`, or has it refused, unless another one is still to do so. -/
def InTime (s : DoIo) : Action → Prop
  | .cancelEvent i granted => s.Misses granted → ∃ j, j ≠ i ∧ s.Running j
  | _ => True

/-! ## What a step can do -/

/-- A step of the call or of a thread that has to do with it, with what was read to get there. -/
inductive Acts (timeout : BitVec 64) (s : DoIo) : Action → DoIo → Prop
  | interrupted : s.location = .calling → Acts timeout s (.call .interrupted) (s.goto .calling)
  | again : s.location = .calling → Acts timeout s (.call .again) (s.goto .arming)
  | done {n : ℤ} : s.location = .calling → Acts timeout s (.call (.done n)) (s.goto (.returned n none))
  | arm : s.location = .arming → timeout ≠ -1 → Acts timeout s .arm
      (goto (.adding (some s.timers.length)) { s with timers := s.timers ++ [.pending] })
  | untimed : s.location = .arming → timeout = -1 → Acts timeout s .arm (s.goto (.adding none))
  | add {timer : Option ℕ} : s.location = .adding timer →
      Acts timeout s (.addEvent true) ({ s with registered := true }.goto (.added timer))
  | fail {timer : Option ℕ} : s.location = .adding timer →
      Acts timeout s (.addEvent false) (s.goto (.failed timer))
  | yield {timer : Option ℕ} : s.location = .added timer → Acts timeout s .yield (s.goto (.parked timer))
  | resume {timer : Option ℕ} : s.location = .parked timer → s.scheduled ≠ 0 →
      Acts timeout s .resume ({ s with scheduled := s.scheduled - 1 }.goto (.resumed timer))
  | disarm {timer : Option ℕ} : s.location = .resumed timer →
      Acts timeout s .cancelTimer ((s.cancelTimer timer).goto .testing)
  | giveUp {timer : Option ℕ} : s.location = .failed timer →
      Acts timeout s .cancelTimer ((s.cancelTimer timer).goto (.returned (-1) none))
  | timedOut : s.location = .testing → s.cancelled ≠ 0 →
      Acts timeout s .test (s.goto (.returned (-1) (some s.cancelled)))
  | retry : s.location = .testing → s.cancelled = 0 → Acts timeout s .test (s.goto .calling)
  | expire {i : ℕ} : s.timers[i]? = some .pending → Acts timeout s (.expire i) (s.setTimer i .handedOut)
  | first {i : ℕ} : s.timers[i]? = some .handedOut → s.cancelled = 0 →
      Acts timeout s (.lock i) (s.setTimer i .setting)
  | late {i : ℕ} : s.timers[i]? = some .handedOut → ¬ (s.alive = true ∧ s.cancelled = 0) →
      Acts timeout s (.lock i) (s.setTimer i .consumed)
  | set {i : ℕ} : s.timers[i]? = some .setting →
      Acts timeout s (.set i) ({ s with cancelled := ETIMEDOUT }.setTimer i .cancelling)
  | cancel {i : ℕ} {granted : Bool} : s.timers[i]? = some .cancelling →
      Acts timeout s (.cancelEvent i granted) ((s.cancelEvent granted).setTimer i .consumed)
  | trigger : s.registered = true → Acts timeout s .trigger s.trigger

theorem acts_of_step (step : (machine timeout).Step s action t) : Acts timeout s action t := by
  have ran : s.perform timeout action = some t := step
  cases action with
  | call outcome =>
    simp only [perform] at ran
    split at ran
    · next located =>
      cases ran
      cases outcome with
      | interrupted => exact .interrupted located
      | again => exact .again located
      | done n => exact .done located
    · cases ran
  | arm =>
    simp only [perform] at ran
    split at ran
    · next located =>
      split_ifs at ran with timed
      · cases ran; exact .arm located timed
      · cases ran; exact .untimed located (not_not.mp timed)
    · cases ran
  | addEvent granted =>
    simp only [perform] at ran
    split at ran
    · next located =>
      cases granted with
      | true => cases ran; exact .add located
      | false => cases ran; exact .fail located
    · cases ran
  | yield =>
    simp only [perform] at ran
    split at ran
    · next located => cases ran; exact .yield located
    · cases ran
  | resume =>
    simp only [perform] at ran
    split at ran
    · next located =>
      split_ifs at ran with none
      cases ran
      exact .resume located none
    · cases ran
  | cancelTimer =>
    simp only [perform] at ran
    split at ran
    · next located => cases ran; exact .disarm located
    · next located => cases ran; exact .giveUp located
    · cases ran
  | test =>
    simp only [perform] at ran
    split at ran
    · next located =>
      cases ran
      split_ifs with cancelled
      · exact .timedOut located cancelled
      · exact .retry located (not_not.mp cancelled)
    · cases ran
  | expire i =>
    simp only [perform] at ran
    split_ifs at ran with pending
    cases ran
    exact .expire pending
  | lock i =>
    simp only [perform] at ran
    split_ifs at ran with handedOut first
    · cases ran
      exact .first handedOut (by simpa using (Bool.and_eq_true_iff.mp first).2)
    · cases ran
      exact .late handedOut (by simpa using first)
  | set i =>
    simp only [perform] at ran
    split_ifs at ran with setting
    cases ran
    exact .set setting
  | cancelEvent i granted =>
    simp only [perform] at ran
    split_ifs at ran with cancelling
    cases ran
    exact .cancel cancelling
  | trigger =>
    simp only [perform] at ran
    split_ifs at ran with registered
    cases ran
    exact .trigger registered

/-! ## What holds in every run -/

theorem getElem?_setTimer_of_ne {state : Callback.State} (different : j ≠ i) :
    (s.setTimer i state).timers[j]? = s.timers[j]? :=
  List.getElem?_set_ne different.symm

theorem getElem?_setTimer_self {state old : Callback.State} (known : s.timers[i]? = some old) :
    (s.setTimer i state).timers[i]? = some state :=
  List.getElem?_set_self (List.getElem?_eq_some_iff.mp known).1

theorem length_setTimer {state : Callback.State} : (s.setTimer i state).timers.length = s.timers.length :=
  List.length_set

/-- Nothing that happens to a timer moves the fiber. -/
theorem location_cancelEvent {granted : Bool} : (s.cancelEvent granted).location = s.location := by
  unfold cancelEvent
  split_ifs <;> rfl

theorem timers_cancelEvent {granted : Bool} : (s.cancelEvent granted).timers = s.timers := by
  unfold cancelEvent
  split_ifs <;> rfl

theorem cancelled_cancelEvent {granted : Bool} : (s.cancelEvent granted).cancelled = s.cancelled := by
  unfold cancelEvent
  split_ifs <;> rfl

/-- A refused `cancelEvent` leaves everything. -/
theorem cancelEvent_refused : s.cancelEvent false = s := by
  rw [cancelEvent, Bool.and_false]
  exact if_neg Bool.false_ne_true

theorem registered_cancelEvent : (s.cancelEvent true).registered = false := by
  unfold cancelEvent
  rw [Bool.and_true]
  split_ifs with registered
  · rfl
  · exact eq_false_of_ne_true registered

/-- Cancelling the event moves a wake-up from the registration to the queue. -/
theorem woken_cancelEvent {granted : Bool} : (s.cancelEvent granted).scheduled +
    (s.cancelEvent granted).registered.toNat = s.scheduled + s.registered.toNat := by
  unfold cancelEvent
  split_ifs with cancelled
  · rw [(Bool.and_eq_true_iff.mp cancelled).1]
    rfl
  · rfl

namespace Running

theorem setTimer {state : Callback.State} (running : s.Running j) (different : j ≠ i) :
    (s.setTimer i state).Running j := by
  unfold Running
  rwa [getElem?_setTimer_of_ne different]

/-- A callback in another state is none of those that run. -/
theorem ne {state : Callback.State} (running : s.Running j) (known : s.timers[i]? = some state)
    (setting : state ≠ .setting) (cancelling : state ≠ .cancelling) : j ≠ i := by
  rintro rfl
  rcases running with found | found
  · exact setting (Option.some.inj (known.symm.trans found))
  · exact cancelling (Option.some.inj (known.symm.trans found))

theorem lt (running : s.Running j) : j < s.timers.length := by
  rcases running with found | found <;> exact (List.getElem?_eq_some_iff.mp found).1

end Running

theorem WillCancel.setTimer {state : Callback.State} (will : s.WillCancel j) (different : j ≠ i) :
    (s.setTimer i state).WillCancel j := by
  rcases will with running | ⟨zero, found⟩
  · exact Or.inl (running.setTimer different)
  · refine Or.inr ⟨zero, ?_⟩
    rwa [getElem?_setTimer_of_ne different]

theorem WillCancel.of_setTimer {state : Callback.State} (will : (s.setTimer i state).WillCancel j)
    (different : j ≠ i) : s.WillCancel j := by
  unfold WillCancel Running at *
  rwa [getElem?_setTimer_of_ne different] at will

/-- The bookkeeping of a call with a timeout. -/
structure Booked (s : DoIo) : Prop where
  timed : ∀ timer, s.location = .adding timer ∨ s.location = .added timer ∨ s.location = .parked timer →
    ∃ i, timer = some i ∧ i < s.timers.length
  woken : s.scheduled + s.registered.toNat = s.location.waits.toNat
  flagged : ∀ i : ℕ, s.timers[i]? = some .cancelling → s.cancelled ≠ 0

namespace Booked

theorem init : Booked {} where
  timed := nofun
  woken := rfl
  flagged := nofun

/-- The fiber goes to a place where it neither is about to register nor waits. -/
theorem goto (booked : Booked s) {location : Location} (here : s.location.waits = false)
    (there : location.waits = false) (timed : ∀ timer, location ≠ .adding timer) :
    Booked (s.goto location) where
  timed := by
    rintro timer (located | located | located)
    · exact absurd located (timed timer)
    · change location = _ at located
      rw [located] at there
      cases there
    · change location = _ at located
      rw [located] at there
      cases there
  woken := by
    have woken := booked.woken
    rw [here] at woken
    exact woken.trans (congrArg Bool.toNat there.symm)
  flagged := booked.flagged

/-- A timer goes on, and its callback has set `cancelled` if it is to cancel now. -/
theorem setTimer (booked : Booked s) {state : Callback.State}
    (flagged : state = .cancelling → s.cancelled ≠ 0) : Booked (s.setTimer i state) where
  timed := by
    intro timer located
    rw [length_setTimer]
    exact booked.timed timer located
  woken := booked.woken
  flagged := by
    intro j found
    rcases eq_or_ne j i with rfl | different
    · have inside := (List.getElem?_eq_some_iff.mp found).1
      rw [length_setTimer] at inside
      rw [getElem?_setTimer_self (List.getElem?_eq_getElem inside)] at found
      exact flagged (Option.some.inj found)
    · rw [getElem?_setTimer_of_ne different] at found
      exact booked.flagged j found

theorem cancelTimer (booked : Booked s) {timer : Option ℕ} : Booked (s.cancelTimer timer) := by
  unfold DoIo.cancelTimer
  cases timer with
  | none => exact booked
  | some i =>
    dsimp only
    split_ifs
    · exact booked.setTimer nofun
    · exact booked

theorem cancelEvent (booked : Booked s) {granted : Bool} : Booked (s.cancelEvent granted) where
  timed := by
    rw [location_cancelEvent, timers_cancelEvent]
    exact booked.timed
  woken := by
    rw [woken_cancelEvent, location_cancelEvent]
    exact booked.woken
  flagged := by
    rw [timers_cancelEvent, cancelled_cancelEvent]
    exact booked.flagged

theorem location_cancelTimer {timer : Option ℕ} : (s.cancelTimer timer).location = s.location := by
  unfold DoIo.cancelTimer
  cases timer with
  | none => rfl
  | some i =>
    dsimp only
    split_ifs <;> rfl

/-- Every step keeps the books. -/
theorem acts (finite : timeout ≠ -1) (booked : Booked s) (acted : Acts timeout s action t) : Booked t := by
  have woken := booked.woken
  cases acted with
  | interrupted located => exact booked.goto (by rw [located]; rfl) rfl nofun
  | again located => exact booked.goto (by rw [located]; rfl) rfl nofun
  | done located => exact booked.goto (by rw [located]; rfl) rfl nofun
  | arm located timed =>
    rw [located] at woken
    exact {
      timed := by
        rintro timer (located | located | located)
        · cases located
          exact ⟨_, rfl, by simp [DoIo.goto]⟩
        · cases located
        · cases located
      woken := woken
      flagged := by
        intro j found
        change (s.timers ++ [.pending])[j]? = _ at found
        rw [List.getElem?_append] at found
        split_ifs at found with before
        · exact booked.flagged j found
        · rw [List.getElem?_singleton] at found
          split_ifs at found
          cases found }
  | untimed located infinite => exact absurd infinite finite
  | @add timer located =>
    have timed := booked.timed timer (Or.inl located)
    rw [located] at woken
    have unscheduled : s.scheduled = 0 := (Nat.add_eq_zero_iff.mp woken).1
    exact {
      timed := by
        rintro _ (located | located | located)
        · cases located
        · cases located
          exact timed
        · cases located
      woken := by
        change s.scheduled + 1 = 1
        rw [unscheduled]
      flagged := booked.flagged }
  | fail located => exact booked.goto (by rw [located]; rfl) rfl nofun
  | @yield timer located =>
    have timed := booked.timed timer (Or.inr (Or.inl located))
    rw [located] at woken
    exact {
      timed := by
        rintro _ (located | located | located)
        · cases located
        · cases located
        · cases located
          exact timed
      woken := woken
      flagged := booked.flagged }
  | resume located scheduled =>
    rw [located] at woken
    exact {
      timed := by rintro _ (located | located | located) <;> cases located
      woken := by
        change s.scheduled - 1 + s.registered.toNat = 0
        change s.scheduled + s.registered.toNat = 1 at woken
        omega
      flagged := booked.flagged }
  | disarm located =>
    exact booked.cancelTimer.goto (by rw [location_cancelTimer, located]; rfl) rfl nofun
  | giveUp located =>
    exact booked.cancelTimer.goto (by rw [location_cancelTimer, located]; rfl) rfl nofun
  | timedOut located _ => exact booked.goto (by rw [located]; rfl) rfl nofun
  | retry located _ => exact booked.goto (by rw [located]; rfl) rfl nofun
  | expire _ => exact booked.setTimer nofun
  | first _ _ => exact booked.setTimer nofun
  | late _ _ => exact booked.setTimer nofun
  | set _ =>
    have flagged : Booked { s with cancelled := ETIMEDOUT } :=
      ⟨booked.timed, booked.woken, fun _ _ => nofun⟩
    exact flagged.setTimer fun _ => nofun
  | cancel _ => exact booked.cancelEvent.setTimer nofun
  | trigger registered =>
    exact {
      timed := booked.timed
      woken := by
        rw [registered] at woken
        exact woken
      flagged := booked.flagged }

end Booked

/-! ## No timeout is lost in time -/

/-- Some callback is still to cancel the event, as long as the fiber is to register or waits for it. -/
structure Wakeable (s : DoIo) : Prop where
  ahead : s.location.ahead = true → s.cancelled ≠ 0 → ∃ j, s.Running j
  adding : ∀ timer, s.location = .adding timer → ∃ j, s.WillCancel j
  waiting : s.location.waits = true → s.registered = true → ∃ j, s.WillCancel j

namespace Wakeable

theorem init : Wakeable {} where
  ahead := nofun
  adding := nofun
  waiting := nofun

/-- A parked fiber with its event registered is not stranded. -/
theorem not_stranded (wakeable : Wakeable s) : ¬ s.Stranded := by
  rintro ⟨i, located, registered, -, -, lost⟩
  obtain ⟨j, will⟩ := wakeable.waiting (by rw [located]; rfl) registered
  exact lost j will

/-- The fiber goes to a place where it needs no callback. -/
theorem away {location : Location} (ahead : location.ahead = false) (waits : location.waits = false)
    (located : t.location = location) : Wakeable t where
  ahead := by
    intro here
    rw [located, ahead] at here
    cases here
  adding := by
    intro timer here
    rw [located] at here
    rw [here] at ahead
    cases ahead
  waiting := by
    intro here
    rw [located, waits] at here
    cases here

/-- The fiber calls `fun` again after the test. -/
theorem of_zero (zero : t.cancelled = 0) (located : t.location = .calling) : Wakeable t where
  ahead _ cancelled := absurd zero cancelled
  adding timer here := by cases located.symm.trans here
  waiting here _ := by
    rw [located] at here
    cases here

/-- Another callback than those that were to cancel makes a step, and the fiber does not. -/
theorem move (wakeable : Wakeable s) (located : t.location = s.location)
    (cancelled : t.cancelled = s.cancelled) (registered : t.registered = true → s.registered = true)
    (running : ∀ j, s.Running j → ∃ j, t.Running j)
    (will : ∀ j, s.WillCancel j → ∃ j, t.WillCancel j) : Wakeable t where
  ahead := by
    rw [located, cancelled]
    intro ahead set
    obtain ⟨j, runs⟩ := wakeable.ahead ahead set
    exact running j runs
  adding := by
    rw [located]
    intro timer adding
    obtain ⟨j, cancels⟩ := wakeable.adding timer adding
    exact will j cancels
  waiting := by
    rw [located]
    intro waits set
    obtain ⟨j, cancels⟩ := wakeable.waiting waits (registered set)
    exact will j cancels

/-- A callback that runs is still to cancel, wherever the fiber is. -/
theorem of_running (runs : t.Running i) : Wakeable t where
  ahead _ _ := ⟨i, runs⟩
  adding _ _ := ⟨i, Or.inl runs⟩
  waiting _ _ := ⟨i, Or.inl runs⟩

/-- The call is not over before the fiber has looked at `cancelled`. -/
theorem alive_of_location (here : s.location.ahead = true ∨ s.location.waits = true) : s.alive = true := by
  unfold alive
  cases located : s.location with
  | returned n errno => simp [located, Location.ahead, Location.waits] at here
  | _ => rfl

/-- A callback that comes too late was not to cancel, unless the call is over. -/
theorem late (wakeable : Wakeable s) (handedOut : s.timers[i]? = some .handedOut)
    (tooLate : ¬ (s.alive = true ∧ s.cancelled = 0)) : Wakeable (s.setTimer i .consumed) := by
  have kept {j : ℕ} (running : s.Running j) : (s.setTimer i .consumed).Running j :=
    running.setTimer (running.ne handedOut nofun nofun)
  rcases Bool.eq_false_or_eq_true s.alive with alive | ended
  · have cancelled : s.cancelled ≠ 0 := fun zero => tooLate ⟨alive, zero⟩
    refine wakeable.move (t := s.setTimer i .consumed) rfl rfl id ?_ ?_
    · exact fun j running => ⟨j, kept running⟩
    · rintro j (running | ⟨zero, _⟩)
      · exact ⟨j, Or.inl (kept running)⟩
      · exact absurd zero cancelled
  · have ahead : s.location.ahead = false := by
      refine eq_false_of_ne_true fun ahead => ?_
      rw [alive_of_location (Or.inl ahead)] at ended
      cases ended
    have waits : s.location.waits = false := by
      refine eq_false_of_ne_true fun waits => ?_
      rw [alive_of_location (Or.inr waits)] at ended
      cases ended
    exact away ahead waits rfl

/-- A callback that cancels in time leaves the event unregistered, or is not the last one to cancel. -/
theorem cancel {granted : Bool} (inTime : InTime s (.cancelEvent i granted)) :
    Wakeable ((s.cancelEvent granted).setTimer i .consumed) := by
  have located : ((s.cancelEvent granted).setTimer i .consumed).location = s.location := location_cancelEvent
  by_cases misses : s.Misses granted
  · obtain ⟨j, different, running⟩ := inTime misses
    have running : (s.cancelEvent granted).Running j := by
      unfold Running
      rwa [timers_cancelEvent]
    exact of_running (running.setTimer different)
  · obtain ⟨ahead, refused⟩ := not_or.mp misses
    have passed := eq_false_of_ne_true ahead
    exact {
      ahead := by
        rw [located, passed]
        nofun
      adding := by
        rw [located]
        intro timer adding
        rw [adding] at passed
        cases passed
      waiting := by
        intro _ registered
        change (s.cancelEvent granted).registered = true at registered
        cases granted with
        | true =>
          rw [registered_cancelEvent] at registered
          cases registered
        | false =>
          rw [cancelEvent_refused] at registered
          exact absurd ⟨registered, rfl⟩ refused }

/-- Every step taken in time leaves a callback that is to cancel. -/
theorem acts (finite : timeout ≠ -1) (wakeable : Wakeable s) (inTime : InTime s action)
    (acted : Acts timeout s action t) : Wakeable t := by
  cases acted with
  | interrupted located =>
    exact wakeable.move located.symm rfl id (fun j runs => ⟨j, runs⟩) (fun j will => ⟨j, will⟩)
  | again located =>
    exact {
      ahead := fun _ => wakeable.ahead (by rw [located]; rfl)
      adding := nofun
      waiting := nofun }
  | done _ => exact away rfl rfl rfl
  | arm located _ =>
    have kept {j : ℕ} (running : s.Running j) :
        (goto (.adding (some s.timers.length)) { s with timers := s.timers ++ [.pending] }).Running j := by
      change (s.timers ++ [.pending])[j]? = _ ∨ (s.timers ++ [.pending])[j]? = _
      rwa [List.getElem?_append_left running.lt]
    rcases Nat.eq_zero_or_pos s.cancelled with zero | positive
    · have armed : (s.timers ++ [Callback.State.pending])[s.timers.length]? = some .pending :=
        List.getElem?_concat_length
      exact {
        ahead := fun _ cancelled => absurd zero cancelled
        adding := fun _ _ => ⟨_, Or.inr ⟨zero, Or.inl armed⟩⟩
        waiting := nofun }
    · obtain ⟨j, running⟩ := wakeable.ahead (by rw [located]; rfl) (Nat.ne_of_gt positive)
      exact of_running (kept running)
  | untimed _ infinite => exact absurd infinite finite
  | @add timer located =>
    exact {
      ahead := nofun
      adding := nofun
      waiting := fun _ _ => wakeable.adding timer located }
  | fail _ => exact away rfl rfl rfl
  | yield located =>
    exact {
      ahead := nofun
      adding := nofun
      waiting := fun _ => wakeable.waiting (by rw [located]; rfl) }
  | resume _ _ => exact away rfl rfl rfl
  | disarm _ => exact away rfl rfl rfl
  | giveUp _ => exact away rfl rfl rfl
  | timedOut _ _ => exact away rfl rfl rfl
  | retry _ zero => exact of_zero zero rfl
  | @expire i pending =>
    refine wakeable.move (t := s.setTimer i .handedOut) rfl rfl id ?_ ?_
    · exact fun j running => ⟨j, running.setTimer (running.ne pending nofun nofun)⟩
    · intro j will
      rcases eq_or_ne j i with rfl | different
      · rcases will with running | ⟨zero, _⟩
        · exact absurd rfl (running.ne pending nofun nofun)
        · exact ⟨j, Or.inr ⟨zero, Or.inr (getElem?_setTimer_self pending)⟩⟩
      · exact ⟨j, will.setTimer different⟩
  | first handedOut _ => exact of_running (Or.inl (getElem?_setTimer_self handedOut))
  | late handedOut tooLate => exact wakeable.late handedOut tooLate
  | @set i setting =>
    have setting : ({ s with cancelled := ETIMEDOUT } : DoIo).timers[i]? = some .setting := setting
    exact of_running (Or.inr (getElem?_setTimer_self setting))
  | cancel _ => exact cancel inTime
  | trigger _ =>
    exact wakeable.move rfl rfl nofun (fun j runs => ⟨j, runs⟩) (fun j will => ⟨j, will⟩)

end Wakeable

/-! ## A timeout that comes too early is lost -/

/-- No callback runs, and none that is still to come will cancel. -/
structure Deaf (s : DoIo) : Prop where
  cancelled : s.cancelled ≠ 0
  quiet : ∀ j, ¬ s.Running j

/-- The call can go on until the fiber is stranded. -/
def Strands (timeout : BitVec 64) (s : DoIo) : Prop :=
  ∃ actions t, (machine timeout).Path s actions t ∧ t.Stranded

/-- Another timer goes on, and its callback is not to cancel either. -/
theorem Stranded.setTimer (stranded : s.Stranded) {state old : Callback.State}
    (known : s.timers[i]? = some old) (other : old ≠ .consumed)
    (harmless : ¬ (s.setTimer i state).WillCancel i) : (s.setTimer i state).Stranded := by
  obtain ⟨k, parked, registered, unscheduled, consumed, lost⟩ := stranded
  have different : k ≠ i := by
    rintro rfl
    exact other (Option.some.inj (known.symm.trans consumed))
  refine ⟨k, parked, registered, unscheduled, ?_, ?_⟩
  · rwa [getElem?_setTimer_of_ne different]
  · intro j will
    rcases eq_or_ne j i with rfl | different
    · exact harmless will
    · exact lost j (will.of_setTimer different)

/-- A stranded fiber stays so until its event is triggered. -/
theorem Stranded.acts (stranded : s.Stranded) (acted : Acts timeout s action t) (other : action ≠ .trigger) :
    t.Stranded := by
  obtain ⟨k, parked, registered, unscheduled, consumed, lost⟩ := id stranded
  cases acted with
  | resume _ scheduled => exact absurd unscheduled scheduled
  | @expire i pending =>
    refine stranded.setTimer pending nofun ?_
    rintro (running | ⟨zero, _⟩)
    · exact running.ne (getElem?_setTimer_self pending) nofun nofun rfl
    · exact lost i (Or.inr ⟨zero, Or.inl pending⟩)
  | first handedOut zero => exact absurd (Or.inr ⟨zero, Or.inr handedOut⟩) (lost _)
  | @late i handedOut _ =>
    have ended : (s.setTimer i .consumed).timers[i]? = some .consumed := getElem?_setTimer_self handedOut
    refine stranded.setTimer handedOut nofun ?_
    rintro (running | ⟨_, found | found⟩)
    · exact running.ne ended nofun nofun rfl
    · cases ended.symm.trans found
    · cases ended.symm.trans found
  | set setting => exact absurd (Or.inl (Or.inl setting)) (lost _)
  | cancel cancelling => exact absurd (Or.inl (Or.inr cancelling)) (lost _)
  | trigger _ => exact absurd rfl other
  | interrupted located => cases parked.symm.trans located
  | again located => cases parked.symm.trans located
  | done located => cases parked.symm.trans located
  | arm located _ => cases parked.symm.trans located
  | untimed located _ => cases parked.symm.trans located
  | add located => cases parked.symm.trans located
  | fail located => cases parked.symm.trans located
  | yield located => cases parked.symm.trans located
  | disarm located => cases parked.symm.trans located
  | giveUp located => cases parked.symm.trans located
  | timedOut located _ => cases parked.symm.trans located
  | retry located _ => cases parked.symm.trans located

theorem Stranded.path {actions : List Action} (stranded : s.Stranded)
    (path : (machine timeout).Path s actions t) (others : Action.trigger ∉ actions) : t.Stranded := by
  induction path with
  | nil => exact stranded
  | cons step _ ih =>
    rw [List.mem_cons, not_or] at others
    exact ih (stranded.acts (acts_of_step step) (Ne.symm others.1)) others.2

theorem Strands.of_step (step : (machine timeout).Step s action t) (strands : Strands timeout t) :
    Strands timeout s := by
  obtain ⟨actions, after, path, stranded⟩ := strands
  exact ⟨action :: actions, after, .cons step path, stranded⟩

theorem Deaf.setTimer (deaf : Deaf s) (state : Callback.State) {old : Callback.State}
    (known : s.timers[i]? = some old) (setting : state ≠ .setting) (cancelling : state ≠ .cancelling) :
    Deaf (s.setTimer i state) where
  cancelled := deaf.cancelled
  quiet := by
    intro j running
    have different := running.ne (getElem?_setTimer_self known) setting cancelling
    apply deaf.quiet j
    unfold Running at running
    rwa [getElem?_setTimer_of_ne different] at running

/-- The fiber waits for its event, and for a timer that will not cancel it. -/
structure WaitsDeaf (s : DoIo) (i : ℕ) : Prop where
  deaf : Deaf s
  located : s.location = .parked (some i)
  registered : s.registered = true
  unscheduled : s.scheduled = 0

namespace WaitsDeaf

theorem setTimer (waits : WaitsDeaf s i) (state : Callback.State) {old : Callback.State}
    (known : s.timers[i]? = some old) (setting : state ≠ .setting) (cancelling : state ≠ .cancelling) :
    WaitsDeaf (s.setTimer i state) i where
  deaf := waits.deaf.setTimer state known setting cancelling
  located := waits.located
  registered := waits.registered
  unscheduled := waits.unscheduled

theorem stranded (waits : WaitsDeaf s i) (consumed : s.timers[i]? = some .consumed) : s.Stranded := by
  refine ⟨i, waits.located, waits.registered, waits.unscheduled, consumed, ?_⟩
  rintro j (running | ⟨zero, _⟩)
  · exact waits.deaf.quiet j running
  · exact waits.deaf.cancelled zero

/-- The callback finds `cancelled` set and ends. -/
theorem strands_handedOut (waits : WaitsDeaf s i) (handedOut : s.timers[i]? = some .handedOut) :
    Strands timeout s := by
  have lock : (machine timeout).Step s (.lock i) (s.setTimer i .consumed) := by
    change s.perform timeout (.lock i) = _
    simp [perform, handedOut, waits.deaf.cancelled]
  have after := waits.setTimer .consumed handedOut nofun nofun
  exact .of_step lock ⟨[], _, .nil _, after.stranded (getElem?_setTimer_self handedOut)⟩

theorem strands (waits : WaitsDeaf s i) (armed : i < s.timers.length) : Strands timeout s := by
  have known := List.getElem?_eq_getElem armed
  generalize s.timers[i] = state at known
  cases state with
  | pending =>
    have expire : (machine timeout).Step s (.expire i) (s.setTimer i .handedOut) := if_pos known
    have after := waits.setTimer .handedOut known nofun nofun
    exact .of_step expire (after.strands_handedOut (getElem?_setTimer_self known))
  | handedOut => exact waits.strands_handedOut known
  | setting => exact absurd (Or.inl known) (waits.deaf.quiet i)
  | cancelling => exact absurd (Or.inr known) (waits.deaf.quiet i)
  | consumed => exact ⟨[], s, .nil s, waits.stranded known⟩

end WaitsDeaf

namespace Deaf

/-- The event is registered after the last callback that would have cancelled it. -/
theorem strands_adding (deaf : Deaf s) (located : s.location = .adding (some i))
    (unscheduled : s.scheduled = 0) (armed : i < s.timers.length) : Strands timeout s := by
  have add : (machine timeout).Step s (.addEvent true)
      (({ s with registered := true } : DoIo).goto (.added (some i))) := by
    change s.perform timeout (.addEvent true) = _
    simp [perform, located]
  have yield : (machine timeout).Step (({ s with registered := true } : DoIo).goto (.added (some i))) .yield
      (({ s with registered := true } : DoIo).goto (.parked (some i))) := rfl
  have waits : WaitsDeaf (({ s with registered := true } : DoIo).goto (.parked (some i))) i :=
    ⟨⟨deaf.cancelled, deaf.quiet⟩, rfl, rfl, unscheduled⟩
  exact .of_step add (.of_step yield (waits.strands armed))

/-- A timer armed after `cancelled` was set is of no use. -/
theorem strands_arming (finite : timeout ≠ -1) (deaf : Deaf s) (located : s.location = .arming)
    (unscheduled : s.scheduled = 0) : Strands timeout s := by
  have arm : (machine timeout).Step s .arm
      (goto (.adding (some s.timers.length)) { s with timers := s.timers ++ [.pending] }) := by
    change s.perform timeout .arm = _
    simp only [perform, located]
    exact if_pos finite
  refine .of_step arm (strands_adding ⟨deaf.cancelled, ?_⟩ rfl unscheduled (by simp [DoIo.goto]))
  rintro j running
  have inside := running.lt
  change _ < (s.timers ++ [_]).length at inside
  rw [List.length_append, List.length_singleton] at inside
  change (s.timers ++ [_])[j]? = _ ∨ (s.timers ++ [_])[j]? = _ at running
  rcases Nat.lt_or_eq_of_le (Nat.le_of_lt_succ inside) with before | rfl
  · rw [List.getElem?_append_left before] at running
    exact deaf.quiet j running
  · rw [List.getElem?_concat_length] at running
    rcases running with found | found <;> cases found

theorem strands_calling (finite : timeout ≠ -1) (deaf : Deaf s) (located : s.location = .calling)
    (unscheduled : s.scheduled = 0) : Strands timeout s := by
  have again : (machine timeout).Step s (.call .again) (s.goto .arming) := by
    change s.perform timeout (.call .again) = _
    simp [perform, located]
  exact .of_step again (strands_arming finite ⟨deaf.cancelled, deaf.quiet⟩ rfl unscheduled)

end Deaf

/-- The last callback that was to cancel has ended. -/
theorem Deaf.of_last (booked : Booked s) (cancelling : s.timers[i]? = some .cancelling)
    (last : ¬ ∃ j, j ≠ i ∧ s.Running j) : Deaf (s.setTimer i .consumed) := by
  refine ⟨booked.flagged i cancelling, fun j running => last ⟨j, ?_⟩⟩
  have different := running.ne (getElem?_setTimer_self cancelling) nofun nofun
  refine ⟨different, ?_⟩
  unfold Running at running ⊢
  rwa [getElem?_setTimer_of_ne different] at running

/-- It did so before the event was registered. -/
theorem strands_of_ahead (finite : timeout ≠ -1) (booked : Booked s) (deaf : Deaf (s.setTimer i .consumed))
    (ahead : s.location.ahead = true) (granted : Bool) :
    Strands timeout ((s.cancelEvent granted).setTimer i .consumed) := by
  have waits : s.location.waits = false := by
    cases located : s.location <;> first | rfl | (rw [located] at ahead; cases ahead)
  have woken := booked.woken
  rw [waits] at woken
  obtain ⟨unscheduled, unregistered⟩ := Nat.add_eq_zero_iff.mp woken
  have still : s.cancelEvent granted = s := by
    rw [DoIo.cancelEvent, Bool.toNat_eq_zero.mp unregistered]
    rfl
  rw [still]
  cases located : s.location with
  | calling => exact deaf.strands_calling finite located unscheduled
  | arming => exact deaf.strands_arming finite located unscheduled
  | adding timer =>
    obtain ⟨k, rfl, armed⟩ := booked.timed timer (Or.inl located)
    exact deaf.strands_adding located unscheduled (by rwa [length_setTimer])
  | _ =>
    rw [located] at ahead
    cases ahead

/-- It was refused, and the event stays registered. -/
theorem strands_of_refused (booked : Booked s) (deaf : Deaf (s.setTimer i .consumed))
    (registered : s.registered = true) : Strands timeout ((s.cancelEvent false).setTimer i .consumed) := by
  have woken := booked.woken
  rw [registered] at woken
  have waits : s.location.waits = true := by
    rw [← Bool.toNat_eq_one]
    have bit := Bool.toNat_le s.location.waits
    change s.scheduled + 1 = _ at woken
    omega
  rw [waits] at woken
  have unscheduled : s.scheduled = 0 := Nat.succ.inj woken
  rw [cancelEvent_refused]
  cases located : s.location with
  | added timer =>
    obtain ⟨k, rfl, armed⟩ := booked.timed timer (Or.inr (Or.inl located))
    have yield : (machine timeout).Step (s.setTimer i .consumed) .yield
        ((s.setTimer i .consumed).goto (.parked (some k))) := by
      change (s.setTimer i .consumed).perform timeout .yield = _
      simp [perform, DoIo.setTimer, located]
    have waits : WaitsDeaf ((s.setTimer i .consumed).goto (.parked (some k))) k :=
      ⟨⟨deaf.cancelled, deaf.quiet⟩, rfl, registered, unscheduled⟩
    refine .of_step yield (waits.strands ?_)
    exact Nat.lt_of_lt_of_eq armed length_setTimer.symm
  | parked timer =>
    obtain ⟨k, rfl, armed⟩ := booked.timed timer (Or.inr (Or.inr located))
    have waits : WaitsDeaf (s.setTimer i .consumed) k := ⟨deaf, located, registered, unscheduled⟩
    exact waits.strands (Nat.lt_of_lt_of_eq armed length_setTimer.symm)
  | _ =>
    rw [located] at waits
    cases waits

theorem strands_of_cancelEvent (finite : timeout ≠ -1) (booked : Booked s) {granted : Bool}
    (cancelling : s.timers[i]? = some .cancelling) (late : ¬ InTime s (.cancelEvent i granted)) :
    Strands timeout ((s.cancelEvent granted).setTimer i .consumed) := by
  obtain ⟨ahead | ⟨registered, rfl⟩, last⟩ := Classical.not_imp.mp late
  · exact strands_of_ahead finite booked (.of_last booked cancelling last) ahead granted
  · exact strands_of_refused booked (.of_last booked cancelling last) registered

theorem of_reachable (finite : timeout ≠ -1) (reached : ((machine timeout).restrict InTime).Reachable s) :
    Booked s ∧ Wakeable s := by
  refine reached.invariant (P := fun s => Booked s ∧ Wakeable s) ?_ ?_
  · rintro s rfl
    exact ⟨.init, .init⟩
  · rintro s action t ⟨booked, wakeable⟩ ⟨inTime, step⟩
    have acted := acts_of_step step
    exact ⟨booked.acts finite acted, wakeable.acts finite inTime acted⟩

/-- As long as the callbacks cancel in time and are not refused, the fiber of a call with a timeout is never
stranded; and from any state so reached, a callback that does not or is leads to a call that can go on until it is. -/
theorem timeout_not_lost (finite : timeout ≠ -1) (reached : ((machine timeout).restrict InTime).Reachable s) :
    ¬ s.Stranded ∧ ∀ i granted t, (machine timeout).Step s (.cancelEvent i granted) t →
      ¬ InTime s (.cancelEvent i granted) →
        ∃ actions after, (machine timeout).Path t actions after ∧ after.Stranded := by
  obtain ⟨booked, wakeable⟩ := of_reachable finite reached
  refine ⟨wakeable.not_stranded, fun i granted t step late => ?_⟩
  cases acts_of_step step with
  | cancel cancelling => exact strands_of_cancelEvent finite booked cancelling late

/-- A call whose timer expires while its fiber is parked. -/
theorem timeout_not_lost_parked : ∃ s, ((machine 5).restrict InTime).Reachable s ∧
    s.location = .parked (some 0) ∧ s.timers = [.cancelling] ∧ ¬ s.Stranded := by
  have path : ((machine 5).restrict InTime).Path {}
      [.call .again, .arm, .addEvent true, .yield, .expire 0, .lock 0, .set 0]
      { location := .parked (some 0), cancelled := ETIMEDOUT, timers := [.cancelling], registered := true } :=
    .cons ⟨trivial, rfl⟩ <| .cons ⟨trivial, rfl⟩ <| .cons ⟨trivial, rfl⟩ <| .cons ⟨trivial, rfl⟩ <|
      .cons ⟨trivial, rfl⟩ <| .cons ⟨trivial, rfl⟩ <| .cons ⟨trivial, rfl⟩ <| .nil _
  have reached : ((machine 5).restrict InTime).Reachable _ := ⟨{}, _, rfl, path⟩
  exact ⟨_, reached, rfl, rfl, (timeout_not_lost (by decide) reached).1⟩

/-- The timer expires and its callback runs before the fiber registers. It cancels nothing, and the fiber
parks with its event registered and no timer left, until the event is triggered. -/
theorem timeout_lost : ∃ s, (machine 5).Reachable s ∧ s.Stranded ∧
    ∀ actions t, (machine 5).Path s actions t → Action.trigger ∉ actions → t.Stranded := by
  have path : (machine 5).Path {}
      [.call .again, .arm, .expire 0, .lock 0, .set 0, .cancelEvent 0 true, .addEvent true, .yield]
      { location := .parked (some 0), cancelled := ETIMEDOUT, timers := [.consumed], registered := true } :=
    Machine.Path.ofNext_iff.mpr rfl
  have stranded : Stranded
      { location := .parked (some 0), cancelled := ETIMEDOUT, timers := [.consumed], registered := true } := by
    refine ⟨0, rfl, rfl, rfl, rfl, ?_⟩
    rintro j (running | ⟨zero, _⟩)
    · obtain rfl : j = 0 := Nat.lt_one_iff.mp running.lt
      rcases running with found | found <;> cases found
    · cases zero
  exact ⟨_, ⟨{}, _, rfl, path⟩, stranded, fun _ _ => stranded.path⟩

end Sylar.DoIo
