import Mathlib.Data.List.Chain
import Sylar.Model.Config.ConfigVar

/-! # What the listeners of a `ConfigVar` are told

Calls of `setValue` that do not overlap between the comparison and the store keep every listener at the value
that is stored. Two that do overlap tell every listener of two changes of one old value.
-/

namespace Sylar.ConfigVar

variable {threads : ℕ} {V : Type}
variable {m after : ConfigVar threads V} {action : Action threads V} {given : Option (Notification V)}
variable {events : List (Action threads V × Option (Notification V))} {listener : ℕ} {v : V}

/-! ## Steps -/

/-- A step of a thread with the listener it calls. -/
inductive Acts (m : ConfigVar threads V) : Action threads V → Option (Notification V) → ConfigVar threads V → Prop
  | same {thread : Fin threads} : m.phase thread = .idle → Acts m (.compare thread m.val) none m
  | differs {thread : Fin threads} {v : V} : m.phase thread = .idle → v ≠ m.val →
      Acts m (.compare thread v) none (m.enter thread (.notifying v m.cbs))
  | notify {thread : Fin threads} {v : V} {listener : ℕ} {remaining : List ℕ} :
      m.phase thread = .notifying v (listener :: remaining) →
      Acts m (.notify thread) (some ⟨listener, m.val, v⟩) (m.enter thread (.notifying v remaining))
  | unlock {thread : Fin threads} {v : V} : m.phase thread = .notifying v [] →
      Acts m (.unlock thread) none (m.enter thread (.storing v))
  | store {thread : Fin threads} {v : V} : m.phase thread = .storing v →
      (∀ other, (m.phase other).reads = false) → Acts m (.store thread) none ({ m with val := v }.enter thread .idle)

theorem acts_of_step [DecidableEq V] (step : (machine threads V).Step m action after) : Acts m action
    (m.notification action) after := by
  have ran : m.perform action = some after := step
  cases action with
  | compare thread v =>
    simp only [perform] at ran
    split at ran
    next idle =>
      split_ifs at ran with same
      · cases ran
        subst same
        exact .same idle
      · cases ran
        exact .differs idle same
    next => cases ran
  | notify thread =>
    simp only [perform, notification] at ran ⊢
    split at ran
    next located =>
      cases ran
      exact .notify located
    next => cases ran
  | unlock thread =>
    simp only [perform] at ran
    split at ran
    next located =>
      cases ran
      exact .unlock located
    next => cases ran
  | store thread =>
    simp only [perform] at ran
    split at ran
    next located =>
      split_ifs at ran with free
      cases ran
      exact .store located free
    next => cases ran

/-! ## What a listener has been told -/

/-- What a listener has been told, in order. -/
def received (listener : ℕ) (events : List (Action threads V × Option (Notification V))) : List (Notification V) :=
  (events.filterMap Prod.snd).filter fun n => n.listener = listener

/-- The value a listener has been told last. -/
def heard (listener : ℕ) (events : List (Action threads V × Option (Notification V))) : Option V :=
  (received listener events).getLast?.map Notification.new_value

/-- Each change begins with the value that the one before ended with. -/
def Chained (notifications : List (Notification V)) : Prop :=
  notifications.IsChain fun before next => next.old_value = before.new_value

theorem received_snoc (listener : ℕ) (event : Action threads V × Option (Notification V)) :
    received listener (events ++ [event]) =
      received listener events ++ event.2.toList.filter fun n => n.listener = listener := by
  rw [received, received, List.filterMap_append, List.filter_append]
  rcases event with ⟨action, _ | n⟩ <;> rfl

@[simp] theorem received_snoc_none (action : Action threads V) :
    received listener (events ++ [(action, none)]) = received listener events := by
  simp [received_snoc]

@[simp] theorem heard_snoc_none (action : Action threads V) :
    heard listener (events ++ [(action, none)]) = heard listener events := by
  rw [heard, received_snoc_none, heard]

@[simp] theorem received_snoc_self (action : Action threads V) (old_value new_value : V) :
    received listener (events ++ [(action, some ⟨listener, old_value, new_value⟩)]) =
      received listener events ++ [⟨listener, old_value, new_value⟩] := by
  simp [received_snoc]

@[simp] theorem heard_snoc_self (action : Action threads V) (old_value new_value : V) :
    heard listener (events ++ [(action, some ⟨listener, old_value, new_value⟩)]) = some new_value := by
  simp [heard]

theorem received_snoc_other {n : Notification V} (action : Action threads V) (other : listener ≠ n.listener) :
    received listener (events ++ [(action, some n)]) = received listener events := by
  simp [received_snoc, Ne.symm other]

theorem heard_snoc_other {n : Notification V} (action : Action threads V) (other : listener ≠ n.listener) :
    heard listener (events ++ [(action, some n)]) = heard listener events := by
  rw [heard, received_snoc_other action other, heard]

/-- A chain goes on if the listener has been told the present value, or nothing. -/
theorem chained_snoc_self {old_value new_value : V} (action : Action threads V) :
    Chained (received listener (events ++ [(action, some ⟨listener, old_value, new_value⟩)])) ↔
      Chained (received listener events) ∧ ∀ w ∈ heard listener events, w = old_value := by
  rw [received_snoc_self, Chained, List.isChain_append, heard]
  cases last : (received listener events).getLast? with
  | none => simp [Chained]
  | some n => simp [Chained, eq_comm]

/-! ## Who is called -/

@[simp] theorem enter_phase_self (thread : Fin threads) (phase : Phase V) :
    (m.enter thread phase).phase thread = phase := Function.update_self ..

@[simp] theorem enter_val (thread : Fin threads) (phase : Phase V) : (m.enter thread phase).val = m.val := rfl

@[simp] theorem enter_cbs (thread : Fin threads) (phase : Phase V) : (m.enter thread phase).cbs = m.cbs := rfl

theorem enter_phase_of_ne {thread other : Fin threads} (phase : Phase V) (ne : other ≠ thread) :
    (m.enter thread phase).phase other = m.phase other := Function.update_of_ne ne ..

/-- What is true of the calls in progress and of the phase that a thread enters is true of the calls after it. -/
theorem notifying_enter {P : V → List ℕ → Prop} (thread : Fin threads) {phase : Phase V}
    (before : ∀ other v remaining, m.phase other = .notifying v remaining → P v remaining)
    (here : ∀ v remaining, phase = .notifying v remaining → P v remaining) (other : Fin threads) (v : V)
    (remaining : List ℕ) (located : (m.enter thread phase).phase other = .notifying v remaining) : P v remaining := by
  rcases eq_or_ne other thread with rfl | ne
  · rw [enter_phase_self] at located
    exact here v remaining located
  · rw [enter_phase_of_ne phase ne] at located
    exact before other v remaining located

/-- The keys differ, and no one is called but those in the list. -/
structure Listed (events : List (Action threads V × Option (Notification V))) (m : ConfigVar threads V) : Prop where
  nodup : m.cbs.Nodup
  remaining : ∀ thread v remaining, m.phase thread = .notifying v remaining → remaining ⊆ m.cbs
  silent : ∀ listener ∉ m.cbs, received listener events = []

theorem Listed.acts (listed : Listed events m) (acts : Acts m action given after) :
    Listed (events ++ [(action, given)]) after ∧ after.cbs = m.cbs := by
  have elsewhere {thread : Fin threads} {phase : Phase V}
      (here : ∀ v remaining, phase = .notifying v remaining → remaining ⊆ m.cbs) :=
    notifying_enter (P := fun _ remaining => remaining ⊆ m.cbs) thread listed.remaining here
  cases acts with
  | same => exact ⟨⟨listed.nodup, listed.remaining, by simpa using listed.silent⟩, rfl⟩
  | differs =>
    refine ⟨⟨listed.nodup, elsewhere fun v remaining same => ?_, by simpa using listed.silent⟩, rfl⟩
    cases same
    exact List.Subset.refl _
  | @notify thread v listener remaining located =>
    have subset := listed.remaining thread v _ located
    refine ⟨⟨listed.nodup, elsewhere fun v remaining same => ?_, fun other outside => ?_⟩, rfl⟩
    · cases same
      exact fun l member => subset (List.mem_cons_of_mem _ member)
    · have ne : other ≠ listener := fun same => outside (same ▸ subset (List.mem_cons_self ..))
      rw [received_snoc_other _ ne]
      exact listed.silent other outside
  | unlock => exact ⟨⟨listed.nodup, elsewhere nofun, by simpa using listed.silent⟩, rfl⟩
  | store => exact ⟨⟨listed.nodup, elsewhere nofun, by simpa using listed.silent⟩, rfl⟩

/-! ## Calls one at a time -/

/-- A value that differs is met only when no other call is between its comparison and its store. Without
listeners it does not matter. -/
def Alone (m : ConfigVar threads V) : Action threads V → Prop
  | .compare _ v => v ≠ m.val → m.cbs ≠ [] → ∀ other, m.phase other = .idle
  | _ => True

/-- What the listeners have been told while a thread stands there. -/
def Told (events : List (Action threads V × Option (Notification V))) (m : ConfigVar threads V) : Phase V → Prop
  | .idle => ∀ listener, ∀ w ∈ heard listener events, w = m.val
  | .notifying v remaining => v ≠ m.val ∧ ∃ called, m.cbs = called ++ remaining ∧
      (∀ listener ∈ called, heard listener events = some v) ∧
      ∀ listener ∉ called, ∀ w ∈ heard listener events, w = m.val
  | .storing v => v ≠ m.val ∧ (∀ listener ∈ m.cbs, heard listener events = some v) ∧
      ∀ listener ∉ m.cbs, heard listener events = none

theorem told_snoc_none {phase : Phase V} : Told (events ++ [(action, none)]) m phase ↔ Told events m phase := by
  cases phase <;> simp [Told]

/-- At most one call is in progress, and the listeners have been told what they are to be told by it. -/
structure Sound (events : List (Action threads V × Option (Notification V))) (m : ConfigVar threads V) : Prop where
  chained : ∀ listener, Chained (received listener events)
  told : ((∀ thread, m.phase thread = .idle) ∧ Told events m .idle) ∨
    ∃ thread, m.phase thread ≠ .idle ∧ (∀ other ≠ thread, m.phase other = .idle) ∧ Told events m (m.phase thread)

theorem Sound.thread (sound : Sound events m) {thread : Fin threads} (busy : m.phase thread ≠ .idle) :
    (∀ other ≠ thread, m.phase other = .idle) ∧ Told events m (m.phase thread) := by
  rcases sound.told with ⟨idle, -⟩ | ⟨one, -, others, told⟩
  · exact absurd (idle thread) busy
  · obtain rfl : thread = one := by
      by_contra ne
      exact busy (others thread ne)
    exact ⟨others, told⟩

/-- A thread that is alone enters a phase of a call. -/
theorem Sound.enter {thread : Fin threads} {phase : Phase V}
    (chained : ∀ listener, Chained (received listener events))
    (busy : phase ≠ .idle) (others : ∀ other ≠ thread, m.phase other = .idle) (told : Told events m phase) :
    Sound events (m.enter thread phase) := by
  refine ⟨chained, .inr ⟨thread, ?_, ?_, ?_⟩⟩
  · rwa [enter_phase_self]
  · intro other ne
    exact (enter_phase_of_ne _ ne).trans (others other ne)
  · rw [enter_phase_self]
    exact told

theorem Sound.acts (sound : Sound events m) (listed : Listed events m) (present : m.cbs ≠ [])
    (alone : Alone m action) (acts : Acts m action given after) : Sound (events ++ [(action, given)]) after := by
  cases acts with
  | same =>
    refine ⟨by simpa using sound.chained, ?_⟩
    rcases sound.told with ⟨idle, told⟩ | ⟨thread, busy, others, told⟩
    · exact .inl ⟨idle, told_snoc_none.mpr told⟩
    · exact .inr ⟨thread, busy, others, told_snoc_none.mpr told⟩
  | @differs thread v idle differs =>
    have quiet := alone differs present
    have told : Told events m .idle := by
      rcases sound.told with ⟨-, told⟩ | ⟨one, busy, -⟩
      · exact told
      · exact absurd (quiet one) busy
    refine Sound.enter (by simpa using sound.chained) nofun (fun other _ => quiet other) ?_
    exact ⟨differs, [], rfl, nofun, fun listener _ => by simpa using told listener⟩
  | @notify thread v listener remaining located =>
    obtain ⟨others, told⟩ := sound.thread (by rw [located]; nofun)
    rw [located] at told
    obtain ⟨differs, called, split, new, old⟩ := told
    have first : listener ∉ called := by
      have nodup := listed.nodup
      rw [split] at nodup
      exact fun member => (List.nodup_append.mp nodup).2.2 _ member _ (List.mem_cons_self ..) rfl
    refine Sound.enter ?_ nofun others ?_
    · intro other
      rcases eq_or_ne other listener with rfl | ne
      · exact (chained_snoc_self _).mpr ⟨sound.chained other, old other first⟩
      · rw [received_snoc_other _ ne]
        exact sound.chained other
    · refine ⟨differs, called ++ [listener], ?_, ?_, ?_⟩
      · rw [List.append_assoc]
        exact split
      · intro other member
        rcases eq_or_ne other listener with rfl | ne
        · exact heard_snoc_self ..
        · rw [heard_snoc_other _ ne]
          refine new other ((List.mem_append.mp member).resolve_right fun last => ?_)
          exact ne (List.mem_singleton.mp last)
      · intro other outside
        obtain ⟨outside, ne⟩ : other ∉ called ∧ other ≠ listener := by simpa using outside
        rw [heard_snoc_other _ ne]
        exact old other outside
  | @unlock thread v located =>
    obtain ⟨others, told⟩ := sound.thread (by rw [located]; nofun)
    rw [located] at told
    obtain ⟨differs, called, split, new, -⟩ := told
    refine Sound.enter (by simpa using sound.chained) nofun others ?_
    refine ⟨differs, fun listener member => ?_, fun listener outside => ?_⟩
    · rw [List.append_nil] at split
      rw [heard_snoc_none]
      exact new listener (split ▸ member)
    · rw [heard_snoc_none, heard, listed.silent listener outside]
      rfl
  | @store thread v located =>
    obtain ⟨others, told⟩ := sound.thread (by rw [located]; nofun)
    rw [located] at told
    obtain ⟨-, new, none⟩ := told
    refine ⟨by simpa using sound.chained, .inl ⟨fun other => ?_, fun listener w told => ?_⟩⟩
    · by_cases same : other = thread
      · subst same
        exact enter_phase_self ..
      · exact (enter_phase_of_ne _ same).trans (others other same)
    · rw [heard_snoc_none] at told
      by_cases member : listener ∈ m.cbs
      · rw [new listener member] at told
        exact (Option.some.inj told).symm
      · rw [none listener member] at told
        cases told

theorem of_path [DecidableEq V] {start : ConfigVar threads V} (init : (machine threads V).Init start)
    (path : (((machine threads V).restrict Alone).observe notification).Path start events m) :
    Listed events m ∧ (m.cbs ≠ [] → Sound events m) := by
  have initial : Listed [] start ∧ (start.cbs ≠ [] → Sound [] start) := by
    refine ⟨⟨init.1, fun thread v remaining located => ?_, fun _ _ => rfl⟩, fun _ => ?_⟩
    · rw [init.2 thread] at located
      cases located
    · exact ⟨fun _ => List.isChain_nil, .inl ⟨init.2, fun _ _ told => nomatch told⟩⟩
  refine path.history (P := fun events m => Listed events m ∧ (m.cbs ≠ [] → Sound events m)) ?_ initial
  rintro before m ⟨action, given⟩ after ⟨listed, sound⟩ ⟨⟨alone, step⟩, shown⟩
  obtain rfl : m.notification action = given := shown
  have acts := acts_of_step step
  obtain ⟨listed', same⟩ := listed.acts acts
  exact ⟨listed', fun present => (sound (same ▸ present)).acts listed (same ▸ present) alone acts⟩

/-! ## Calls that overlap -/

/-- The listener is still to be called by a thread that stands here. -/
def Due (listener : ℕ) : Phase V → Prop
  | .notifying _ remaining => listener ∈ remaining
  | _ => False

/-- A listener that has been told of two changes of one value, or is about to be. -/
structure Doomed (listener : ℕ) (events : List (Action threads V × Option (Notification V)))
    (m : ConfigVar threads V) : Prop where
  differs : ∀ thread v remaining, m.phase thread = .notifying v remaining → v ≠ m.val
  broken : ¬Chained (received listener events) ∨
    (∃ w ∈ heard listener events, w ≠ m.val ∧ ∃ thread, Due listener (m.phase thread)) ∨
    ∃ one two, one ≠ two ∧ Due listener (m.phase one) ∧ Due listener (m.phase two)

/-- A thread that is still to call the listener is elsewhere, or still to call it after the step. -/
theorem due_enter {thread other : Fin threads} {phase : Phase V} (due : Due listener (m.phase other))
    (here : Due listener (m.phase thread) → Due listener phase) :
    Due listener ((m.enter thread phase).phase other) := by
  by_cases same : other = thread
  · subst same
    rw [enter_phase_self]
    exact here due
  · rwa [enter_phase_of_ne _ same]

theorem Doomed.acts (doomed : Doomed listener events m) (acts : Acts m action given after) :
    Doomed listener (events ++ [(action, given)]) after := by
  obtain ⟨differs, broken⟩ := doomed
  have elsewhere {thread : Fin threads} {phase : Phase V}
      (here : ∀ v remaining, phase = .notifying v remaining → v ≠ m.val) :=
    notifying_enter (P := fun v _ => v ≠ m.val) thread differs here
  have stays {thread : Fin threads} {phase : Phase V} (here : Due listener (m.phase thread) → Due listener phase) :
      ¬Chained (received listener (events ++ [(action, none)])) ∨
        (∃ w ∈ heard listener (events ++ [(action, none)]), w ≠ (m.enter thread phase).val ∧
          ∃ other, Due listener ((m.enter thread phase).phase other)) ∨
        ∃ one two, one ≠ two ∧ Due listener ((m.enter thread phase).phase one) ∧
          Due listener ((m.enter thread phase).phase two) := by
    rw [received_snoc_none, heard_snoc_none]
    rcases broken with unchained | ⟨w, told, stale, other, due⟩ | ⟨one, two, ne, first, second⟩
    · exact .inl unchained
    · exact .inr (.inl ⟨w, told, stale, other, due_enter due here⟩)
    · exact .inr (.inr ⟨one, two, ne, due_enter first here, due_enter second here⟩)
  cases acts with
  | same => exact ⟨differs, by simpa using broken⟩
  | @differs thread v idle new =>
    refine ⟨elsewhere fun w remaining same => ?_, stays fun due => ?_⟩
    · cases same
      exact new
    · rw [idle] at due
      exact due.elim
  | @unlock thread v located =>
    refine ⟨elsewhere nofun, stays fun due => ?_⟩
    rw [located] at due
    cases due
  | @store thread v located free =>
    have undue (other : Fin threads) : ¬Due listener (m.phase other) := by
      intro due
      have released := free other
      cases here : m.phase other with
      | notifying =>
        rw [here] at released
        cases released
      | _ =>
        rw [here] at due
        exact due
    refine ⟨fun other w remaining there => ?_, .inl ?_⟩
    · rcases eq_or_ne other thread with rfl | ne
      · rw [enter_phase_self] at there
        cases there
      · rw [enter_phase_of_ne _ ne] at there
        have released := free other
        rw [there] at released
        cases released
    · rw [received_snoc_none]
      rcases broken with unchained | ⟨_, _, _, other, due⟩ | ⟨one, _, _, due, _⟩
      · exact unchained
      · exact absurd due (undue other)
      · exact absurd due (undue one)
  | @notify thread v called remaining located =>
    have new := differs thread v _ located
    refine ⟨elsewhere fun w rest same => ?_, ?_⟩
    · cases same
      exact new
    · by_cases same : listener = called
      · subst same
        rw [chained_snoc_self]
        rcases broken with unchained | ⟨w, told, stale, other, due⟩ | ⟨one, two, ne, first, second⟩
        · exact .inl fun both => unchained both.1
        · exact .inl fun both => stale (both.2 w told)
        · refine .inr (.inl ⟨v, by rw [heard_snoc_self]; rfl, new, ?_⟩)
          by_cases here : one = thread
          · subst here
            exact ⟨two, by rwa [enter_phase_of_ne _ (Ne.symm ne)]⟩
          · exact ⟨one, by rwa [enter_phase_of_ne _ here]⟩
      · have here : Due listener (m.phase thread) → Due listener (.notifying v remaining) := by
          rw [located]
          exact fun member => (List.mem_cons.mp member).resolve_left same
        rw [received_snoc_other _ same, heard_snoc_other _ same]
        rcases broken with unchained | ⟨w, told, stale, other, due⟩ | ⟨one, two, ne, first, second⟩
        · exact .inl unchained
        · exact .inr (.inl ⟨w, told, stale, other, due_enter due here⟩)
        · exact .inr (.inr ⟨one, two, ne, due_enter first here, due_enter second here⟩)

/-- A call that meets another value while one is in progress is to tell every listener of a second change of it. -/
theorem Sound.doomed [DecidableEq V] (sound : Sound events m) (step : (machine threads V).Step m action after)
    (overlaps : ¬Alone m action) (member : listener ∈ m.cbs) :
    m.notification action = none ∧ Doomed listener (events ++ [(action, none)]) after := by
  have acts := acts_of_step step
  cases action with
  | compare thread v =>
    simp only [Alone, Classical.not_imp, not_forall] at overlaps
    obtain ⟨new, -, other, busy⟩ := overlaps
    have given : m.notification (.compare thread v) = none := rfl
    rw [given] at acts
    refine ⟨given, ?_⟩
    cases acts with
    | same => exact absurd rfl new
    | differs idle =>
      obtain ⟨others, told⟩ := sound.thread busy
      have ne : other ≠ thread := fun same => busy (same ▸ idle)
      have due : Due listener ((m.enter thread (.notifying v m.cbs)).phase thread) := by
        rw [enter_phase_self]
        exact member
      refine ⟨fun one w remaining located => ?_, .inr ?_⟩
      · by_cases here : one = thread
        · subst here
          rw [enter_phase_self] at located
          cases located
          exact new
        · rw [enter_phase_of_ne _ here] at located
          obtain rfl : one = other := by
            by_contra elsewhere
            rw [others one elsewhere] at located
            cases located
          rw [located] at told
          exact told.1
      · rw [heard_snoc_none]
        cases there : m.phase other with
        | idle => exact absurd there busy
        | notifying w remaining =>
          rw [there] at told
          obtain ⟨stale, called, split, new, -⟩ := told
          rcases List.mem_append.mp (split ▸ member) with past | later
          · exact .inl ⟨w, new listener past, stale, thread, due⟩
          · refine .inr ⟨other, thread, ne, ?_, due⟩
            rw [enter_phase_of_ne _ ne, there]
            exact later
        | storing w =>
          rw [there] at told
          exact .inl ⟨w, told.2.1 listener member, told.1, thread, due⟩
  | _ => exact absurd trivial overlaps

/-! ## The result -/

/-- Every listener has been told of changes that follow each other, and, when no call is in progress, of the
present value last. -/
def Agrees (events : List (Action threads V × Option (Notification V))) (m : ConfigVar threads V) : Prop :=
  ∀ listener, Chained (received listener events) ∧
    ((∀ thread, m.phase thread = .idle) → ∀ n ∈ (received listener events).getLast?, n.new_value = m.val)

/-- In a run whose calls do not overlap from the comparison on, the listeners agree with the variable in every
state. After the first call that does overlap with another, no listener does when all calls have returned. -/
theorem listeners_agree [DecidableEq V] {start : ConfigVar threads V} (init : (machine threads V).Init start)
    (path : (((machine threads V).restrict Alone).observe notification).Path start events m) :
    Agrees events m ∧
    ∀ action mid later after, (machine threads V).Step m action mid → ¬Alone m action →
      ((machine threads V).observe notification).Path mid later after → (∀ thread, after.phase thread = .idle) →
      ∀ listener ∈ m.cbs, ¬Chained (received listener (events ++ (action, m.notification action) :: later)) := by
  obtain ⟨listed, sound⟩ := of_path init path
  refine ⟨fun listener => ?_, fun action mid later after step overlaps rest quiet listener member => ?_⟩
  · by_cases silent : m.cbs = []
    · have nothing := listed.silent listener (silent ▸ List.not_mem_nil)
      rw [nothing]
      exact ⟨List.isChain_nil, fun _ _ last => nomatch last⟩
    · refine ⟨(sound silent).chained listener, fun quiet n last => ?_⟩
      rcases (sound silent).told with ⟨-, told⟩ | ⟨one, busy, -⟩
      · exact told listener n.new_value (Option.map_eq_some_iff.mpr ⟨n, last, rfl⟩)
      · exact absurd (quiet one) busy
  · obtain ⟨given, doomed⟩ := (sound (List.ne_nil_of_mem member)).doomed step overlaps member
    have last : Doomed listener (events ++ [(action, none)] ++ later) after := by
      refine rest.history (P := Doomed listener) ?_ doomed
      rintro before m ⟨action, given⟩ after doomed ⟨step, shown⟩
      obtain rfl : m.notification action = given := shown
      exact doomed.acts (acts_of_step step)
    rw [given, List.append_cons]
    refine last.broken.resolve_right ?_
    rintro (⟨_, _, _, other, due⟩ | ⟨other, _, _, due, _⟩)
    · rw [quiet other] at due
      exact due
    · rw [quiet other] at due
      exact due

/-- Two changes one after the other, with two listeners. -/
theorem listeners_agree_two : ∃ (start m : ConfigVar 2 ℤ) (events : _),
    (((machine 2 ℤ).restrict Alone).observe notification).Path start events m ∧ Agrees events m ∧
      received 7 events = [⟨7, 0, 1⟩, ⟨7, 1, 2⟩] ∧ m.val = 2 := by
  have path : (((machine 2 ℤ).restrict Alone).observe notification).Path (new 0 [3, 7])
      [(.compare 0 1, none), (.notify 0, some ⟨3, 0, 1⟩), (.notify 0, some ⟨7, 0, 1⟩), (.unlock 0, none),
        (.store 0, none), (.compare 1 2, none), (.notify 1, some ⟨3, 1, 2⟩), (.notify 1, some ⟨7, 1, 2⟩),
        (.unlock 1, none), (.store 1, none)] _ :=
    .cons ⟨⟨fun _ _ _ => rfl, rfl⟩, rfl⟩ <| .cons ⟨⟨trivial, rfl⟩, rfl⟩ <| .cons ⟨⟨trivial, rfl⟩, rfl⟩ <|
      .cons ⟨⟨trivial, rfl⟩, rfl⟩ <| .cons ⟨⟨trivial, rfl⟩, rfl⟩ <|
      .cons ⟨⟨fun _ _ => by decide, rfl⟩, rfl⟩ <| .cons ⟨⟨trivial, rfl⟩, rfl⟩ <| .cons ⟨⟨trivial, rfl⟩, rfl⟩ <|
      .cons ⟨⟨trivial, rfl⟩, rfl⟩ <| .cons ⟨⟨trivial, rfl⟩, rfl⟩ <| .nil _
  exact ⟨_, _, _, path, (listeners_agree ⟨by decide, fun _ => rfl⟩ path).1, rfl, rfl⟩

/-- Two threads set 1 and 2 at once: the listener is told 2 last, and 1 is stored last. -/
theorem not_agrees : ∃ (m : ConfigVar 2 ℤ) (events : _),
    ((machine 2 ℤ).observe notification).Path (new 0 [7]) events m ∧ (machine 2 ℤ).Init (new 0 [7]) ∧
      (∀ thread, m.phase thread = .idle) ∧ received 7 events = [⟨7, 0, 1⟩, ⟨7, 0, 2⟩] ∧ m.val = 1 ∧
      ¬Agrees events m := by
  have path : ((machine 2 ℤ).observe notification).Path (new 0 [7])
      [(.compare 0 1, none), (.compare 1 2, none), (.notify 0, some ⟨7, 0, 1⟩), (.notify 1, some ⟨7, 0, 2⟩),
        (.unlock 0, none), (.unlock 1, none), (.store 1, none), (.store 0, none)] _ :=
    .cons ⟨rfl, rfl⟩ <| .cons ⟨rfl, rfl⟩ <| .cons ⟨rfl, rfl⟩ <| .cons ⟨rfl, rfl⟩ <| .cons ⟨rfl, rfl⟩ <|
      .cons ⟨rfl, rfl⟩ <| .cons ⟨rfl, rfl⟩ <| .cons ⟨rfl, rfl⟩ <| .nil _
  refine ⟨_, _, path, ⟨by decide, fun _ => rfl⟩, by decide, rfl, rfl, fun agrees => ?_⟩
  have last := (agrees 7).2 (by decide) ⟨7, 0, 2⟩ rfl
  exact absurd last (by decide)

end Sylar.ConfigVar
