import Sylar.Model.FdTable
import Sylar.ToMathlib.IntOf

/-! # When the table only grows

A thread that has found the table too short resizes it to what its own descriptor needs, whatever other
threads have done to it in between, and the size is compared as an `int`. As long as a resize is neither
below the present size nor too large for an `int`, the table is extended and every context stays where
it is found; otherwise one is lost at once.
-/

namespace Sylar.FdTable

open IOManager (Event READ)

variable {m after : FdTable} {thread fd : ℕ} {event : Event} {action : Action}

/-- A resize does not go below the present size and stays in the range of an `int`. -/
def Keeps (m : FdTable) : Action → Prop
  | .grow thread => ∀ fd event, m.phase thread = .growing fd event →
      m.fdContexts.length ≤ fd * 3 / 2 ∧ fd * 3 / 2 < 2 ^ 31
  | _ => True

/-! ## Sizes -/

theorem length_contextResize (size : ℕ) (m : FdTable) :
    (m.contextResize size).fdContexts.length = size := by
  simp only [contextResize, List.length_append, List.length_take, List.length_range']
  omega

/-- A resize that does not shrink extends the table. -/
theorem prefix_contextResize {size : ℕ} (grows : m.fdContexts.length ≤ size) :
    m.fdContexts <+: (m.contextResize size).fdContexts := by
  rw [contextResize, List.take_of_length_le grows]
  exact List.prefix_append _ _

theorem intSize_of_lt (small : m.fdContexts.length < 2 ^ 31) : m.intSize = m.fdContexts.length :=
  intOf_of_lt small

/-- A table too large for an `int` counts as empty. -/
theorem intSize_neg (large : 2 ^ 31 ≤ m.fdContexts.length) (bounded : m.fdContexts.length < 2 ^ 32) :
    m.intSize < 0 :=
  intOf_neg large bounded

theorem find_eq (small : m.fdContexts.length < 2 ^ 31) (fd : ℕ) : m.find fd = m.fdContexts[fd]? := by
  rw [find, intSize_of_lt small]
  split_ifs with past
  · exact (List.getElem?_eq_none (by exact_mod_cast past)).symm
  · rfl

/-! ## Threads -/

/-- What a thread that stands in a call knows: the descriptor it grows for is an `int`, and the context it
holds is the one in the table. -/
def Phase.Valid (m : FdTable) : Phase → Prop
  | .growing fd _ => fd < 2 ^ 31
  | .adding fd _ ctx => fd < m.fdContexts.length ∧ ctx = m.fdContexts[fd]?
  | _ => True

/-- The table has at least its first size and fits an `int`, and every thread is right about it. -/
structure Sound (m : FdTable) : Prop where
  least : 32 ≤ m.fdContexts.length
  small : m.fdContexts.length < 2 ^ 31
  valid : ∀ thread, (m.phase thread).Valid m

/-- What is known of a table is known of one that extends it. -/
theorem Phase.Valid.mono {phase : Phase} (valid : phase.Valid m)
    (extended : m.fdContexts <+: after.fdContexts) : phase.Valid after := by
  cases phase with
  | growing fd event => exact valid
  | adding fd event ctx =>
    obtain ⟨inside, here⟩ := valid
    obtain ⟨new, extended⟩ := extended
    rw [Phase.Valid, ← extended, List.getElem?_append_left inside, List.length_append]
    exact ⟨Nat.lt_add_right _ inside, here⟩
  | idle => trivial
  | taking call ctx => trivial

theorem Sound.enter (sound : Sound m) {phase : Phase} (valid : phase.Valid m) : Sound (m.enter thread phase) where
  least := sound.least
  small := sound.small
  valid := by
    intro other
    rcases eq_or_ne other thread with rfl | different
    · exact (congrArg (Phase.Valid m) (Function.update_self _ _ _)).mpr valid
    · exact (congrArg (Phase.Valid m) (Function.update_of_ne different _ _)).mpr (sound.valid other)

theorem Sound.setEvents (sound : Sound m) (ctx : FdContextPtr) (events : BitVec 32) :
    Sound (m.setEvents ctx events) := { sound with }

/-- A thread that may grow the table extends it. -/
theorem Sound.grow (sound : Sound m) (valid : fd < 2 ^ 31)
    (keeps : m.fdContexts.length ≤ fd * 3 / 2 ∧ fd * 3 / 2 < 2 ^ 31) : Sound (m.grow thread fd event) := by
  have least := sound.least
  have grown : Sound (m.contextResize (fd * 3 / 2)) := {
    least := by rw [length_contextResize]; omega
    small := by rw [length_contextResize]; exact keeps.2
    valid := fun other => (sound.valid other).mono (prefix_contextResize keeps.1) }
  exact grown.enter ⟨by rw [length_contextResize]; omega, rfl⟩

/-- Only a thread that has found the table too short grows it, for a descriptor that is an `int`. -/
theorem Sound.growing (sound : Sound m) (step : machine.Step m (.grow thread) after) :
    ∃ fd event, m.phase thread = .growing fd event ∧ fd < 2 ^ 31 ∧ after = m.grow thread fd event := by
  have ran : m.perform (.grow thread) = some after := step
  rw [perform] at ran
  split at ran
  next fd event located =>
    cases ran
    have valid := sound.valid thread
    rw [located] at valid
    exact ⟨fd, event, located, valid, rfl⟩
  next => cases ran

/-- What a step leaves of the table. -/
theorem Sound.step (sound : Sound m) (keeps : Keeps m action) (step : machine.Step m action after) :
    Sound after ∧ m.fdContexts <+: after.fdContexts := by
  have ran : m.perform action = some after := step
  cases action with
  | check thread fd event =>
    rw [perform] at ran
    split_ifs at ran with idle
    cases ran
    rw [check]
    split_ifs with inside
    · rw [intSize_of_lt sound.small] at inside
      exact ⟨sound.enter ⟨by exact_mod_cast inside, rfl⟩, List.prefix_refl _⟩
    · exact ⟨sound.enter idle.2, List.prefix_refl _⟩
  | grow thread =>
    obtain ⟨fd, event, located, valid, rfl⟩ := sound.growing step
    have keeps := keeps fd event located
    exact ⟨sound.grow valid keeps, prefix_contextResize keeps.1⟩
  | register thread granted =>
    rw [perform] at ran
    split at ran
    next =>
      split_ifs at ran
      · cases ran
        exact ⟨(sound.setEvents _ _).enter trivial, List.prefix_refl _⟩
      · cases ran
        exact ⟨sound.enter trivial, List.prefix_refl _⟩
    next => cases ran
  | find thread fd call =>
    rw [perform] at ran
    split_ifs at ran
    split at ran
    · cases ran
      exact ⟨sound.enter trivial, List.prefix_refl _⟩
    · cases ran
      exact ⟨sound, List.prefix_refl _⟩
  | take thread granted =>
    rw [perform] at ran
    split at ran
    next =>
      split_ifs at ran
      · cases ran
        exact ⟨sound.enter trivial, List.prefix_refl _⟩
      · cases ran
        exact ⟨(sound.setEvents _ _).enter trivial, List.prefix_refl _⟩
    next => cases ran
  | dispatch ctx real granted =>
    rw [perform] at ran
    split_ifs at ran
    · cases ran
      exact ⟨sound, List.prefix_refl _⟩
    · cases ran
      exact ⟨sound.setEvents _ _, List.prefix_refl _⟩

theorem sound_of_reachable (reached : (machine.restrict Keeps).Reachable m) : Sound m := by
  apply reached.invariant (P := Sound)
  · rintro _ rfl
    exact ⟨by decide, by decide, fun _ => trivial⟩
  · intro m action after sound step
    exact (sound.step step.1 step.2).1

theorem Sound.path (sound : Sound m) {actions : List Action}
    (path : (machine.restrict Keeps).Path m actions after) : Sound after ∧ m.fdContexts <+: after.fdContexts := by
  induction path with
  | nil => exact ⟨sound, List.prefix_refl _⟩
  | cons step _ ih =>
    obtain ⟨next, extended⟩ := sound.step step.1 step.2
    obtain ⟨done, extended'⟩ := ih next
    exact ⟨done, extended.trans extended'⟩

/-- In every run in which no resize goes below the present size or past the range of an `int`, the table
never shrinks, every context stored is the one found for its descriptor ever after, and the context that
`addEvent` goes on to register with is the one found. A resize that does one of the two loses a context
on the spot. -/
theorem fdContexts_kept (m : FdTable) (reached : (machine.restrict Keeps).Reachable m) :
    (∀ actions after, (machine.restrict Keeps).Path m actions after →
      m.fdContexts.length ≤ after.fdContexts.length ∧
      ∀ fd ctx, m.fdContexts[fd]? = some ctx → after.find fd = some ctx) ∧
    (∀ thread fd event ctx, m.phase thread = .adding fd event ctx →
      ctx.isSome ∧ m.find fd = ctx) ∧
    ∀ thread after, machine.Step m (.grow thread) after → ¬ Keeps m (.grow thread) →
      after.fdContexts.length < m.fdContexts.length ∨
      ∃ fd ctx, m.find fd = some ctx ∧ after.find fd ≠ some ctx := by
  have sound := sound_of_reachable reached
  refine ⟨?_, ?_, ?_⟩
  · intro actions after path
    obtain ⟨done, extended⟩ := sound.path path
    refine ⟨extended.length_le, fun fd ctx here => ?_⟩
    obtain ⟨new, extended⟩ := extended
    have inside := (List.getElem?_eq_some_iff.mp here).1
    rw [find_eq done.small, ← extended, List.getElem?_append_left inside, here]
  · intro thread fd event ctx located
    have valid := sound.valid thread
    rw [located] at valid
    obtain ⟨inside, rfl⟩ := valid
    rw [find_eq sound.small, List.getElem?_eq_getElem inside]
    exact ⟨rfl, rfl⟩
  · intro thread after step loses
    obtain ⟨fd, event, located, valid, rfl⟩ := sound.growing step
    have length : (m.grow thread fd event).fdContexts.length = fd * 3 / 2 := length_contextResize _ _
    rcases Nat.lt_or_ge (fd * 3 / 2) m.fdContexts.length with shrinks | grows
    · exact Or.inl (length ▸ shrinks)
    · have large : 2 ^ 31 ≤ fd * 3 / 2 := by
        by_contra small
        refine loses fun fd' event' located' => ?_
        cases located.symm.trans located'
        exact ⟨grows, Nat.lt_of_not_le small⟩
      have negative := intSize_neg (length ▸ large) (by rw [length]; omega)
      have first := List.getElem?_eq_getElem (Nat.lt_of_lt_of_le (by decide : 0 < 32) sound.least)
      refine Or.inr ⟨0, _, (find_eq sound.small 0).trans first, ?_⟩
      rw [find, if_pos (by exact_mod_cast Int.le_of_lt negative)]
      nofun

/-- One thread grows the table for a descriptor and finds its context there ever after. -/
theorem fdContexts_kept_one : ∃ m, (machine.restrict Keeps).Reachable m ∧ m.fdContexts.length = 60 ∧
    ∀ actions after, (machine.restrict Keeps).Path m actions after → after.find 40 = some 40 := by
  have start : (machine.restrict Keeps).Reachable new := .init rfl
  have check : machine.Step new (.check 0 40 .read) (new.check 0 40 .read) := rfl
  have checked := start.restrict_step check trivial
  have grow : machine.Step (new.check 0 40 .read) (.grow 0) ((new.check 0 40 .read).grow 0 40 .read) := rfl
  have grown := checked.restrict_step grow fun fd event located => by
    cases located
    decide
  refine ⟨_, grown, by decide +kernel, fun actions after path => ?_⟩
  exact ((fdContexts_kept _ grown).1 actions after path).2 40 40 (by decide +kernel)

/-- Two threads find the table too short, for descriptors 100 and 40. The first grows it and registers an
event, then the second resizes it to what 40 needs, and the context of 100 is gone with its event. -/
theorem fdContexts_lost : ∃ m after, machine.Reachable m ∧ m.find 100 = some 100 ∧
    m.events 100 = READ ∧ machine.Step m (.grow 1) after ∧ m.fdContexts.length = 150 ∧
    after.fdContexts.length = 60 ∧ after.find 100 = none ∧ after.events 100 = READ := by
  have shown : ([Action.check 0 100 .read, .check 1 40 .read, .grow 0, .register 0 true].foldlM perform
      new).map (fun m => decide (m.phase 1 = .growing 40 .read ∧ m.find 100 = some 100 ∧
        m.events 100 = READ ∧ m.fdContexts.length = 150 ∧ (m.grow 1 40 .read).fdContexts.length = 60 ∧
        (m.grow 1 40 .read).find 100 = none)) = some true := by decide +kernel
  obtain ⟨m, path, facts⟩ := Machine.Path.exists_ofNext (· = new) shown
  obtain ⟨located, found, registered, length, length', lost⟩ := of_decide_eq_true facts
  have ran : machine.Step m (.grow 1) (m.grow 1 40 .read) := by
    change m.perform (.grow 1) = _
    rw [perform, located]
  exact ⟨m, _, ⟨new, _, rfl, path⟩, found, registered, ran, length, length', lost, registered⟩

end Sylar.FdTable
