import Mathlib.Tactic.SplitIfs
import Sylar.Model.FdManager

/-! # When a descriptor has one context

Between the read lock and the write lock nothing keeps the slot as it was seen, and readers resize the
table side by side. As long as a context is stored into an empty slot only and a resize does not shrink
the table or leave the range of an `int`, the first context of a descriptor is the one every later call
returns.
-/

namespace Sylar.FdManager

variable {m after : FdManager} {thread fd : ℕ} {action : Action}

/-- A slot is empty when a context is stored into it; a resize does not go below the present size and stays
in the range of an `int`. -/
def Keeps (m : FdManager) : Action → Prop
  | .resize thread => ∀ fd, m.phase thread = .resizing fd → m.datas.length ≤ fd * 3 / 2 ∧ fd * 3 / 2 < 2 ^ 31
  | .store thread => ∀ fd, m.phase thread = .storing fd → m.datas[fd]? = some none
  | _ => True

/-- What the calls have returned, in this order. -/
def answers (events : List (Action × Option Answer)) : List Answer := events.filterMap Prod.snd

/-! ## The table -/

theorem intSize_of_lt (small : m.datas.length < 2 ^ 31) : m.intSize = m.datas.length := intOf_of_lt small

theorem length_resize (size : ℕ) (m : FdManager) : (m.resize size).datas.length = size := by
  simp only [resize, List.length_append, List.length_take, List.length_replicate]
  omega

/-- A resize that does not shrink extends the table. -/
theorem prefix_resize {size : ℕ} (grows : m.datas.length ≤ size) : m.datas <+: (m.resize size).datas := by
  rw [resize, List.take_of_length_le grows]
  exact List.prefix_append _ _

/-- `after` has the contexts of `m` in their slots, and no fewer slots. -/
structure Extends (m after : FdManager) : Prop where
  longer : m.datas.length ≤ after.datas.length
  kept : ∀ (fd : ℕ) ctx, m.datas[fd]? = some (some ctx) → after.datas[fd]? = some (some ctx)

namespace Extends

theorem of_eq (same : after.datas = m.datas) : Extends m after where
  longer := Nat.le_of_eq (congrArg List.length same.symm)
  kept fd ctx here := by rw [same, here]

theorem resize {size : ℕ} (grows : m.datas.length ≤ size) : Extends m (m.resize size) where
  longer := (prefix_resize grows).length_le
  kept fd ctx here := by
    obtain ⟨new, extended⟩ := prefix_resize grows
    have inside := (List.getElem?_eq_some_iff.mp here).1
    rw [← extended, List.getElem?_append_left inside, here]

theorem store (empty : m.datas[fd]? = some none) : Extends m (m.store fd) where
  longer := Nat.le_of_eq List.length_set.symm
  kept other ctx here := by
    have different : fd ≠ other := by
      rintro rfl
      cases empty.symm.trans here
    exact (List.getElem?_set_ne different).trans here

end Extends

/-! ## Threads -/

/-- Every slot a thread is about to look at or fill is in the table. -/
def Phase.Valid (size : ℕ) : Phase → Prop
  | .idle => True
  | .resizing fd => 64 ≤ fd ∧ fd < 2 ^ 31
  | .testing fd _ => fd < size
  | .storing fd => fd < size

/-- The table has at least its first size and fits an `int`, and every thread is right about it. -/
structure Sound (m : FdManager) : Prop where
  least : 64 ≤ m.datas.length
  small : m.datas.length < 2 ^ 31
  valid : ∀ thread, (m.phase thread).Valid m.datas.length

theorem Phase.Valid.mono {phase : Phase} {size larger : ℕ} (valid : phase.Valid size) (grows : size ≤ larger) :
    phase.Valid larger := by
  cases phase with
  | idle => trivial
  | resizing fd => exact valid
  | testing fd auto_create => exact Nat.lt_of_lt_of_le valid grows
  | storing fd => exact Nat.lt_of_lt_of_le valid grows

/-- A step of a thread with what it returns, if it is the last of its call. -/
inductive Acts (m : FdManager) : Action → Option Answer → FdManager → Prop
  | past {thread fd : ℕ} : m.intSize ≤ fd → Acts m (.check thread fd false) (some ⟨fd, false, none⟩) m
  | short {thread fd : ℕ} : m.intSize ≤ fd → fd < 2 ^ 31 →
      Acts m (.check thread fd true) none (m.lock.enter thread (.resizing fd))
  | inside {thread fd : ℕ} {auto_create : Bool} : ¬ m.intSize ≤ fd →
      Acts m (.check thread fd auto_create) none (m.lock.enter thread (.testing fd auto_create))
  | resize {thread fd : ℕ} : m.phase thread = .resizing fd → Acts m (.resize thread) none
      ((m.resize (fd * 3 / 2)).unlock.enter thread (.storing fd))
  | found {thread fd : ℕ} {auto_create : Bool} {slot : Option FdCtxPtr} :
      m.phase thread = .testing fd auto_create → m.datas[fd]? = some slot → slot ≠ none ∨ auto_create = false →
      Acts m (.test thread) (some ⟨fd, auto_create, slot⟩) (m.unlock.enter thread .idle)
  | missing {thread fd : ℕ} {auto_create : Bool} : m.phase thread = .testing fd auto_create →
      m.datas[fd]? = some none → Acts m (.test thread) none (m.unlock.enter thread (.storing fd))
  | store {thread fd : ℕ} : m.phase thread = .storing fd → m.readers = 0 → fd < m.datas.length →
      Acts m (.store thread) (some ⟨fd, true, some m.made⟩) ((m.store fd).enter thread .idle)

theorem acts_of_step (step : machine.Step m action after) : Acts m action (m.answer action) after := by
  have ran : m.perform action = some after := step
  cases action with
  | check thread fd auto_create =>
    simp only [perform, answer] at ran ⊢
    split_ifs at ran with idle past looking
    · cases ran
      subst looking
      rw [if_pos ⟨past, rfl⟩]
      exact .past past
    · cases ran
      rw [if_neg fun both => looking both.2]
      rw [eq_true_of_ne_false looking]
      exact .short past idle.2
    · cases ran
      rw [if_neg fun both => past both.1]
      exact .inside past
  | resize thread =>
    simp only [perform, answer] at ran ⊢
    split at ran
    next fd located =>
      cases ran
      exact .resize located
    next => cases ran
  | test thread =>
    simp only [perform, answer] at ran ⊢
    split at ran
    next fd auto_create located =>
      split at ran
      next => cases ran
      next slot here =>
        split_ifs at ran ⊢ with found
        · cases ran
          exact .found located here found
        · cases ran
          rw [not_or, not_not] at found
          exact .missing located (found.1 ▸ here)
    next => cases ran
  | store thread =>
    simp only [perform, answer] at ran ⊢
    split at ran
    next fd located =>
      split_ifs at ran with free
      cases ran
      exact .store located free.1 free.2
    next => cases ran

namespace Sound

/-- A thread goes on, with the table at least as long as before. -/
theorem move (sound : Sound m) {phase : Phase} (longer : m.datas.length ≤ after.datas.length)
    (small : after.datas.length < 2 ^ 31) (phases : after.phase = Function.update m.phase thread phase)
    (valid : phase.Valid after.datas.length) : Sound after where
  least := Nat.le_trans sound.least longer
  small := small
  valid := by
    intro other
    rw [phases]
    rcases eq_or_ne other thread with rfl | different
    · rwa [Function.update_self]
    · rw [Function.update_of_ne different]
      exact (sound.valid other).mono longer

/-- What a step leaves of the table. -/
theorem acts {answer : Option Answer} (sound : Sound m) (keeps : Keeps m action)
    (acts : Acts m action answer after) : Sound after ∧ Extends m after := by
  have least := sound.least
  have size := intSize_of_lt sound.small
  cases acts with
  | past _ => exact ⟨sound, .of_eq rfl⟩
  | short past isInt =>
    rw [size] at past
    have large : 64 ≤ _ := Nat.le_trans least (by exact_mod_cast past)
    exact ⟨sound.move (Nat.le_refl _) sound.small rfl ⟨large, isInt⟩, .of_eq rfl⟩
  | inside past =>
    rw [size] at past
    exact ⟨sound.move (Nat.le_refl _) sound.small rfl (by exact_mod_cast Int.not_le.mp past), .of_eq rfl⟩
  | @resize thread fd located =>
    have large := sound.valid thread
    rw [located] at large
    have large : 64 ≤ fd := large.1
    obtain ⟨grows, small⟩ := keeps fd located
    have extended := Extends.resize grows
    have length := length_resize (fd * 3 / 2) m
    refine ⟨sound.move extended.longer ?_ rfl ?_, extended.longer, extended.kept⟩
    · exact length.symm ▸ small
    · change fd < (m.resize (fd * 3 / 2)).datas.length
      omega
  | found _ _ _ => exact ⟨sound.move (Nat.le_refl _) sound.small rfl trivial, .of_eq rfl⟩
  | missing located here =>
    have inside := (List.getElem?_eq_some_iff.mp here).1
    exact ⟨sound.move (Nat.le_refl _) sound.small rfl inside, .of_eq rfl⟩
  | @store thread fd located _ inside =>
    have extended := Extends.store (keeps fd located)
    have length : (m.store fd).datas.length = m.datas.length := List.length_set
    exact ⟨sound.move extended.longer (length.symm ▸ sound.small) rfl trivial,
      extended.longer, extended.kept⟩

end Sound

/-! ## Answers -/

/-- Every context in the table has been returned by a call that could make it, and every such call has
returned the context that is in the table. -/
structure Answered (given : List Answer) (m : FdManager) : Prop where
  fresh : ∀ (fd : ℕ) ctx, m.datas[fd]? = some (some ctx) → ctx < m.made
  stored : ∀ (fd : ℕ) ctx, m.datas[fd]? = some (some ctx) → ⟨fd, true, some ctx⟩ ∈ given
  made : ∀ a ∈ given, a.auto_create = true → ∃ ctx, a.ctx = some ctx ∧ m.datas[a.fd]? = some (some ctx)
  same : given.Pairwise fun a b => a.auto_create = true → b.fd = a.fd → b.ctx = a.ctx

/-- A resize makes no context. -/
theorem of_resize {size ctx : ℕ} (here : (m.resize size).datas[fd]? = some (some ctx)) :
    m.datas[fd]? = some (some ctx) := by
  change (m.datas.take size ++ List.replicate _ none)[fd]? = _ at here
  rw [List.getElem?_append] at here
  split_ifs at here
  · rw [List.getElem?_take] at here
    split_ifs at here
    exact here
  · rw [List.getElem?_replicate] at here
    split_ifs at here
    cases here

namespace Answered

variable {given : List Answer}

/-- A step that neither makes a context nor returns. -/
theorem move (answered : Answered given m) (extended : Extends m after) (made : after.made = m.made)
    (old : ∀ fd ctx : ℕ, after.datas[fd]? = some (some ctx) → m.datas[fd]? = some (some ctx)) :
    Answered given after where
  fresh fd ctx here := made ▸ answered.fresh fd ctx (old fd ctx here)
  stored fd ctx here := answered.stored fd ctx (old fd ctx here)
  made a member auto := by
    obtain ⟨ctx, same, here⟩ := answered.made a member auto
    exact ⟨ctx, same, extended.kept _ _ here⟩
  same := answered.same

/-- A call returns what is in the slot, which it may only leave empty if it is not to fill it. -/
theorem answer {b : Answer} (answered : Answered given m)
    (made : b.auto_create = true → b.ctx ≠ none) (found : ∀ ctx, b.ctx = some ctx → m.datas[b.fd]? = some (some ctx))
    (missed : b.ctx = none → ∀ ctx, m.datas[b.fd]? ≠ some (some ctx)) : Answered (given ++ [b]) m where
  fresh := answered.fresh
  stored fd ctx here := List.mem_append_left _ (answered.stored fd ctx here)
  made := by
    intro a member auto
    rcases List.mem_append.mp member with old | new
    · exact answered.made a old auto
    · obtain rfl := List.mem_singleton.mp new
      obtain ⟨ctx, same⟩ := Option.ne_none_iff_exists'.mp (made auto)
      exact ⟨ctx, same, found ctx same⟩
  same := by
    refine List.pairwise_append.mpr ⟨answered.same, List.pairwise_singleton _ _, ?_⟩
    intro a member c new auto sameFd
    obtain rfl := List.mem_singleton.mp new
    obtain ⟨ctx, same, here⟩ := answered.made a member auto
    rw [← sameFd] at here
    cases other : c.ctx with
    | none => exact absurd here (missed other ctx)
    | some ctx' =>
      have stored := found ctx' other
      rw [same, Option.some.inj (Option.some.inj (here.symm.trans stored))]

theorem acts {answer : Option Answer} (answered : Answered given m) (sound : Sound m) (keeps : Keeps m action)
    (acts : Acts m action answer after) : Answered (given ++ answer.toList) after := by
  cases acts with
  | @past thread fd past =>
    rw [intSize_of_lt sound.small] at past
    refine answered.answer nofun nofun fun _ ctx here => ?_
    have inside : fd < m.datas.length := (List.getElem?_eq_some_iff.mp here).1
    exact absurd past (Int.not_le.mpr (by exact_mod_cast inside))
  | short _ _ => exact (List.append_nil given).symm ▸ answered.move (.of_eq rfl) rfl fun _ _ => id
  | inside _ => exact (List.append_nil given).symm ▸ answered.move (.of_eq rfl) rfl fun _ _ => id
  | resize located =>
    obtain ⟨grows, _⟩ := keeps _ located
    have extended := Extends.resize grows
    exact (List.append_nil given).symm ▸
      answered.move ⟨extended.longer, extended.kept⟩ rfl fun _ _ => of_resize
  | found located here found =>
    refine Answered.move (answered.answer ?_ ?_ ?_) (.of_eq rfl) rfl fun _ _ => id
    · rintro auto
      exact found.resolve_right (ne_of_eq_of_ne auto nofun)
    · rintro ctx rfl
      exact here
    · rintro rfl ctx other
      cases here.symm.trans other
  | missing _ _ => exact (List.append_nil given).symm ▸ answered.move (.of_eq rfl) rfl fun _ _ => id
  | @store thread fd located _ inside =>
    have empty := keeps fd located
    have extended := Extends.store empty
    have new : (m.datas.set fd (some m.made))[fd]? = some (some m.made) := List.getElem?_set_self inside
    exact {
      fresh := by
        intro other ctx here
        change (m.datas.set fd (some m.made))[other]? = _ at here
        rcases eq_or_ne fd other with rfl | different
        · obtain rfl := Option.some.inj (Option.some.inj (new.symm.trans here))
          exact Nat.lt_succ_self _
        · rw [List.getElem?_set_ne different] at here
          exact Nat.lt_succ_of_lt (answered.fresh other ctx here)
      stored := by
        intro other ctx here
        change (m.datas.set fd (some m.made))[other]? = _ at here
        rcases eq_or_ne fd other with rfl | different
        · obtain rfl := Option.some.inj (Option.some.inj (new.symm.trans here))
          exact List.mem_append_right _ (List.mem_singleton_self _)
        · rw [List.getElem?_set_ne different] at here
          exact List.mem_append_left _ (answered.stored other ctx here)
      made := by
        intro a member auto
        rcases List.mem_append.mp member with old | added
        · obtain ⟨ctx, same, here⟩ := answered.made a old auto
          exact ⟨ctx, same, extended.kept _ _ here⟩
        · obtain rfl := List.mem_singleton.mp added
          exact ⟨m.made, rfl, new⟩
      same := by
        refine List.pairwise_append.mpr ⟨answered.same, List.pairwise_singleton _ _, ?_⟩
        intro a member b added auto sameFd
        obtain rfl := List.mem_singleton.mp added
        obtain ⟨ctx, _, here⟩ := answered.made a member auto
        rw [← sameFd] at here
        cases empty.symm.trans here }

end Answered

/-! ## Runs -/

theorem new_sound : Sound new where
  least := Nat.le_refl _
  small := by decide
  valid _ := trivial

theorem new_answered : Answered [] new where
  fresh fd ctx here := by
    rw [new, List.getElem?_replicate] at here
    split_ifs at here
    cases here
  stored fd ctx here := by
    rw [new, List.getElem?_replicate] at here
    split_ifs at here
    cases here
  made := nofun
  same := .nil

theorem of_path {events : List (Action × Option Answer)}
    (path : ((machine.restrict Keeps).observe answer).Path new events m) :
    Sound m ∧ Answered (answers events) m := by
  have start : Sound (new : FdManager) ∧ Answered (answers []) new := ⟨new_sound, new_answered⟩
  refine path.history (P := fun events m => Sound m ∧ Answered (answers events) m) ?_ start
  rintro before m ⟨action, given⟩ after ⟨sound, answered⟩ ⟨⟨keeps, step⟩, shown⟩
  obtain rfl : m.answer action = given := shown
  have acts := acts_of_step step
  refine ⟨(sound.acts keeps acts).1, ?_⟩
  rw [answers, List.filterMap_append]
  have last : [(action, m.answer action)].filterMap Prod.snd = (m.answer action).toList := by
    cases m.answer action <;> rfl
  rw [last]
  exact answered.acts sound keeps acts

theorem extends_of_path {later : List Action} (sound : Sound m)
    (path : (machine.restrict Keeps).Path m later after) : Extends m after := by
  induction path with
  | nil => exact .of_eq rfl
  | cons step _ ih =>
    obtain ⟨sound, first⟩ := sound.acts step.1 (acts_of_step step.2)
    have rest := ih sound
    exact ⟨Nat.le_trans first.longer rest.longer, fun fd ctx here => rest.kept fd ctx (first.kept fd ctx here)⟩

/-- In a run whose steps keep the table, the calls that may make a context return one, every later call for
the same descriptor returns the same, the table never shrinks and every slot a thread is about to access is
inside. A resize that does not keep it shrinks it or makes every size check fail; a store that does not
returns another context than an earlier call for the same descriptor. -/
theorem one_context {events : List (Action × Option Answer)}
    (path : ((machine.restrict Keeps).observe answer).Path new events m) :
    (∀ a ∈ answers events, a.auto_create = true → a.ctx ≠ none) ∧
    ((answers events).Pairwise fun a b => a.auto_create = true → b.fd = a.fd → b.ctx = a.ctx) ∧
    (∀ later after, (machine.restrict Keeps).Path m later after → m.datas.length ≤ after.datas.length) ∧
    (∀ thread fd, (∃ auto_create, m.phase thread = .testing fd auto_create) ∨ m.phase thread = .storing fd →
      fd < m.datas.length) ∧
    (∀ thread after, machine.Step m (.resize thread) after → ¬ Keeps m (.resize thread) →
      after.datas.length < m.datas.length ∨ after.intSize < 0) ∧
    ∀ thread after, machine.Step m (.store thread) after → ¬ Keeps m (.store thread) →
      ∃ a ∈ answers events, ∃ b, m.answer (.store thread) = some b ∧ a.auto_create = true ∧ b.fd = a.fd ∧
        b.ctx ≠ a.ctx := by
  obtain ⟨sound, answered⟩ := of_path path
  refine ⟨?_, answered.same, ?_, ?_, ?_, ?_⟩
  · intro a member auto
    obtain ⟨ctx, same, _⟩ := answered.made a member auto
    rw [same]
    nofun
  · exact fun later after path => (extends_of_path sound path).longer
  · rintro thread fd (⟨auto_create, located⟩ | located)
    · have valid := sound.valid thread
      rwa [located] at valid
    · have valid := sound.valid thread
      rwa [located] at valid
  · intro thread after step loses
    cases acts_of_step step with
    | @resize _ fd located =>
      have valid := sound.valid thread
      rw [located] at valid
      have isInt : fd < 2 ^ 31 := valid.2
      have length : (m.resize (fd * 3 / 2)).datas.length = fd * 3 / 2 := length_resize _ _
      rcases Nat.lt_or_ge (fd * 3 / 2) m.datas.length with shrinks | grows
      · exact Or.inl (length.symm ▸ shrinks)
      · refine Or.inr (intOf_neg (n := (m.resize (fd * 3 / 2)).datas.length) ?_ ?_)
        · by_contra small
          refine loses fun other located' => ?_
          cases located.symm.trans located'
          exact ⟨grows, by omega⟩
        · omega
  · intro thread after step loses
    have acts := acts_of_step step
    generalize m.answer (.store thread) = given at acts
    cases acts with
    | @store _ fd located _ inside =>
      obtain ⟨slot, here⟩ : ∃ slot, m.datas[fd]? = some slot := ⟨_, List.getElem?_eq_getElem inside⟩
      cases slot with
      | none =>
        refine absurd (fun other located' => ?_) loses
        cases located.symm.trans located'
        exact here
      | some ctx =>
        refine ⟨_, answered.stored fd ctx here, ⟨fd, true, some m.made⟩, rfl, rfl, rfl, fun same => ?_⟩
        exact Nat.lt_irrefl _ (Option.some.inj same ▸ answered.fresh fd ctx here)

/-- Two threads may make the context of a descriptor, and the second finds the first one's. -/
theorem one_context_two : ∃ m events, ((machine.restrict Keeps).observe answer).Path new events m ∧
    answers events = [⟨5, true, some 0⟩, ⟨5, true, some 0⟩] ∧
    (answers events).Pairwise fun a b => a.auto_create = true → b.fd = a.fd → b.ctx = a.ctx := by
  have path : ((machine.restrict Keeps).observe answer).Path new
      [(.check 0 5 true, none), (.test 0, none), (.store 0, some ⟨5, true, some 0⟩), (.check 1 5 true, none),
        (.test 1, some ⟨5, true, some 0⟩)] _ :=
    .cons ⟨⟨trivial, rfl⟩, rfl⟩ <| .cons ⟨⟨trivial, rfl⟩, rfl⟩ <|
      .cons ⟨⟨fun fd located => by cases located; rfl, rfl⟩, rfl⟩ <| .cons ⟨⟨trivial, rfl⟩, rfl⟩ <|
      .cons ⟨⟨trivial, rfl⟩, rfl⟩ <| .nil _
  exact ⟨_, _, path, rfl, (one_context path).2.1⟩

/-- Two threads find the slot of one descriptor empty, and each stores and returns a context of its own. -/
theorem two_contexts : ∃ m events, (machine.observe answer).Path new events m ∧
    answers events = [⟨5, true, some 0⟩, ⟨5, true, some 1⟩] := by
  have path : (machine.observe answer).Path new
      [(.check 0 5 true, none), (.check 1 5 true, none), (.test 0, none), (.test 1, none),
        (.store 0, some ⟨5, true, some 0⟩), (.store 1, some ⟨5, true, some 1⟩)] _ :=
    .cons ⟨rfl, rfl⟩ <| .cons ⟨rfl, rfl⟩ <| .cons ⟨rfl, rfl⟩ <| .cons ⟨rfl, rfl⟩ <| .cons ⟨rfl, rfl⟩ <|
      .cons ⟨rfl, rfl⟩ <| .nil _
  exact ⟨_, _, path, rfl⟩

end Sylar.FdManager
