import Sylar.Proofs.Fiber.Nesting

/-! # Switching between fibers keeps every execution

One lemma for each kind of step: where its precondition holds it completes, and the invariant holds afterwards. Only the
two switches change the list of a thread.
-/

namespace Sylar

namespace Fibers

variable {τ : Type} [DecidableEq τ] {s s' : Fibers τ} {t u : τ} {f m : FiberPtr} {fiber : Fiber}
  {list : τ → List FiberPtr} {nest below : List FiberPtr}

/-! ## Objects -/

omit [DecidableEq τ] in
theorem get_of (found : s.fiber f = some fiber) : s.get f = .ok fiber := by
  rw [get, found]

omit [DecidableEq τ] in
theorem core_setFiber_self (fiber : Option Fiber) :
    (s.setFiber f fiber).core f = fiber.map fun fiber => { fiber with handles := 0 } := by
  rw [core, setFiber]
  exact congrArg _ (Function.update_self _ _ _)

omit [DecidableEq τ] in
theorem core_setFiber_of_ne {g : FiberPtr} (other : g ≠ f) (fiber : Option Fiber) :
    (s.setFiber f fiber).core g = s.core g := by
  rw [core, core, setFiber]
  exact congrArg _ (Function.update_of_ne other _ _)

omit [DecidableEq τ] in
/-- Another object at an address that has one. -/
theorem live_update {other : Fiber} (found : s.fiber f = some fiber) (created : s'.created = s.created)
    (same : s'.fiber = Function.update s.fiber f (some other)) : s.live = s'.live := by
  have present (g : FiberPtr) : (s.fiber g).isSome = (s'.fiber g).isSome := by
    rw [same, Function.update_apply]
    split
    · rename_i here
      rw [here, found]
      rfl
    · rfl
  simp only [live, created, present]

/-- A change in the handles of one object is no concern of the invariant, as long as what is in use keeps one. -/
theorem Nested.handles (inv : s.Nested list) (found : s.fiber f = some fiber) (k : ℕ)
    (enough : ∀ t, s.Own t (list t) f → 1 ≤ k) :
    (s.setFiber f (some { fiber with handles := k })).Nested list := by
  have cores (g : FiberPtr) : (s.setFiber f (some { fiber with handles := k })).core g = s.core g := by
    by_cases same : g = f
    · subst same
      rw [core_setFiber_self, core_eq found]
      rfl
    · exact core_setFiber_of_ne same _
  refine ⟨inv.sound, ?_, inv.nodup, inv.apart, ?_, ?_, inv.mains, ?_, ?_, inv.cur, ?_, ?_, ?_⟩
  · intro t
    exact (inv.stands t).congr rfl rfl rfl rfl (fun _ _ => rfl) (fun g _ => cores g) fun _ _ _ _ held => held
  · intro t g own
    by_cases same : g = f
    · subst same
      exact ⟨_, Function.update_self _ _ _, enough t own⟩
    · obtain ⟨other, there, some⟩ := inv.kept t g own
      exact ⟨other, (Function.update_of_ne same _ _).trans there, some⟩
  · intro t m isMain
    exact (cores m).trans (inv.main t m isMain)
  · intro g other there
    exact inv.resting g other ((cores g).symm.trans there)
  · intro g other there
    exact inv.plain g other ((cores g).symm.trans there)
  · intro g none
    exact inv.gone g fun other there => none other ((cores g).trans there)
  · intro g beyond
    have other : g ≠ f := by
      rintro rfl
      exact Nat.not_lt.mpr beyond (inv.lt_created found)
    exact ⟨(Function.update_of_ne other _ _).trans (inv.fresh g beyond).1, (inv.fresh g beyond).2⟩
  · exact inv.count.trans (live_update found rfl rfl)

theorem Nested.share (inv : s.Nested list) (found : s.fiber f = some fiber) :
    ∃ s', s.share f = .ok s' ∧ s'.Nested list := by
  refine ⟨_, ?_, inv.handles found (fiber.handles + 1) fun _ _ => Nat.le_add_left _ _⟩
  rw [Fibers.share, get_of found]
  rfl

omit [DecidableEq τ] in
theorem out_setFiber (fiber : Option Fiber) (count : ℕ) :
    Outside f s { s.setFiber f fiber with fiberCount := count } :=
  ⟨fun _ => rfl, rfl, rfl, rfl, fun _ _ => rfl, fun _ _ => rfl, fun _ other => Function.update_of_ne other _ _,
    fun _ _ _ _ held => held⟩

/-- An object that no thread is in the middle of can go. -/
theorem Nested.destroyed (inv : s.Nested list) (found : s.fiber f = some fiber)
    (free : ∀ t, ¬ s.Own t (list t) f) (idle : s.Idle f) :
    Nested { s.setFiber f none with fiberCount := s.fiberCount - 1 } list := by
  have gone : ({ s.setFiber f none with fiberCount := s.fiberCount - 1 } : Fibers τ).core f = none :=
    core_setFiber_self none
  refine inv.of_outside (out_setFiber none _) free inv.sound ?_ ?_ (inv.cur f) (fun _ => idle) ?_ ?_
  · intro other there
    cases gone.symm.trans there
  · intro other there
    cases gone.symm.trans there
  · intro g beyond
    refine ⟨?_, (inv.fresh g beyond).2⟩
    change Function.update s.fiber f none g = none
    rw [Function.update_apply]
    split
    · rfl
    · exact (inv.fresh g beyond).1
  · change s.fiberCount - 1 = _
    rw [inv.count]
    have erased : ((Finset.range s.created).filter fun g => ((s.setFiber f none).fiber g).isSome = true) =
        ((Finset.range s.created).filter fun g => (s.fiber g).isSome = true).erase f := by
      ext g
      simp only [Finset.mem_filter, Finset.mem_erase, setFiber, Function.update_apply]
      by_cases same : g = f <;> simp [same]
    have member : f ∈ (Finset.range s.created).filter fun g => (s.fiber g).isSome = true :=
      Finset.mem_filter.mpr ⟨Finset.mem_range.mpr (inv.lt_created found), by rw [found]; rfl⟩
    exact (congrArg Finset.card erased).trans (Finset.card_erase_of_mem member) |>.symm

omit [DecidableEq τ] in
theorem ended_iff : fiber.ended = true ↔ fiber.state = .term ∨ fiber.state = .except := by
  simp only [Fiber.ended, Bool.or_eq_true, beq_iff_eq]

omit [DecidableEq τ] in
/-- Only a fiber that has not begun or has ended has no variables left on its stack. -/
theorem Resting.frames {point : Point} {state : Sylar.Fiber.State} {frames : ℕ} (rests : Resting f point state frames) :
    frames = 0 ↔ state = .init ∨ state = .term ∨ state = .except := by
  cases point with
  | entry =>
    obtain ⟨rfl, rfl⟩ := rests
    simp
  | yielding g =>
    obtain ⟨-, rfl | rfl, rfl⟩ := rests <;> simp
  | ending g =>
    obtain ⟨-, rfl | rfl, rfl⟩ := rests <;> simp
  | inside => exact rests.elim
  | entering how g => exact rests.elim
  | entered g => exact rests.elim
  | exited => exact rests.elim

omit [DecidableEq τ] in
/-- Without variables on its stack a fiber at rest has nothing left to do. -/
theorem Resting.idle {state : Sylar.Fiber.State} {frames : ℕ} (rests : Resting f (s.point (.fiber f)) state frames)
    (empty : frames = 0) : s.Idle f := by
  cases point : s.point (.fiber f) with
  | entry => exact .inl point
  | ending g => exact .inr ⟨g, point⟩
  | yielding g =>
    rw [point] at rests
    cases rests.2.2.symm.trans empty
  | inside => rw [point] at rests; exact rests.elim
  | entering how g => rw [point] at rests; exact rests.elim
  | entered g => rw [point] at rests; exact rests.elim
  | exited => rw [point] at rests; exact rests.elim

/-- A shared pointer goes, and the object with the last one. -/
theorem Nested.release (inv : s.Nested list) (inside : s.point (s.running t) = .inside)
    (found : s.fiber f = some fiber)
    (enough : s.Busy f ∨ (∃ u, s.threadFiber u = some f) → 2 ≤ fiber.handles) :
    ∃ s', s.release t f = .ok s' ∧ s'.Nested list := by
  have owned (u : τ) (own : s.Own u (list u) f) : 2 ≤ fiber.handles := by
    obtain member | main := own
    · exact enough (.inl ((inv.stands u).busy member))
    · exact enough (.inr ⟨u, main⟩)
  by_cases last : fiber.handles - 1 = 0 ∧ fiber.frames = 0
  · have free (u : τ) : ¬ s.Own u (list u) f := by
      intro own
      have := owned u own
      omega
    have found' := core_eq found
    have idle : s.Idle f := by
      cases kind : fiber.stack with
      | true => exact (inv.resting f _ found' kind fun u member => free u (.inl member)).1.idle last.2
      | false =>
        refine inv.gone f fun other there => ?_
        rw [← Option.some.inj (found'.symm.trans there)]
        exact kind
    refine ⟨_, ?_, inv.destroyed found free idle⟩
    have here := (inv.stands t).head
    rw [(inv.stands t).running] at inside
    rw [inside] at here
    have other : s.tFiber t ≠ some f := by
      intro same
      exact free t (owner_own (here.symm.trans same))
    rw [Fibers.release, get_of found]
    change s.drop t f { fiber with handles := fiber.handles - 1 } = _
    rw [drop, if_pos last, destroy]
    cases kind : fiber.stack with
    | true =>
      have rests := (inv.resting f _ found' kind fun u member => free u (.inl member)).1
      have finished : fiber.ended = true ∨ fiber.state = .init :=
        (rests.frames.mp last.2).symm.imp_left ended_iff.mpr
      rw [if_pos rfl]
      exact if_pos finished
    | false =>
      have plain := inv.plain f _ found' kind
      have cb : fiber.cb = false := congrArg Fiber.cb plain
      have state : fiber.state = .exec := congrArg Fiber.state plain
      rw [if_neg Bool.false_ne_true, if_neg (by simp [cb, state])]
      exact if_neg other
  · refine ⟨_, ?_, inv.handles found (fiber.handles - 1) fun u own => ?_⟩
    · rw [Fibers.release, get_of found]
      change s.drop t f { fiber with handles := fiber.handles - 1 } = _
      rw [drop, if_neg last]
    · have := owned u own
      omega

theorem Nested.not_own_created (inv : s.Nested list) (u : τ) : ¬ s.Own u (list u) s.created := by
  intro own
  obtain ⟨fiber, found, -⟩ := inv.kept u _ own
  exact Nat.lt_irrefl _ (inv.lt_created found)

omit [DecidableEq τ] in
/-- One more object. -/
theorem live_add (created : s'.created = s.created + 1) (here : (s'.fiber s.created).isSome = true)
    (same : ∀ f, f < s.created → (s'.fiber f).isSome = (s.fiber f).isSome) : s'.live = s.live + 1 := by
  have before : (Finset.range s.created).filter (fun f => (s'.fiber f).isSome = true) =
      (Finset.range s.created).filter fun f => (s.fiber f).isSome = true :=
    Finset.filter_congr fun f inside => by rw [same f (Finset.mem_range.mp inside)]
  rw [live, created, Finset.range_add_one, Finset.filter_insert, if_pos here, Finset.card_insert_of_notMem, before,
    live]
  simp

theorem Nested.not_main (inv : s.Nested list) (found : s.core f = some fiber) (stack : fiber.stack = true) (t : τ) :
    s.threadFiber t ≠ some f := by
  intro main
  obtain rfl := Option.some.inj (found.symm.trans (inv.main t f main))
  cases stack

/-- No thread has a fiber with a stack of its own that is idle. -/
theorem Nested.unowned (inv : s.Nested list) (free : ¬ s.Busy f) (found : s.fiber f = some fiber)
    (stack : fiber.stack = true) (t : τ) : ¬ s.Own t (list t) f := by
  rintro (member | main)
  · exact inv.idle free t member
  · exact inv.not_main (core_eq found) stack t main

omit [DecidableEq τ] in
theorem mem_of_top (isTop : top t nest = .fiber f) : f ∈ nest := by
  cases nest with
  | nil => cases isTop
  | cons g below =>
    obtain rfl := Execution.fiber.inj isTop
    exact List.mem_cons_self

/-- No thread executes on the stack of a fiber that it is not in the middle of. -/
theorem Nested.not_running (inv : s.Nested list) (free : ∀ u, ¬ s.Own u (list u) f) (u : τ) :
    s.contexts.running u ≠ .fiber f := by
  intro same
  exact free u (.inl (.inl (mem_of_top ((inv.stands u).running.symm.trans same))))

/-- A new fiber is at rest. -/
theorem Nested.newFiber (inv : s.Nested list) (useCaller cb : Bool) : (s.newFiber useCaller cb).Nested list := by
  have found : (s.newFiber useCaller cb).fiber s.created =
      some ⟨s.fiberId + 1, .init, true, useCaller, cb, 1, 0⟩ := Function.update_self _ _ _
  have begun : (s.newFiber useCaller cb).point (.fiber s.created) = .entry := Function.update_self _ _ _
  refine inv.of_outside ?_ inv.not_own_created (inv.sound.makecontext _ (inv.not_running inv.not_own_created))
    ?_ ?_ ?_ (fun _ => .inl begun) ?_ ?_
  · refine ⟨fun _ => rfl, rfl, rfl, rfl, ?_, fun _ _ => rfl, ?_, ?_⟩
    · intro e other
      exact Function.update_of_ne other _ _
    · intro f other
      exact Function.update_of_ne other _ _
    · intro p e place other held
      exact (Contexts.holds_makecontext_of_ne place other).mpr held
  · intro fiber there _
    obtain rfl := Option.some.inj ((core_eq found).symm.trans there)
    rw [begun]
    exact ⟨⟨rfl, rfl⟩, Contexts.holds_makecontext⟩
  · intro fiber there plain
    obtain rfl := Option.some.inj ((core_eq found).symm.trans there)
    cases plain
  · intro past
    exact (past begun).elim
  · intro f beyond
    have other : f ≠ s.created := Nat.ne_of_gt beyond
    refine ⟨(Function.update_of_ne other _ _).trans (inv.fresh f (Nat.le_of_succ_le beyond)).1, ?_⟩
    refine (Function.update_of_ne ?_ _ _).trans (inv.fresh f (Nat.le_of_succ_le beyond)).2
    intro same
    exact other (Execution.fiber.inj same)
  · refine (congrArg (· + 1) inv.count).trans (live_add rfl ?_ ?_).symm
    · rw [found]
      rfl
    · intro f inside
      exact congrArg Option.isSome (Function.update_of_ne (Nat.ne_of_lt inside) _ _)

/-- A fiber that has ended or not begun can be made anew. -/
theorem Nested.reset (inv : s.Nested list) (free : ¬ s.Busy f) (found : s.fiber f = some fiber)
    (stack : fiber.stack = true) (ended : fiber.ended = true ∨ fiber.state = .init) (useCaller cb : Bool) :
    ∃ s', s.reset f useCaller cb = .ok s' ∧ s'.Nested list := by
  refine ⟨{ (s.setPoint (.fiber f) .entry).setFiber f (some { fiber with state := .init, useCaller, cb }) with
    contexts := s.contexts.makecontext f (.fiber f) }, ?_, ?_⟩
  · rw [Fibers.reset, get_of found]
    change (if ¬ fiber.stack = true then _ else _) = _
    rw [if_neg (by rw [stack]; exact fun no => no rfl), if_pos ended]
    rfl
  · have frames : fiber.frames = 0 :=
      ((inv.resting f _ (core_eq found) stack fun t => inv.idle free t).1.frames).mpr
        (ended.elim (fun finished => .inr (ended_iff.mp finished)) .inl)
    have unused := inv.unowned free found stack
    have there : (s.setFiber f (some { fiber with state := .init, useCaller, cb })).core f =
        some { fiber with state := .init, useCaller, cb, handles := 0 } := core_setFiber_self _
    have begun : ({ s.setPoint (.fiber f) .entry with contexts := s.contexts } : Fibers τ).point (.fiber f) = .entry :=
      Function.update_self _ _ _
    refine inv.of_outside ?_ unused (inv.sound.makecontext _ (inv.not_running unused)) ?_ ?_ ?_ (fun _ => .inl begun) ?_
      ?_
    · refine ⟨fun _ => rfl, rfl, rfl, rfl, ?_, fun _ _ => rfl, ?_, ?_⟩
      · intro e other
        exact Function.update_of_ne other _ _
      · intro g other
        exact Function.update_of_ne other _ _
      · intro p e place other held
        exact (Contexts.holds_makecontext_of_ne place other).mpr held
    · intro other same _
      obtain rfl := Option.some.inj (there.symm.trans same)
      refine ⟨?_, Contexts.holds_makecontext⟩
      change Resting f (Function.update s.point (.fiber f) .entry (.fiber f)) _ _
      rw [Function.update_self]
      exact ⟨rfl, frames⟩
    · intro other same plain
      obtain rfl := Option.some.inj (there.symm.trans same)
      cases stack.symm.trans plain
    · intro past
      exact (past begun).elim
    · intro g beyond
      have other : g ≠ f := by
        rintro rfl
        exact Nat.not_lt.mpr beyond (inv.lt_created found)
      refine ⟨(Function.update_of_ne other _ _).trans (inv.fresh g beyond).1, ?_⟩
      refine (Function.update_of_ne ?_ _ _).trans (inv.fresh g beyond).2
      intro same
      exact other (Execution.fiber.inj same)
    · exact inv.count.trans (live_update found rfl rfl)

/-- A fiber that has yielded can be set to `HOLD`. -/
theorem Nested.hold (inv : s.Nested list) (free : ¬ s.Busy f) (found : s.fiber f = some fiber)
    (stack : fiber.stack = true) (yielded : fiber.state = .hold ∨ fiber.state = .ready) :
    ∃ s', s.hold f = .ok s' ∧ s'.Nested list := by
  refine ⟨s.setFiber f (some { fiber with state := .hold }), ?_, ?_⟩
  · rw [Fibers.hold, get_of found]
    rfl
  · have there : (s.setFiber f (some { fiber with state := .hold })).core f =
        some { fiber with state := .hold, handles := 0 } := core_setFiber_self _
    refine inv.of_outside (out_setFiber _ s.fiberCount) (inv.unowned free found stack) inv.sound ?_ ?_ (inv.cur f) ?_ ?_
      ?_
    · intro other same _
      obtain rfl := Option.some.inj (there.symm.trans same)
      obtain ⟨rests, held⟩ := inv.resting f _ (core_eq found) stack fun t => inv.idle free t
      refine ⟨?_, held⟩
      change Resting f (s.point (.fiber f)) .hold fiber.frames
      cases point : s.point (.fiber f) <;> simp only [point, Resting] at rests ⊢
      · rcases yielded with same | same <;> cases same.symm.trans rests.1
      · exact ⟨rests.1, .inr trivial, rests.2.2⟩
      · rcases rests.2.1 with finished | finished <;> rcases yielded with same | same <;> cases same.symm.trans finished
    · intro other same plain
      obtain rfl := Option.some.inj (there.symm.trans same)
      cases stack.symm.trans plain
    · intro none
      have plain := none _ there
      cases stack.symm.trans plain
    · intro g beyond
      have other : g ≠ f := by
        rintro rfl
        exact Nat.not_lt.mpr beyond (inv.lt_created found)
      exact ⟨(Function.update_of_ne other _ _).trans (inv.fresh g beyond).1, (inv.fresh g beyond).2⟩
    · exact inv.count.trans (live_update found rfl rfl)

/-! ## Steps up to a switch -/

omit [DecidableEq τ] in
theorem At.inside (here : s.At t nest) (inside : s.point (s.running t) = .inside) :
    s.point (top t nest) = .inside := here.running ▸ inside

omit [DecidableEq τ] in
theorem At.current (here : s.At t nest) (inside : s.point (top t nest) = .inside) : s.tFiber t = s.owner t nest := by
  have head := here.head
  rw [inside] at head
  exact head

omit [DecidableEq τ] in
theorem not_target (inside : s.point (top t nest) = .inside) : s.target t nest = none := by
  rw [target, inside]

/-- `GetThis` gives the fiber of what the thread executes, and makes the main fiber of a thread that has none. -/
theorem Nested.getThis (inv : s.Nested list) (inside : s.point (s.running t) = .inside) :
    ∃ f s', s.getThis t = .ok (f, s') ∧ s'.Nested list ∧ s'.owner t (list t) = some f ∧
      s'.tFiber t = some f ∧ s'.point = s.point ∧ s'.contexts.running = s.contexts.running ∧
      (∃ fiber, s'.fiber f = some fiber) ∧ (list t ≠ [] → s' = s) := by
  have inside := (inv.stands t).inside inside
  have current := (inv.stands t).current inside
  cases known : s.tFiber t with
  | some f =>
    obtain ⟨fiber, found, -⟩ := inv.kept t f (owner_own (current.symm.trans known))
    refine ⟨f, s, ?_, inv, current.symm.trans known, known, rfl, rfl, ⟨fiber, found⟩, fun _ => rfl⟩
    rw [Fibers.getThis, known]
    change (s.get f >>= _) = _
    rw [get_of found]
    rfl
  | none =>
    have empty : list t = [] := by
      cases shape : list t with
      | nil => rfl
      | cons g below => rw [known, shape] at current; cases current
    have unmade : s.threadFiber t = none := by
      rw [known, empty] at current
      exact current.symm
    have same : Function.update list t [] = list := by rw [← empty]; exact Function.update_eq_self _ _
    have running : s.contexts.running t = .thread t := by
      rw [show s.contexts.running t = top t (list t) from (inv.stands t).running, empty]
      rfl
    rw [empty] at inside
    refine ⟨s.created, (s.newMainFiber t).setThreadFiber t (some s.created), ?_, ?_, ?_, Function.update_self _ _ _,
      rfl, rfl, ⟨_, Function.update_self _ _ _⟩, fun full => (full empty).elim⟩
    · rw [Fibers.getThis, known, unmade]
      rfl
    · rw [← same]
      have none_own (f : FiberPtr) : ¬ s.Own t (list t) f := by
        rintro ((member | aimed) | main)
        · rw [empty] at member
          cases member
        · rw [empty, not_target inside] at aimed
          cases aimed
        · cases unmade.symm.trans main
      have made : (s.newMainFiber t).fiber s.created = some ⟨0, .exec, false, false, false, 1, 0⟩ :=
        Function.update_self _ _ _
      have main : ((s.newMainFiber t).setThreadFiber t (some s.created)).threadFiber t = some s.created :=
        Function.update_self _ _ _
      have own {f : FiberPtr} (owned : ((s.newMainFiber t).setThreadFiber t (some s.created)).Own t [] f) :
          f = s.created := by
        obtain (member | aimed) | isMain := owned
        · cases member
        · cases (not_target inside).symm.trans aimed
        · exact (Option.some.inj (main.symm.trans isMain)).symm
      refine inv.of_steps (· = s.created) ?_ (fun f owned => (none_own f owned).elim) ?_ (inv.sound.getcontext t _) ?_
        List.nodup_nil (fun _ => own) ?_ ?_ ?_ ?_ ?_ ?_ ?_ ?_
      · refine ⟨fun _ _ => rfl, fun u other => Function.update_of_ne other _ _,
          fun u other => Function.update_of_ne other _ _, fun _ _ => rfl, fun _ _ _ => rfl, fun _ _ => rfl,
          fun f other => Function.update_of_ne other _ _, ?_⟩
        intro p e place away _ held
        exact (Contexts.holds_getcontext_of_ne place (running ▸ away)).mpr held
      · rintro u - f owned rfl
        exact inv.not_own_created u owned
      · refine ⟨running, trivial, ?_⟩
        change Stage _ t [] (s.point (top t []))
        rw [inside]
        exact Eq.trans (Function.update_self _ _ _) main.symm
      · intro f owned
        obtain rfl := own owned
        exact ⟨_, made, Nat.le_refl _⟩
      · intro m isMain
        obtain rfl := own (.inr isMain)
        exact core_eq made
      · rintro f fiber rfl found stack
        cases (congrArg Fiber.stack (Option.some.inj ((core_eq made).symm.trans found))).trans stack
      · rintro f fiber rfl found -
        exact Option.some.inj (found.symm.trans (core_eq made))
      · rintro f rfl begun
        exact (begun (inv.fresh _ (Nat.le_refl _)).2).elim
      · rintro f rfl -
        exact .inl (inv.fresh _ (Nat.le_refl _)).2
      · intro f beyond
        exact ⟨(Function.update_of_ne (Nat.ne_of_gt beyond) _ _).trans (inv.fresh f (Nat.le_of_succ_le beyond)).1,
          (inv.fresh f (Nat.le_of_succ_le beyond)).2⟩
      · refine (congrArg (· + 1) inv.count).trans (live_add rfl ?_ ?_).symm
        · exact congrArg Option.isSome made
        · intro f below
          exact congrArg Option.isSome (Function.update_of_ne (Nat.ne_of_lt below) _ _)
    · rw [empty]
      exact Function.update_self _ _ _

/-- What a step up to a switch changes: where the thread stands, which fiber it takes to be its current one, and one
object. -/
structure Heads (s s' : Fibers τ) (t : τ) (nest : List FiberPtr) (point : Point) (g : FiberPtr) (fiber : Fiber) :
    Prop where
  contexts : s'.contexts = s.contexts
  tFiber : ∀ u, u ≠ t → s'.tFiber u = s.tFiber u
  threadFiber : s'.threadFiber = s.threadFiber
  schedulerFiber : s'.schedulerFiber = s.schedulerFiber
  point : s'.point = Function.update s.point (top t nest) point
  cur : s'.cur = s.cur
  fiber : s'.fiber = Function.update s.fiber g (some fiber)
  created : s'.created = s.created
  count : s'.fiberCount = s.fiberCount

theorem Heads.core_of_ne {point : Point} {g : FiberPtr} (heads : Heads s s' t nest point g fiber) (other : f ≠ g) :
    s'.core f = s.core f := by
  rw [core, core, heads.fiber, Function.update_of_ne other]

/-- The list of the thread stays if its innermost fiber goes on working. -/
theorem Heads.chain {point : Point} {g : FiberPtr} (heads : Heads s s' t nest point g fiber)
    (chain : s.Chain t nest) (inside : s.point (top t nest) = .inside)
    (works : ∀ f how, f ∈ nest → f = g ∨ top t nest = .fiber f → s.Stands f how (Working f) →
      s'.Stands f how (Working f)) : s'.Chain t nest := by
  have other {e : Execution τ} (f : FiberPtr) (entered : s.point e = .entered f) : e ≠ top t nest := by
    rintro rfl
    cases inside.symm.trans entered
  refine chain.congr (congrFun heads.threadFiber t) (congrFun heads.schedulerFiber t) ?_ ?_ ?_
  · intro e f _ _ entered
    rw [heads.point, Function.update_of_ne (other f entered)]
    exact entered
  · intro f how member stands
    by_cases mine : f = g ∨ top t nest = .fiber f
    · exact works f how member mine stands
    · refine stands.congr (heads.core_of_ne fun same => mine (.inl same)) ?_
      rw [heads.point, Function.update_of_ne fun same => mine (.inr same.symm)]
  · intro m e f _ _ _ held
    rw [heads.contexts]
    exact held

theorem Nested.of_heads {point : Point} {g : FiberPtr} {before : Fiber} (inv : s.Nested list)
    (heads : Heads s s' t (list t) point g fiber) (inside : s.point (top t (list t)) = .inside)
    (found : s.fiber g = some before) (was : before.stack = true) (away : ∀ u, u ≠ t → ¬ s.Own u (list u) g)
    (handles : 1 ≤ fiber.handles) (stack : fiber.stack = true) (member : s'.Member t (list t) g)
    (aims : ∀ how f, point = .entering how f → f = g) (head : s'.Stage t (list t) point)
    (works : ∀ f how, f ∈ list t → f = g ∨ top t (list t) = .fiber f → s.Stands f how (Working f) →
      s'.Stands f how (Working f)) : s'.Nested list := by
  have self : s'.point (top t (list t)) = point := by rw [heads.point, Function.update_self]
  have here : s'.fiber g = some fiber := by rw [heads.fiber, Function.update_self]
  have unmain (u : τ) : s.threadFiber u ≠ some g := inv.not_main (core_eq found) was u
  have owned {f : FiberPtr} (own : s'.Own t (list t) f) : s.Own t (list t) f ∨ f = g := by
    obtain (inList | aimed) | main := own
    · exact .inl (.inl (.inl inList))
    · obtain ⟨how, entering⟩ := target_eq_some.mp aimed
      exact .inr (aims how f (self.symm.trans entering))
    · rw [heads.threadFiber] at main
      exact .inl (.inr main)
  have points {f : FiberPtr} (other : top t (list t) ≠ .fiber f) : s'.point (.fiber f) = s.point (.fiber f) := by
    rw [heads.point, Function.update_of_ne other.symm]
  rw [← Function.update_eq_self t list]
  refine inv.of_steps (fun f => s.Own t (list t) f ∨ f = g) ?_ (fun f own => .inl own) ?_ (heads.contexts ▸ inv.sound)
    ⟨?_, heads.chain (inv.stands t).chain inside works, self.symm ▸ head⟩ (inv.nodup t) (fun _ => owned) ?_ ?_ ?_ ?_ ?_
    ?_ ?_ ?_
  · refine ⟨?_, heads.tFiber, ?_, ?_, ?_, ?_, ?_, ?_⟩
    · intro u _
      rw [running, running, heads.contexts]
    · intro u _
      rw [heads.threadFiber]
    · intro u _
      rw [heads.schedulerFiber]
    · intro e thread far
      rw [heads.point]
      refine Function.update_of_ne ?_ _ _
      rintro rfl
      cases shape : list t with
      | nil => exact thread (by rw [shape]; rfl)
      | cons h below =>
        refine far h (.inl (.inl (.inl ?_))) (by rw [shape]; rfl)
        rw [shape]
        exact List.mem_cons_self
    · intro f _
      rw [heads.cur]
    · intro f other
      rw [heads.fiber]
      exact Function.update_of_ne (fun same => other (.inr same)) _ _
    · intro p e _ _ _ held
      rw [heads.contexts]
      exact held
  · rintro u other f own (mine | rfl)
    · exact other (inv.own_apart own mine)
    · exact away u other own
  · rw [running, heads.contexts]
    exact (inv.stands t).running
  · intro f own
    by_cases same : f = g
    · subst same
      exact ⟨fiber, here, handles⟩
    · rw [heads.fiber, Function.update_of_ne same]
      exact inv.kept t f ((owned own).resolve_right same)
  · intro m isMain
    rw [heads.threadFiber] at isMain
    rw [heads.core_of_ne (by rintro rfl; exact unmain t isMain)]
    exact inv.main t m isMain
  · rintro f other (((inList | aimed) | main) | rfl) there ownStack unused
    · exact (unused (.inl inList)).elim
    · cases (not_target inside).symm.trans aimed
    · rw [heads.core_of_ne (by rintro rfl; exact unmain t main)] at there
      exact (inv.not_main there ownStack t main).elim
    · exact (unused member).elim
  · intro f other _ there plain
    by_cases same : f = g
    · subst same
      obtain rfl := Option.some.inj ((core_eq here).symm.trans there)
      cases stack.symm.trans plain
    · exact inv.plain f other ((heads.core_of_ne same).symm.trans there) plain
  · intro f _ begun
    rw [heads.cur]
    refine inv.cur f ?_
    by_cases isTop : top t (list t) = .fiber f
    · rw [← isTop, inside]
      intro no
      cases no
    · exact points isTop ▸ begun
  · intro f _ none
    have other : f ≠ g := by
      rintro rfl
      have plain := none _ (core_eq here)
      cases stack.symm.trans plain
    have idle := inv.gone f fun _ there => none _ ((heads.core_of_ne other).trans there)
    have notTop : top t (list t) ≠ .fiber f := by
      intro isTop
      rw [Idle, ← isTop, inside] at idle
      obtain no | ⟨g, no⟩ := idle <;> cases no
    rw [Idle, points notTop]
    exact idle
  · intro f beyond
    rw [heads.created] at beyond
    have isNone := inv.fresh f beyond
    have other : f ≠ g := by
      rintro rfl
      cases found.symm.trans isNone.1
    have notTop : top t (list t) ≠ .fiber f := by
      intro isTop
      obtain ⟨live, there, -⟩ := inv.kept t f (.inl (.inl (mem_of_top isTop)))
      cases there.symm.trans isNone.1
    rw [heads.fiber, Function.update_of_ne other, points notTop]
    exact isNone
  · exact heads.count.trans (inv.count.trans (live_update found heads.created heads.fiber))

omit [DecidableEq τ] in
theorem owner_of_fiber (isTop : top t nest = .fiber m) : s.owner t nest = some m := by
  cases nest with
  | nil => cases isTop
  | cons f below =>
    obtain rfl := Execution.fiber.inj isTop
    rfl

omit [DecidableEq τ] in
theorem eq_nil_of_thread (isTop : top t nest = .thread t) : nest = [] := by
  cases nest with
  | nil => rfl
  | cons f below => cases isTop

omit [DecidableEq τ] in
/-- Where a fiber may be entered from is where it will give the thread back to. -/
theorem StartsFrom.partner {how : Switch} (start : s.StartsFrom t how) (running : s.running t = top t nest) :
    ∃ m, s.partner t how = some m ∧ s.owner t nest = some m := by
  cases how with
  | call =>
    obtain ⟨thread, m, main⟩ := start
    rw [eq_nil_of_thread (running.symm.trans thread)]
    exact ⟨m, main, main⟩
  | swapIn =>
    obtain ⟨m, scheduler, fiber | ⟨thread, main⟩⟩ := start
    · exact ⟨m, scheduler, owner_of_fiber (running.symm.trans fiber)⟩
    · rw [eq_nil_of_thread (running.symm.trans thread)]
      exact ⟨m, scheduler, main⟩

omit [DecidableEq τ] in
/-- What may be entered is at rest and has not ended. -/
theorem Resting.awaited {point : Point} {state : Sylar.Fiber.State} {frames : ℕ} (rests : Resting f point state frames)
    (going : state ≠ .term ∧ state ≠ .except) : Awaited f point .exec frames := by
  cases point with
  | entry => exact ⟨rfl, rests.2⟩
  | yielding g => exact ⟨rests.1, rfl, rests.2.2⟩
  | ending g => exact (rests.2.1.elim going.1 going.2).elim
  | inside => exact rests.elim
  | entering how g => exact rests.elim
  | entered g => exact rests.elim
  | exited => exact rests.elim

theorem Nested.switchTo {how : Switch} (inv : s.Nested list) (inside : s.point (s.running t) = .inside)
    (start : s.StartsFrom t how) (free : ¬ s.Busy f) (found : s.fiber f = some fiber) (stack : fiber.stack = true)
    (way : fiber.wayBack = how) (going : fiber.ended = false) (handles : 1 ≤ fiber.handles) :
    ∃ s', s.switchTo t how f = .ok s' ∧ s'.Nested list := by
  have running := (inv.stands t).running
  have atTop := (inv.stands t).inside inside
  have unused := inv.unowned free found stack
  obtain ⟨rests, held⟩ := inv.resting f _ (core_eq found) stack fun u => inv.idle free u
  have going : fiber.state ≠ .term ∧ fiber.state ≠ .except := by
    refine ⟨?_, ?_⟩ <;> intro finished <;> rw [Fiber.ended, finished] at going <;> cases going
  have awaited := rests.awaited going
  have idle : fiber.state ≠ .exec := by
    intro same
    cases point : s.point (.fiber f) <;> rw [point] at rests
    · cases same.symm.trans rests.1
    · exact rests
    · exact rests
    · exact rests
    · rcases rests.2.1 with other | other <;> cases same.symm.trans other
    · rcases rests.2.1 with other | other <;> cases same.symm.trans other
    · exact rests
  refine ⟨((s.setPoint (s.running t) (.entering how f)).setThis t (some f)).setFiber f
    (some { fiber with state := .exec }), ?_, ?_⟩
  · rw [Fibers.switchTo, get_of found]
    exact if_neg fun both => idle both.2
  · have outside : f ∉ list t := fun member => unused t (.inl (.inl member))
    have notTop : top t (list t) ≠ .fiber f := by
      rw [← running]
      exact inv.not_running unused t
    have aimed : Function.update s.point (s.running t) (.entering how f) (top t (list t)) = .entering how f := by
      rw [← running]
      exact Function.update_self _ _ _
    have heads : Heads s (((s.setPoint (s.running t) (.entering how f)).setThis t (some f)).setFiber f
        (some { fiber with state := .exec })) t (list t) (.entering how f) f { fiber with state := .exec } :=
      ⟨rfl, fun u other => Function.update_of_ne other _ _, rfl, rfl, by rw [← running]; rfl, rfl, rfl, rfl, rfl⟩
    refine inv.of_heads heads atTop found stack (fun u _ => unused u) handles stack ?_ ?_ ?_ ?_
    · exact .inr (target_eq_some.mpr ⟨how, aimed⟩)
    · intro other g same
      exact (Point.entering.inj same).2.symm
    · refine ⟨Function.update_self _ _ _, outside, held, ⟨_, core_setFiber_self _, stack, way, ?_⟩,
        start.partner running⟩
      rw [heads.point, Function.update_of_ne notTop.symm]
      exact awaited
    · rintro g other member (rfl | isTop) stands
      · exact (outside member).elim
      · obtain ⟨before, there, ownStack, ownWay, working⟩ := stands
        refine ⟨before, ?_, ownStack, ownWay, ?_⟩
        · rw [heads.core_of_ne (by rintro rfl; exact outside member)]
          exact there
        · rw [heads.point, ← isTop, Function.update_self]
          rw [← isTop, atTop] at working
          exact working

/-- A thread in the function of a fiber: the object is there, executing, with the `cur` of `MainFunc`. -/
theorem Nested.working (inv : s.Nested list) (inside : s.point (s.running t) = .inside)
    (own : s.running t = .fiber f) : top t (list t) = .fiber f ∧ f ∈ list t ∧ s.tFiber t = some f ∧
      ∃ fiber, s.fiber f = some fiber ∧ 1 ≤ fiber.handles ∧ fiber.stack = true ∧ fiber.state = .exec ∧
        fiber.frames = 1 := by
  have isTop : top t (list t) = .fiber f := (inv.stands t).running.symm.trans own
  have member : f ∈ list t := mem_of_top isTop
  obtain ⟨how, core, there, stack, -, working⟩ := (inv.stands t).chain.stands member
  obtain ⟨fiber, found, handles⟩ := inv.kept t f (.inl (.inl member))
  obtain rfl := Option.some.inj ((core_eq found).symm.trans there)
  rw [← own, inside] at working
  have current := (inv.stands t).current (isTop.trans own.symm ▸ inside)
  exact ⟨isTop, member, current.trans (owner_of_fiber isTop), fiber, found, handles, stack, working.1, working.2⟩

/-- Replacing the innermost fiber of a list by one that works on. -/
theorem Heads.works {point : Point} {before : Fiber} (heads : Heads s s' t nest point f fiber)
    (isTop : top t nest = .fiber f) (found : s.fiber f = some before)
    (same : fiber.stack = before.stack ∧ fiber.useCaller = before.useCaller)
    (working : Working f point fiber.state fiber.frames) (g : FiberPtr) (how : Switch)
    (mine : g = f ∨ top t nest = .fiber g) (stands : s.Stands g how (Working g)) : s'.Stands g how (Working g) := by
  obtain rfl : g = f := by
    obtain same | other := mine
    · exact same
    · exact Execution.fiber.inj (other.symm.trans isTop)
  obtain ⟨core, there, stack, way, -⟩ := stands
  obtain rfl := Option.some.inj ((core_eq found).symm.trans there)
  have here : s'.fiber g = some fiber := by rw [heads.fiber, Function.update_self]
  refine ⟨_, core_eq here, same.1.trans stack, ?_, ?_⟩
  · rw [← way, Fiber.wayBack, Fiber.wayBack, same.2]
  · rw [heads.point, isTop, Function.update_self]
    exact working

/-- A fiber at its function can yield. -/
theorem Nested.yield {state : Sylar.Fiber.State} (inv : s.Nested list) (inside : s.point (s.running t) = .inside)
    (own : s.running t = .fiber f) (pausing : state = .ready ∨ state = .hold) :
    ∃ s', s.yield t state = .ok s' ∧ s'.Nested list := by
  obtain ⟨isTop, member, current, fiber, found, handles, stack, executing, frames⟩ := inv.working inside own
  have atTop := (inv.stands t).inside inside
  have heads : Heads s ((s.setPoint (s.running t) (.yielding f)).setFiber f
      (some { fiber with state, frames := fiber.frames + 1 })) t (list t) (.yielding f) f
      { fiber with state, frames := fiber.frames + 1 } :=
    ⟨rfl, fun _ _ => rfl, rfl, rfl, by rw [isTop, ← own]; rfl, rfl, rfl, rfl, rfl⟩
  refine ⟨_, ?_, inv.of_heads heads atTop found stack ?_ handles stack (.inl member) ?_ ?_ ?_⟩
  · rw [Fibers.yield, Fibers.getThis, current]
    change (s.get f >>= _) >>= _ = _
    rw [get_of found]
    change (s.get f >>= _) = _
    rw [get_of found]
    exact if_neg fun other => other executing
  · intro u other owned
    exact other (inv.own_apart (t := u) (u := t) owned (.inl (.inl member)))
  · intro how g same
    cases same
  · refine ⟨?_, (inv.stands t).current atTop⟩
    rintro empty
    rw [empty] at member
    cases member
  · intro g how _ mine stands
    exact heads.works isTop found ⟨rfl, rfl⟩ ⟨rfl, pausing, by rw [frames]⟩ g how mine stands

/-- A function can end: `cur` goes, and the object stays with whoever entered it. -/
theorem Nested.finish {thrown : Bool} (inv : s.Nested list) (inside : s.point (s.running t) = .inside)
    (own : s.running t = .fiber f) (found : s.fiber f = some fiber) (can : thrown = true ∨ fiber.cb = true) :
    ∃ s', s.finish t thrown = .ok s' ∧ s'.Nested list := by
  obtain ⟨isTop, member, current, same, found', handles, stack, executing, frames⟩ := inv.working inside own
  obtain rfl := Option.some.inj (found'.symm.trans found)
  have atTop := (inv.stands t).inside inside
  have cur : s.cur (s.running t) = some f := by
    rw [own]
    refine inv.cur f ?_
    rw [← own, inside]
    intro no
    cases no
  obtain ⟨ended, closed, kept, left, finished, frame⟩ : ∃ ended : Fiber,
      (if thrown then { same with state := .except } else { same with state := .term, cb := false } : Fiber) = ended ∧
      (ended.stack = same.stack ∧ ended.useCaller = same.useCaller) ∧ ended.handles = same.handles ∧
      (ended.state = .term ∨ ended.state = .except) ∧ ended.frames = 1 := by
    cases thrown
    · exact ⟨_, rfl, ⟨rfl, rfl⟩, rfl, .inl rfl, frames⟩
    · exact ⟨_, rfl, ⟨rfl, rfl⟩, rfl, .inr rfl, frames⟩
  have heads : Heads s (((s.setFiber f (some ended)).setFiber f (some { ended with frames := ended.frames - 1 })).setPoint
      (s.running t) (.ending f)) t (list t) (.ending f) f { ended with frames := ended.frames - 1 } :=
    ⟨rfl, fun _ _ => rfl, rfl, rfl, by rw [isTop, ← own]; rfl, rfl, Function.update_idem _ _ _, rfl, rfl⟩
  refine ⟨_, ?_, inv.of_heads heads atTop found' stack ?_ (left ▸ handles) (kept.1.trans stack) (.inl member) ?_ ?_ ?_⟩
  · rw [Fibers.finish, cur]
    change (s.get f >>= _) = _
    rw [get_of found']
    change (if ¬ thrown = true ∧ ¬ same.cb = true then _ else _) = _
    rw [if_neg fun none => can.elim none.1 none.2, closed]
    change ((s.setFiber f (some ended)).get f >>= _) >>= _ = _
    rw [get_of (Function.update_self _ _ _)]
    change (drop t f { ended with frames := ended.frames - 1 } (s.setFiber f (some ended)) >>= _) = _
    rw [drop, if_neg (by rw [left]; omega)]
    rfl
  · intro u other owned
    exact other (inv.own_apart owned (.inl (.inl member)))
  · intro how g same
    cases same
  · refine ⟨?_, (inv.stands t).current atTop⟩
    rintro empty
    rw [empty] at member
    cases member
  · intro g how _ mine stands
    exact heads.works isTop found' kept ⟨rfl, finished, by rw [frame]⟩ g how mine stands

/-! ## Switches -/

/-- What is left alone by a switch of thread `t` to the execution `e`, with what it did before saved at `p`. -/
structure Switched (s s' : Fibers τ) (t : τ) (p : FiberPtr) (e : Execution τ) : Prop where
  contexts : s'.contexts = (s.contexts.save p (s.running t)).run t e
  tFiber : ∀ u, u ≠ t → s'.tFiber u = s.tFiber u
  threadFiber : s'.threadFiber = s.threadFiber
  schedulerFiber : s'.schedulerFiber = s.schedulerFiber
  created : s'.created = s.created
  count : s'.fiberCount = s.fiberCount

theorem Switched.running {p : FiberPtr} {e : Execution τ} (switched : Switched s s' t p e) : s'.running t = e := by
  rw [Fibers.running, switched.contexts]
  exact Function.update_self _ _ _

theorem Switched.running_of_ne {p : FiberPtr} {e : Execution τ} (switched : Switched s s' t p e) (other : u ≠ t) :
    s'.running u = s.running u := by
  rw [Fibers.running, switched.contexts]
  exact Function.update_of_ne other _ _

theorem Switched.holds {p q : FiberPtr} {d e : Execution τ} (switched : Switched s s' t p e) (place : q ≠ p)
    (other : d ≠ e) (held : s.contexts.Holds q d) : s'.contexts.Holds q d := by
  rw [switched.contexts]
  exact (Contexts.holds_run_of_ne other).mpr ((Contexts.holds_save_of_ne place).mpr held)

/-- What was executed is held where it was saved. -/
theorem Switched.held {p : FiberPtr} {e : Execution τ} (switched : Switched s s' t p e) (other : s.running t ≠ e) :
    s'.contexts.Holds p (s.running t) := by
  rw [switched.contexts]
  exact (Contexts.holds_run_of_ne other).mpr Contexts.holds_save_self

/-- Where `swapcontext` takes a thread. -/
def landed (t : τ) (out : FiberPtr) (e : Execution τ) (s : Fibers τ) : Fibers τ :=
  { s with contexts := (s.contexts.save out (s.running t)).run t e }

theorem swapcontext_of_holds {out into : FiberPtr} {e : Execution τ} (place : into ≠ out)
    (held : s.contexts.Holds into e) : s.swapcontext t out into = (s.landed t out e).resume t := by
  have load : s.contexts.swapcontext t out into = some ((s.contexts.save out (s.contexts.running t)).run t e) :=
    Contexts.swapcontext_of_holds place held
  rw [swapcontext, load]
  rfl

theorem landed_running {out : FiberPtr} {e : Execution τ} : (s.landed t out e).running t = e :=
  Function.update_self _ _ _

/-- The state after `swapcontext` has resumed the fiber. -/
structure EntersAt (s s' : Fibers τ) (t : τ) (nest : List FiberPtr) (f m : FiberPtr) (fiber : Fiber) : Prop where
  switched : Switched s s' t m (.fiber f)
  current : s'.tFiber t = some f
  point : s'.point = Function.update (Function.update s.point (top t nest) (.entered f)) (.fiber f) .inside
  cur : s'.cur = Function.update s.cur (.fiber f) (some f)
  object : s'.fiber = Function.update s.fiber f (some fiber)
  stack : fiber.stack = true
  executing : fiber.state = .exec
  frames : fiber.frames = 1
  handles : 1 ≤ fiber.handles

theorem Nested.entersAt (inv : s.Nested list) {how : Switch} (entering : s.point (s.running t) = .entering how f) :
    ∃ m fiber s', s.enter t = .ok s' ∧ s.partner t how = some m ∧ s.owner t (list t) = some m ∧
      EntersAt s s' t (list t) f m fiber ∧ fiber.wayBack = how := by
  have running := (inv.stands t).running
  have head := (inv.stands t).head
  rw [running] at entering
  rw [entering] at head
  obtain ⟨current, outside, held, ⟨core, there, stack, way, awaited⟩, m, link, owned⟩ := head
  have aimed : s.Member t (list t) f := .inr (target_eq_some.mpr ⟨how, entering⟩)
  obtain ⟨fiber, found, handles⟩ := inv.kept t f (.inl aimed)
  obtain rfl := Option.some.inj ((core_eq found).symm.trans there)
  obtain ⟨out, foundOut, -⟩ := inv.kept t m (owner_own owned)
  have place : f ≠ m := by
    rintro rfl
    obtain inList | main := owner_eq_some owned
    · exact outside inList
    · exact inv.not_main there stack t main
  have notTop : (Execution.fiber f) ≠ top t (list t) := by
    intro same
    rw [← same] at entering
    rw [entering] at awaited
    exact awaited
  have enters : s.enter t = ((s.setPoint (top t (list t)) (.entered f)).landed t m (.fiber f)).resume t := by
    rw [enter, running, entering]
    change (deref (s.partner t how) >>= _) = _
    rw [link]
    change (s.get m >>= _) = _
    rw [get_of foundOut]
    change (s.get f >>= _) = _
    rw [get_of found]
    exact swapcontext_of_holds place held
  have begun : ((s.setPoint (top t (list t)) (.entered f)).landed t m (.fiber f)).point (.fiber f) =
      s.point (.fiber f) := Function.update_of_ne notTop _ _
  rw [enters, resume, landed_running, begun]
  have there : ((s.setPoint (top t (list t)) (.entered f)).landed t m (.fiber f)).get f = .ok fiber := get_of found
  cases point : s.point (.fiber f) with
  | entry =>
    rw [point] at awaited
    refine ⟨m, { fiber with frames := fiber.frames + 1 },
      { (((s.setPoint (top t (list t)) (.entered f)).landed t m (.fiber f)).setFiber f
        (some { fiber with frames := fiber.frames + 1 })).setPoint (.fiber f) .inside with
          cur := Function.update s.cur (.fiber f) (some f) }, ?_, link, owned,
      ⟨⟨rfl, fun _ _ => rfl, rfl, rfl, rfl, rfl⟩, current, rfl, rfl, rfl, stack, awaited.1, ?_, handles⟩, way⟩
    · change (Fibers.getThis t _ >>= _) = _
      rw [Fibers.getThis, show ((s.setPoint (top t (list t)) (.entered f)).landed t m (.fiber f)).tFiber t = some f
        from current]
      change (get f _ >>= _) >>= _ = _
      rw [there]
      change (get f _ >>= _) = _
      rw [there]
      rfl
    · exact congrArg (· + 1) awaited.2
  | yielding g =>
    rw [point] at awaited
    obtain ⟨rfl, executing, frames⟩ := awaited
    refine ⟨m, { fiber with frames := fiber.frames - 1 },
      (((s.setPoint (top t (list t)) (.entered g)).landed t m (.fiber g)).setFiber g
        (some { fiber with frames := fiber.frames - 1 })).setPoint (.fiber g) .inside, ?_, link, owned,
      ⟨⟨rfl, fun _ _ => rfl, rfl, rfl, rfl, rfl⟩, current, rfl, ?_, rfl, stack, executing, ?_, handles⟩, way⟩
    · change (releaseFrame t g _ >>= _) = _
      rw [releaseFrame, there]
      change (drop t g { fiber with frames := fiber.frames - 1 } _ >>= _) = _
      rw [drop, if_neg (by simp only; omega)]
      rfl
    · have known : s.cur (.fiber g) = some g := by
        refine inv.cur g ?_
        rw [point]
        intro no
        cases no
      rw [← known]
      exact (Function.update_eq_self _ _).symm
    · exact congrArg (· - 1) frames
  | ending g => rw [point] at awaited; exact awaited.elim
  | inside => rw [point] at awaited; exact awaited.elim
  | entering how g => rw [point] at awaited; exact awaited.elim
  | entered g => rw [point] at awaited; exact awaited.elim
  | exited => rw [point] at awaited; exact awaited.elim

/-- Each execution of a list has one fiber. -/
theorem Nested.owner_top {e : Execution τ} (inv : s.Nested list) (owned : s.owner t (list t) = some m)
    (own : e = .thread t ∧ s.threadFiber t = some m ∨ m ∈ list t ∧ e = .fiber m) : e = top t (list t) := by
  cases shape : list t with
  | nil =>
    rw [shape] at own
    obtain ⟨same, -⟩ | ⟨none, -⟩ := own
    · exact same
    · cases none
  | cons g below =>
    rw [shape] at owned
    obtain rfl := Option.some.inj owned
    obtain ⟨-, main⟩ | ⟨-, same⟩ := own
    · have member : s.Member t (list t) g := .inl (by rw [shape]; exact List.mem_cons_self)
      obtain ⟨core, there, stack⟩ := (inv.stands t).member_stack member
      exact (inv.not_main there stack t main).elim
    · exact same

/-- The fiber that was being entered is now innermost. -/
theorem Nested.of_entersAt {how : Switch} (inv : s.Nested list) (entering : s.point (s.running t) = .entering how f)
    (link : s.partner t how = some m) (owned : s.owner t (list t) = some m)
    (enters : EntersAt s s' t (list t) f m fiber) (way : fiber.wayBack = how) :
    s'.Nested (Function.update list t (f :: list t)) := by
  have running := (inv.stands t).running
  have head := (inv.stands t).head
  rw [running] at entering
  rw [entering] at head
  obtain ⟨current, outside, held, ⟨core, there, stack, -, awaited⟩, -⟩ := head
  have aimed : s.Member t (list t) f := .inr (target_eq_some.mpr ⟨how, entering⟩)
  have unmain (u : τ) : s.threadFiber u ≠ some f := inv.not_main there stack u
  have place : f ≠ m := by
    rintro rfl
    obtain inList | main := owner_eq_some owned
    · exact outside inList
    · exact unmain t main
  have notTop : (Execution.fiber f) ≠ top t (list t) := by
    intro same
    rw [← same] at entering
    rw [entering] at awaited
    exact awaited
  have waits {e : Execution τ} {g : FiberPtr} (entered : s.point e = .entered g) :
      e ≠ top t (list t) ∧ e ≠ .fiber f := by
    refine ⟨?_, ?_⟩
    · rintro rfl
      cases entering.symm.trans entered
    · rintro rfl
      rw [entered] at awaited
      exact awaited
  have points {e : Execution τ} (above : e ≠ .fiber f) (below : e ≠ top t (list t)) : s'.point e = s.point e := by
    rw [enters.point, Function.update_of_ne above, Function.update_of_ne below]
  have cores {g : FiberPtr} (other : g ≠ f) : s'.core g = s.core g := by
    rw [Fibers.core, Fibers.core, enters.object, Function.update_of_ne other]
  have here : s'.fiber f = some fiber := by rw [enters.object, Function.update_self]
  have inside : s'.point (.fiber f) = .inside := by rw [enters.point, Function.update_self]
  have ne {g : FiberPtr} (other : g ≠ f) : (Execution.fiber g : Execution τ) ≠ .fiber f := by
    intro same
    exact other (Execution.fiber.inj same)
  have owns {g : FiberPtr} (own : s'.Own t (f :: list t) g) : s.Own t (list t) g := by
    obtain (member | target) | main := own
    · obtain rfl | inList := List.mem_cons.mp member
      · exact .inl aimed
      · exact .inl (.inl inList)
    · have none : s'.target t (f :: list t) = none := not_target inside
      cases none.symm.trans target
    · rw [enters.switched.threadFiber] at main
      exact .inr main
  have works : s'.Stands f how (Working f) := by
    refine ⟨_, core_eq here, enters.stack, way, ?_⟩
    rw [inside]
    exact ⟨enters.executing, enters.frames⟩
  refine inv.of_steps (s.Own t (list t)) ?_ (fun _ own => own) ?_ ?_ ?_ (List.nodup_cons.mpr ⟨outside, inv.nodup t⟩)
    (fun _ => owns) ?_ ?_ ?_ ?_ ?_ ?_ ?_ ?_
  · refine ⟨fun u other => enters.switched.running_of_ne other, enters.switched.tFiber, ?_, ?_, ?_, ?_, ?_, ?_⟩
    · intro u _
      rw [enters.switched.threadFiber]
    · intro u _
      rw [enters.switched.schedulerFiber]
    · intro e thread far
      refine points (far f (.inl aimed)) ?_
      rintro rfl
      obtain same | ⟨g, member, same⟩ : On t (list t) (top t (list t)) := on_top
      · exact thread same
      · exact far g (.inl (.inl member)) same
    · intro g other
      rw [enters.cur]
      exact Function.update_of_ne (ne (by rintro rfl; exact other (.inl aimed))) _ _
    · intro g other
      rw [enters.object]
      exact Function.update_of_ne (by rintro rfl; exact other (.inl aimed)) _ _
    · intro p e unowned _ far held
      exact enters.switched.holds (by rintro rfl; exact unowned (owner_own owned)) (far f (.inl aimed)) held
  · intro u other g own mine
    exact other (inv.own_apart own mine)
  · rw [enters.switched.contexts]
    exact inv.sound.switch t place held
  · refine ⟨enters.switched.running, ⟨?_, ⟨how, m, ?_, ?_, ?_, works⟩, ?_⟩, ?_⟩
    · rw [enters.point, Function.update_of_ne notTop.symm, Function.update_self]
    · rw [← link]
      cases how <;> simp only [partner, enters.switched.threadFiber, enters.switched.schedulerFiber]
    · rw [← owned]
      cases list t <;> simp only [owner, enters.switched.threadFiber]
    · have kept := enters.switched.held (running ▸ notTop.symm)
      rwa [running] at kept
    · refine (inv.stands t).chain.congr (congrFun enters.switched.threadFiber t)
        (congrFun enters.switched.schedulerFiber t) ?_ ?_ ?_
      · intro e g _ _ entered
        rw [points (waits entered).2 (waits entered).1]
        exact entered
      · rintro g other member ⟨before, found, ownStack, ownWay, working⟩
        have apart : g ≠ f := by
          rintro rfl
          exact outside member
        refine ⟨before, (cores apart).trans found, ownStack, ownWay, ?_⟩
        by_cases isTop : Execution.fiber g = top t (list t)
        · rw [isTop, entering] at working
          rw [enters.point, Function.update_of_ne (ne apart), isTop, Function.update_self]
          exact working
        · rw [points (ne apart) isTop]
          exact working
      · rintro place e g own member entered kept
        refine enters.switched.holds ?_ (waits entered).2 kept
        rintro rfl
        exact (waits entered).1 (inv.owner_top owned own)
    · change Stage s' t (f :: list t) (s'.point (.fiber f))
      rw [inside]
      exact enters.current
  · intro g own
    by_cases same : g = f
    · subst same
      exact ⟨fiber, here, enters.handles⟩
    · rw [enters.object, Function.update_of_ne same]
      exact inv.kept t g (owns own)
  · intro main isMain
    rw [enters.switched.threadFiber] at isMain
    rw [cores (by rintro rfl; exact unmain t isMain)]
    exact inv.main t main isMain
  · rintro g other ((inList | target) | main) found ownStack unused
    · exact (unused (.inl (List.mem_cons_of_mem _ inList))).elim
    · obtain ⟨how', entering'⟩ := target_eq_some.mp target
      obtain ⟨-, rfl⟩ := Point.entering.inj (entering.symm.trans entering')
      exact (unused (.inl List.mem_cons_self)).elim
    · rw [cores (by rintro rfl; exact unmain t main)] at found
      exact (inv.not_main found ownStack t main).elim
  · intro g other _ found plain
    by_cases same : g = f
    · subst same
      obtain rfl := Option.some.inj ((core_eq here).symm.trans found)
      cases enters.stack.symm.trans plain
    · exact inv.plain g other ((cores same).symm.trans found) plain
  · intro g _ begun
    by_cases same : g = f
    · subst same
      rw [enters.cur, Function.update_self]
    · rw [enters.cur, Function.update_of_ne (ne same)]
      refine inv.cur g ?_
      by_cases isTop : Execution.fiber g = top t (list t)
      · rw [isTop, entering]
        intro no
        cases no
      · exact points (ne same) isTop ▸ begun
  · intro g _ none
    have other : g ≠ f := by
      rintro rfl
      have plain := none _ (core_eq here)
      cases enters.stack.symm.trans plain
    have idle := inv.gone g fun _ found => none _ ((cores other).trans found)
    have notTop : Execution.fiber g ≠ top t (list t) := by
      intro isTop
      rw [Idle, isTop, entering] at idle
      obtain no | ⟨h, no⟩ := idle <;> cases no
    rw [Idle, points (ne other) notTop]
    exact idle
  · intro g beyond
    rw [enters.switched.created] at beyond
    have none := inv.fresh g beyond
    have other : g ≠ f := by
      rintro rfl
      rw [Fibers.core, none.1] at there
      cases there
    have notTop : Execution.fiber g ≠ top t (list t) := by
      intro isTop
      rw [← isTop, none.2] at entering
      cases entering
    rw [enters.object, Function.update_of_ne other, points (ne other) notTop]
    exact none
  · obtain ⟨before, found, -⟩ := inv.kept t f (.inl aimed)
    exact enters.switched.count.trans (inv.count.trans (live_update found enters.switched.created enters.object))

/-- The state after `swapcontext` has resumed what entered the fiber. -/
structure LeavesAt (s s' : Fibers τ) (t : τ) (f : FiberPtr) (below : List FiberPtr) (m : FiberPtr) : Prop where
  switched : Switched s s' t f (top t below)
  current : s'.tFiber t = some m
  point : s'.point = Function.update s.point (top t below) .inside
  cur : s'.cur = s.cur
  object : s'.fiber = s.fiber

/-- A fiber gives the thread back to what entered it. -/
theorem Nested.leavesAt {g : FiberPtr} (inv : s.Nested list)
    (left : s.point (s.running t) = .yielding g ∨ s.point (s.running t) = .ending g) :
    ∃ f below m s', list t = f :: below ∧ s.leave t = .ok s' ∧ s.owner t below = some m ∧
      s.point (top t below) = .entered f ∧ LeavesAt s s' t f below m := by
  have running := (inv.stands t).running
  have chain := (inv.stands t).chain
  have full : list t ≠ [] := by
    have head := (inv.stands t).head
    rw [← running] at head
    obtain left | left := left <;> rw [left] at head <;> exact head.1
  obtain ⟨f, below, shape⟩ := List.exists_cons_of_ne_nil full
  have member : f ∈ list t := by rw [shape]; exact List.mem_cons_self
  have nodup := inv.nodup t
  rw [shape] at running chain nodup
  obtain ⟨entered, ⟨how, m, link, owned, held, core, there, stack, way, working⟩, -⟩ := chain
  obtain ⟨fiber, found, -⟩ := inv.kept t f (.inl (.inl member))
  obtain rfl := Option.some.inj ((core_eq found).symm.trans there)
  rw [running] at left
  change s.point (.fiber f) = _ ∨ s.point (.fiber f) = _ at left
  obtain rfl : g = f := by
    obtain left | left := left <;> rw [left] at working <;> exact working.1
  have place : m ≠ g := by
    rintro rfl
    obtain inside | main := owner_eq_some owned
    · exact (List.nodup_cons.mp nodup).1 inside
    · exact inv.not_main there stack t main
  have way : fiber.wayBack = how := way
  obtain ⟨out, foundOut, -⟩ : ∃ out, s.fiber m = some out ∧ 1 ≤ out.handles := by
    obtain inside | main := owner_eq_some owned
    · exact inv.kept t m (.inl (.inl (by rw [shape]; exact List.mem_cons_of_mem _ inside)))
    · exact inv.kept t m (.inr main)
  refine ⟨g, below, m, ((s.setThis t (some m)).landed t g (top t below)).setPoint (top t below) .inside, shape, ?_,
    owned, entered, ⟨⟨rfl, fun u other => Function.update_of_ne other _ _, rfl, rfl, rfl, rfl⟩,
      Function.update_self _ _ _, rfl, rfl, rfl⟩⟩
  have leaves : s.leave t = ((s.setThis t (some m)).landed t g (top t below)).resume t := by
    have unfolded : s.leave t = (s.get g >>= fun fiber =>
        deref (s.partner t fiber.wayBack) >>= fun into =>
          s.get into >>= fun _ => (s.setThis t (s.partner t fiber.wayBack)).swapcontext t g into) := by
      rw [leave, running]
      obtain left | left := left <;> rw [show top t (g :: below) = .fiber g from rfl, left] <;> rfl
    rw [unfolded, get_of found]
    change (deref (s.partner t fiber.wayBack) >>= fun into =>
      s.get into >>= fun _ => (s.setThis t (s.partner t fiber.wayBack)).swapcontext t g into) = _
    rw [way, link]
    change (s.get m >>= fun _ => (s.setThis t (some m)).swapcontext t g m) = _
    rw [get_of foundOut]
    exact swapcontext_of_holds place held
  have caller : ((s.setThis t (some m)).landed t g (top t below)).point (top t below) = .entered g := entered
  rw [leaves, resume, landed_running, caller]
  rfl

omit [DecidableEq τ] in
/-- A fiber that leaves is at rest. -/
theorem Working.resting {point : Point} {state : Sylar.Fiber.State} {frames : ℕ} {g : FiberPtr}
    (working : Working f point state frames) (left : point = .yielding g ∨ point = .ending g) :
    Resting f point state frames := by
  obtain rfl | rfl := left <;> exact working

/-- The fiber is taken from the list. -/
theorem Nested.of_leavesAt {g : FiberPtr} (inv : s.Nested list) (shape : list t = f :: below)
    (left : s.point (s.running t) = .yielding g ∨ s.point (s.running t) = .ending g)
    (owned : s.owner t below = some m) (leaves : LeavesAt s s' t f below m) :
    s'.Nested (Function.update list t below) := by
  have running := (inv.stands t).running
  have chain := (inv.stands t).chain
  have nodup := inv.nodup t
  have member : f ∈ list t := by rw [shape]; exact List.mem_cons_self
  have inList {h : FiberPtr} (inside : h ∈ below) : h ∈ list t := by
    rw [shape]
    exact List.mem_cons_of_mem _ inside
  rw [shape] at running chain nodup
  obtain ⟨entered, ⟨how, n, -, owned', held, core, there, stack, way, working⟩, rest⟩ := chain
  obtain rfl := Option.some.inj (owned.symm.trans owned')
  rw [running] at left
  change s.point (.fiber f) = _ ∨ s.point (.fiber f) = _ at left
  have outside := (List.nodup_cons.mp nodup).1
  have unmain (u : τ) : s.threadFiber u ≠ some f := inv.not_main there stack u
  have place : m ≠ f := by
    rintro rfl
    obtain inside | main := owner_eq_some owned
    · exact outside inside
    · exact unmain t main
  have notTop : (Execution.fiber f) ≠ top t below := by
    intro same
    rw [← same] at entered
    obtain left | left := left <;> cases left.symm.trans entered
  have cores (h : FiberPtr) : s'.core h = s.core h := by rw [Fibers.core, Fibers.core, leaves.object]
  have inside : s'.point (top t below) = .inside := by rw [leaves.point, Function.update_self]
  have points {e : Execution τ} (other : e ≠ top t below) : s'.point e = s.point e := by
    rw [leaves.point, Function.update_of_ne other]
  have owns {h : FiberPtr} (own : s'.Own t below h) : s.Own t (list t) h := by
    obtain (inner | target) | main := own
    · exact .inl (.inl (inList inner))
    · cases (not_target inside).symm.trans target
    · rw [leaves.switched.threadFiber] at main
      exact .inr main
  have untargeted : s.target t (list t) = none := by
    cases aimed : s.target t (list t) with
    | none => rfl
    | some h =>
      obtain ⟨how, entering⟩ := target_eq_some.mp aimed
      rw [shape] at entering
      obtain left | left := left <;> cases left.symm.trans entering
  have onList {e : Execution τ} (thread : e ≠ .thread t) (far : ∀ h, s.Own t (list t) h → e ≠ .fiber h) :
      e ≠ top t below := by
    rintro rfl
    obtain same | ⟨h, inner, same⟩ : On t below (top t below) := on_top
    · exact thread same
    · exact far h (.inl (.inl (inList inner))) same
  refine inv.of_steps (s.Own t (list t)) ?_ (fun _ own => own) ?_ ?_ ?_ (List.nodup_cons.mp nodup).2 (fun _ => owns) ?_ ?_
    ?_ ?_ ?_ ?_ ?_ ?_
  · refine ⟨fun u other => leaves.switched.running_of_ne other, leaves.switched.tFiber, ?_, ?_, ?_, ?_, ?_, ?_⟩
    · intro u _
      rw [leaves.switched.threadFiber]
    · intro u _
      rw [leaves.switched.schedulerFiber]
    · intro e thread far
      exact points (onList thread far)
    · intro h _
      rw [leaves.cur]
    · intro h _
      rw [leaves.object]
    · intro p e unowned thread far kept
      exact leaves.switched.holds (by rintro rfl; exact unowned (.inl (.inl member))) (onList thread far) kept
  · intro u other h own mine
    exact other (inv.own_apart own mine)
  · rw [leaves.switched.contexts]
    exact inv.sound.switch t place held
  · refine ⟨leaves.switched.running, ?_, ?_⟩
    · refine rest.congr (congrFun leaves.switched.threadFiber t) (congrFun leaves.switched.schedulerFiber t) ?_ ?_ ?_
      · intro e h _ inner waiting
        rw [points ?_]
        · exact waiting
        · rintro rfl
          obtain rfl := Point.entered.inj (entered.symm.trans waiting)
          exact outside inner
      · rintro h other inner ⟨before, found, ownStack, ownWay, works⟩
        refine ⟨before, (cores h).trans found, ownStack, ownWay, ?_⟩
        by_cases isTop : Execution.fiber h = top t below
        · rw [isTop, entered] at works
          rw [isTop, inside]
          exact works
        · rw [points isTop]
          exact works
      · rintro p e h own inner waiting kept
        refine leaves.switched.holds ?_ ?_ kept
        · rintro rfl
          obtain ⟨-, main⟩ | ⟨inner, -⟩ := own
          · exact unmain t main
          · exact outside inner
        · rintro rfl
          obtain rfl := Point.entered.inj (entered.symm.trans waiting)
          exact outside inner
    · rw [inside]
      refine leaves.current.trans (owned.symm.trans ?_)
      cases below <;> simp only [owner, leaves.switched.threadFiber]
  · intro h own
    rw [leaves.object]
    exact inv.kept t h (owns own)
  · intro main isMain
    rw [leaves.switched.threadFiber] at isMain
    rw [cores]
    exact inv.main t main isMain
  · rintro h other ((inner | target) | main) found ownStack unused
    · rw [shape] at inner
      obtain rfl | inner := List.mem_cons.mp inner
      · rw [cores] at found
        obtain rfl := Option.some.inj (there.symm.trans found)
        rw [points notTop]
        have kept := leaves.switched.held (running ▸ notTop)
        rw [running] at kept
        exact ⟨working.resting left, kept⟩
      · exact (unused (.inl inner)).elim
    · cases untargeted.symm.trans target
    · rw [cores] at found
      exact (inv.not_main found ownStack t main).elim
  · intro h other _ found plain
    exact inv.plain h other ((cores h).symm.trans found) plain
  · intro h _ begun
    rw [leaves.cur]
    refine inv.cur h ?_
    by_cases isTop : Execution.fiber h = top t below
    · rw [isTop, entered]
      intro no
      cases no
    · exact points isTop ▸ begun
  · intro h _ none
    have idle := inv.gone h fun _ found => none _ ((cores h).trans found)
    have apart : Execution.fiber h ≠ top t below := by
      intro isTop
      rw [Idle, isTop, entered] at idle
      obtain no | ⟨g, no⟩ := idle <;> cases no
    rw [Idle, points apart]
    exact idle
  · intro h beyond
    rw [leaves.switched.created] at beyond
    have none := inv.fresh h beyond
    have apart : Execution.fiber h ≠ top t below := by
      intro isTop
      rw [← isTop, none.2] at entered
      cases entered
    rw [leaves.object, points apart]
    exact none
  · refine leaves.switched.count.trans (inv.count.trans ?_)
    simp only [live, leaves.switched.created, leaves.object]

/-! ## The code of a thread -/

omit [DecidableEq τ] in
theorem At.empty (here : s.At t nest) (own : s.running t = .thread t) : nest = [] :=
  eq_nil_of_thread (here.running.symm.trans own)

/-- In the code of the thread nothing goes back to the scheduler fiber. -/
theorem Nested.setSchedulerFiber (inv : s.Nested list) (inside : s.point (s.running t) = .inside)
    (empty : list t = []) (f : FiberPtr) : (s.setSchedulerFiber t f).Nested list := by
  refine ⟨inv.sound, ?_, inv.nodup, inv.apart, inv.kept, inv.main, inv.mains, inv.resting, inv.plain, inv.cur,
    inv.gone, inv.fresh, inv.count⟩
  intro u
  by_cases same : u = t
  · subst same
    have here := inv.stands u
    have atTop := here.inside inside
    have current := here.current atTop
    rw [empty] at here atTop current ⊢
    refine ⟨here.running, trivial, ?_⟩
    change Stage _ u [] (s.point (top u []))
    rw [atTop]
    exact current
  · exact (inv.stands u).congr rfl rfl rfl (Function.update_of_ne same _ _) (fun _ _ => rfl) (fun _ _ => rfl)
      fun _ _ _ _ held => held

/-- A thread that is gone has no fibers. -/
theorem Nested.retire (inv : s.Nested list) (inside : s.point (s.running t) = .inside)
    (own : s.running t = .thread t) (f : Option FiberPtr) :
    (((s.setThis t f).setPoint (s.running t) .exited).setThreadFiber t none).Nested list := by
  have empty := (inv.stands t).empty own
  have atTop := (inv.stands t).inside inside
  rw [own]
  rw [empty] at atTop
  have exited : (((s.setThis t f).setPoint (.thread t) .exited).setThreadFiber t none).point (top t []) = .exited :=
    Function.update_self _ _ _
  have unmade : (((s.setThis t f).setPoint (.thread t) .exited).setThreadFiber t none).threadFiber t = none :=
    Function.update_self _ _ _
  have owns {g : FiberPtr} (owned : (((s.setThis t f).setPoint (.thread t) .exited).setThreadFiber t none).Own t [] g) :
      False := by
    obtain (member | aimed) | main := owned
    · cases member
    · rw [target, exited] at aimed
      cases aimed
    · cases unmade.symm.trans main
  have same : Function.update list t [] = list := by rw [← empty]; exact Function.update_eq_self _ _
  have still (g : FiberPtr) : Function.update s.point (.thread t) .exited (.fiber g) = s.point (.fiber g) :=
    Function.update_of_ne fiber_ne_thread _ _
  rw [← same]
  refine inv.of_steps (fun g => s.threadFiber t = some g) ?_ ?_ ?_ inv.sound ?_ List.nodup_nil (fun g own => (owns own).elim)
    (fun g own => (owns own).elim) ?_ ?_ ?_ ?_ ?_ ?_ ?_
  · refine ⟨fun _ _ => rfl, fun u other => Function.update_of_ne other _ _, fun u other => Function.update_of_ne other _ _,
      fun _ _ => rfl, fun e other _ => Function.update_of_ne other _ _, fun _ _ => rfl, fun _ _ => rfl,
      fun _ _ _ _ _ held => held⟩
  · rintro g ((member | target) | main)
    · rw [empty] at member
      cases member
    · rw [empty, not_target atTop] at target
      cases target
    · exact main
  · intro u other g owned main
    exact other (inv.own_apart owned (.inr main))
  · refine ⟨own, trivial, ?_⟩
    rw [exited]
    exact ⟨rfl, unmade⟩
  · intro m main
    cases unmade.symm.trans main
  · intro g fiber main found stack
    exact (inv.not_main found stack t main).elim
  · intro g fiber _ found plain
    exact inv.plain g fiber found plain
  · intro g _ begun
    exact inv.cur g fun same => begun ((still g).trans same)
  · intro g _ none
    have idle := inv.gone g none
    rw [Idle, ← still g] at idle
    exact idle
  · intro g beyond
    exact ⟨(inv.fresh g beyond).1, (still g).trans (inv.fresh g beyond).2⟩
  · exact inv.count

/-- A thread can end, and its main fiber goes with it unless it is still pointed to. -/
theorem Nested.exit (inv : s.Nested list) (inside : s.point (s.running t) = .inside) (own : s.running t = .thread t) :
    ∃ s', s.exit t = .ok s' ∧ s'.Nested list := by
  have empty := (inv.stands t).empty own
  have current := (inv.stands t).current ((inv.stands t).inside inside)
  rw [empty] at current
  have stays : s.setThis t (s.tFiber t) = s := by
    rw [setThis, Function.update_eq_self]
  cases main : s.threadFiber t with
  | none =>
    have retired := inv.retire inside own (s.tFiber t)
    rw [stays] at retired
    refine ⟨_, ?_, retired⟩
    rw [Fibers.exit, main]
    rfl
  | some m =>
    obtain ⟨fiber, found, handles⟩ := inv.kept t m (.inr main)
    have core := Option.some.inj ((core_eq found).symm.trans (inv.main t m main))
    have frames : fiber.frames = 0 := congrArg Fiber.frames core
    have gone (f : Option FiberPtr) (u : τ) :
        ¬ (((s.setThis t f).setPoint (s.running t) .exited).setThreadFiber t none).Own u (list u) m := by
      rintro (member | isMain)
      · obtain ⟨other, there, stack⟩ := ((inv.retire inside own f).stands u).member_stack member
        exact inv.not_main there stack t main
      · change Function.update s.threadFiber t none u = some m at isMain
        rw [Function.update_apply] at isMain
        split at isMain
        · cases isMain
        · rename_i other
          exact other (inv.mains u t m isMain main)
    have plain (f : Option FiberPtr) :
        (((s.setThis t f).setPoint (s.running t) .exited).setThreadFiber t none).Idle m := by
      refine (inv.retire inside own f).gone m fun other there => ?_
      obtain rfl := Option.some.inj ((inv.main t m main).symm.trans there)
      rfl
    by_cases last : fiber.handles - 1 = 0 ∧ fiber.frames = 0
    · refine ⟨_, ?_, (inv.retire inside own none).destroyed (f := m) found (gone none) (plain none)⟩
      have stack : fiber.stack = false := congrArg Fiber.stack core
      have cb : fiber.cb = false := congrArg Fiber.cb core
      have state : fiber.state = .exec := congrArg Fiber.state core
      rw [Fibers.exit, main]
      change ((s.get m >>= _) >>= _) = _
      rw [get_of found]
      change (drop t m { fiber with handles := fiber.handles - 1 } s >>= _) = _
      rw [drop, if_pos last, destroy]
      simp only [stack, cb, state, ne_eq, not_true_eq_false, Bool.false_eq_true, or_self, if_false]
      rw [if_pos (current.trans main)]
      rfl
    · have retired := inv.retire inside own (s.tFiber t)
      rw [stays] at retired
      refine ⟨_, ?_, retired.handles (f := m) found (fiber.handles - 1) ?_⟩
      · rw [Fibers.exit, main]
        change ((s.get m >>= _) >>= _) = _
        rw [get_of found]
        change (drop t m { fiber with handles := fiber.handles - 1 } s >>= _) = _
        rw [drop, if_neg last]
        rfl
      · intro u owned
        exact (gone (s.tFiber t) u (stays.symm ▸ owned)).elim

end Fibers

end Sylar
