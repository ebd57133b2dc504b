import Sylar.Proofs.Fiber.Switching

/-! # Runs of fibers

In a run whose steps meet their preconditions nothing fails, a fiber gives the thread back to what entered it, no stack is
executed by two threads, and no object goes while its function has begun and not ended.
-/

namespace Sylar

namespace Fibers

variable {τ : Type} [DecidableEq τ] {s s' : Fibers τ} {t u : τ} {f : FiberPtr} {list : τ → List FiberPtr}

theorem nested_start : (start : Fibers τ).Nested fun _ => [] where
  sound := by
    refine ⟨?_, ?_, ?_⟩
    · intro p copy none
      cases none
    · intro t p held
      cases held
    · intro t u same
      exact Execution.thread.inj same
  stands t := ⟨rfl, trivial, rfl⟩
  nodup _ := List.nodup_nil
  apart := by rintro t u f (member | aimed) <;> [cases member; cases aimed]
  kept := by rintro t f ((member | aimed) | main) <;> [cases member; cases aimed; cases main]
  main := by rintro t m ⟨⟩
  mains := by rintro t u m ⟨⟩
  resting := by rintro f fiber ⟨⟩
  plain := by rintro f fiber ⟨⟩
  cur f begun := (begun rfl).elim
  gone _ _ := .inl rfl
  fresh _ _ := ⟨rfl, rfl⟩
  count := rfl

/-- How the lists change: only the two switches change one. -/
inductive Follows (s : Fibers τ) (t : τ) (list : τ → List FiberPtr) : Action → (τ → List FiberPtr) → Prop
  | stays {a : Action} : Follows s t list a list
  | enters {how : Switch} {f : FiberPtr} (entering : s.point (s.running t) = .entering how f) :
      Follows s t list .enter (Function.update list t (f :: list t))
  | leaves {f : FiberPtr} {below : List FiberPtr} (shape : list t = f :: below) :
      Follows s t list .leave (Function.update list t below)

/-- A step that meets its precondition completes and keeps the invariant. -/
theorem Nested.perform {a : Action} (inv : s.Nested list) (allowed : s.Allowed t a) :
    ∃ s' list', s.perform t a = .ok s' ∧ s'.Nested list' ∧ Follows s t list a list' := by
  cases a with
  | getThis =>
    have inside : s.point (s.running t) = .inside := allowed
    obtain ⟨f, mid, got, inv', -, -, -, -, ⟨fiber, found⟩, -⟩ := inv.getThis inside
    obtain ⟨s', shared, done⟩ := inv'.share found
    refine ⟨s', list, ?_, done, .stays⟩
    rw [Fibers.perform, ifInside, if_pos inside, got]
    exact shared
  | create useCaller cb =>
    have inside : s.point (s.running t) = .inside := allowed
    refine ⟨_, list, ?_, inv.newFiber useCaller cb, .stays⟩
    rw [Fibers.perform, ifInside, if_pos inside]
  | share f =>
    obtain ⟨inside, fiber, found⟩ := allowed
    obtain ⟨s', shared, done⟩ := inv.share found
    refine ⟨s', list, ?_, done, .stays⟩
    rw [Fibers.perform, ifInside, if_pos inside, shared]
  | release f =>
    obtain ⟨inside, fiber, found, -, enough⟩ := allowed
    obtain ⟨s', released, done⟩ := inv.release inside found enough
    refine ⟨s', list, ?_, done, .stays⟩
    rw [Fibers.perform, ifInside, if_pos inside, released]
  | reset f useCaller cb =>
    obtain ⟨inside, free, fiber, found, stack, ended, -⟩ := allowed
    obtain ⟨s', made, done⟩ := inv.reset free found stack ended useCaller cb
    refine ⟨s', list, ?_, done, .stays⟩
    rw [Fibers.perform, ifInside, if_pos inside, made]
  | switchTo how f =>
    obtain ⟨inside, begins, free, fiber, found, stack, way, going, handles⟩ := allowed
    obtain ⟨s', switched, done⟩ := inv.switchTo inside begins free found stack way going handles
    refine ⟨s', list, ?_, done, .stays⟩
    rw [Fibers.perform, ifInside, if_pos inside, switched]
  | enter =>
    obtain ⟨how, f, entering⟩ := allowed
    obtain ⟨m, fiber, s', entered, link, owned, enters, way⟩ := inv.entersAt entering
    exact ⟨s', _, entered, inv.of_entersAt entering link owned enters way, .enters entering⟩
  | yieldToReady =>
    obtain ⟨inside, f, own⟩ := allowed
    obtain ⟨s', yielded, done⟩ := inv.yield inside own (.inl rfl)
    refine ⟨s', list, ?_, done, .stays⟩
    rw [Fibers.perform, ifInside, if_pos inside, yielded]
  | yieldToHold =>
    obtain ⟨inside, f, own⟩ := allowed
    obtain ⟨s', yielded, done⟩ := inv.yield inside own (.inr rfl)
    refine ⟨s', list, ?_, done, .stays⟩
    rw [Fibers.perform, ifInside, if_pos inside, yielded]
  | finish thrown =>
    obtain ⟨inside, f, fiber, own, found, can⟩ := allowed
    obtain ⟨s', ended, done⟩ := inv.finish inside own found can
    refine ⟨s', list, ?_, done, .stays⟩
    rw [Fibers.perform, ifInside, if_pos inside, ended]
  | leave =>
    obtain ⟨g, left⟩ := allowed
    obtain ⟨f, below, m, s', shape, done, owned, -, leaves⟩ := inv.leavesAt left
    exact ⟨s', _, done, inv.of_leavesAt shape left owned leaves, .leaves shape⟩
  | hold f =>
    obtain ⟨inside, free, fiber, found, stack, yielded⟩ := allowed
    obtain ⟨s', held, done⟩ := inv.hold free found stack yielded
    refine ⟨s', list, ?_, done, .stays⟩
    rw [Fibers.perform, ifInside, if_pos inside, held]
  | run =>
    obtain ⟨inside, own⟩ := allowed
    have empty := (inv.stands t).empty own
    obtain ⟨f, mid, got, inv', -, -, point, contexts, -, -⟩ := inv.getThis inside
    have inside' : mid.point (mid.running t) = .inside := by
      rw [running, contexts, point]
      exact inside
    refine ⟨_, list, ?_, inv'.setSchedulerFiber inside' empty f, .stays⟩
    rw [Fibers.perform, ifInside, if_pos inside, got]
    rfl
  | rootFiber =>
    obtain ⟨inside, own⟩ := allowed
    have empty := (inv.stands t).empty own
    obtain ⟨f, mid, got, inv', -, -, point, contexts, -, -⟩ := inv.getThis inside
    have inside' : (mid.newFiber true true).point ((mid.newFiber true true).running t) = .inside := by
      have own' : (mid.newFiber true true).running t = .thread t := (congrFun contexts t).trans own
      rw [own']
      change Function.update mid.point (.fiber mid.created) .entry (.thread t) = .inside
      rw [Function.update_of_ne fiber_ne_thread.symm, point, ← own]
      exact inside
    refine ⟨_, list, ?_, (inv'.newFiber true true).setSchedulerFiber inside' empty mid.created, .stays⟩
    rw [Fibers.perform, ifInside, if_pos inside, got]
    rfl
  | exit =>
    obtain ⟨inside, own⟩ := allowed
    obtain ⟨s', gone, done⟩ := inv.exit inside own
    refine ⟨s', list, ?_, done, .stays⟩
    rw [Fibers.perform, ifInside, if_pos inside, gone]

/-- The runs all of whose steps meet their preconditions. -/
def careful (τ : Type) [DecidableEq τ] : Machine (Fibers τ) (τ × Action) :=
  (machine τ).restrict fun s step => s.Allowed step.1 step.2

theorem nested_of_reachable (reached : (careful τ).Reachable s) : ∃ list, s.Nested list := by
  refine reached.invariant (P := fun s => ∃ list, s.Nested list) ?_ ?_
  · rintro s rfl
    exact ⟨_, nested_start⟩
  · rintro s ⟨t, a⟩ next ⟨list, inv⟩ ⟨allowed, ran⟩
    obtain ⟨s', list', done, inv', -⟩ := inv.perform allowed
    have ran : (s.perform t a).toOption = some next := ran
    rw [done] at ran
    obtain rfl := Option.some.inj ran
    exact ⟨list', inv'⟩

/-- No assertion fails, no null or dangling pointer is followed, and no context is resumed that is out of date. -/
theorem careful_completes (reached : (careful τ).Reachable s) (a : Action) (allowed : s.Allowed t a) :
    ∃ s', s.perform t a = .ok s' ∧ (careful τ).Reachable s' := by
  obtain ⟨list, inv⟩ := nested_of_reachable reached
  obtain ⟨s', -, done, -, -⟩ := inv.perform allowed
  refine ⟨s', done, reached.step (e := (t, a)) ⟨allowed, ?_⟩⟩
  change (s.perform t a).toOption = some s'
  rw [done]
  rfl

/-! ### A thread that runs a fiber until it yields -/

def firstSteps : List Action := [.run, .create false true, .switchTo .swapIn 1, .enter, .yieldToHold, .leave]

/-- The state after the first `n` of them. -/
def visited (n : ℕ) : Fibers Unit :=
  (firstSteps.take n).foldl (fun s a => (s.perform () a).toOption.getD s) start

theorem idle_visited : ¬ (visited 2).Busy 1 := by
  rintro ⟨e, entered⟩
  have point : (visited 2).point e = .inside ∨ (visited 2).point e = .entry := by
    cases e with
    | thread t => exact .inl rfl
    | fiber f =>
      refine .inr ?_
      change Function.update _ _ _ _ = _
      rw [Function.update_apply]
      split <;> rfl
  obtain point | point := point <;> rw [point] at entered <;> obtain no | ⟨how, no⟩ := entered <;> cases no

theorem allowed_visited : (visited 2).Allowed () (.switchTo .swapIn 1) :=
  ⟨rfl, ⟨0, rfl, .inr ⟨rfl, rfl⟩⟩, idle_visited, _, rfl, rfl, rfl, rfl, Nat.le_refl 1⟩

theorem reached_two : (careful Unit).Reachable (visited 2) := by
  have first : (careful Unit).Reachable (visited 1) :=
    .step (.init rfl) (e := ((), .run)) ⟨⟨rfl, rfl⟩, rfl⟩
  exact first.step (e := ((), .create false true)) ⟨rfl, rfl⟩

theorem careful_completes_visited : ∃ s', (visited 2).perform () (.switchTo .swapIn 1) = .ok s' ∧
    (careful Unit).Reachable s' := careful_completes reached_two _ allowed_visited

theorem reached_three : (careful Unit).Reachable (visited 3) :=
  reached_two.step (e := ((), .switchTo .swapIn 1)) ⟨allowed_visited, rfl⟩

theorem reached_four : (careful Unit).Reachable (visited 4) :=
  reached_three.step (e := ((), .enter)) ⟨⟨.swapIn, 1, rfl⟩, rfl⟩

/-- A step of the machine is what the action does. -/
theorem eq_of_step {a : Action} {next : Fibers τ} (step : (careful τ).Step s (t, a) s')
    (done : s.perform t a = .ok next) : next = s' := by
  have ran : (s.perform t a).toOption = some s' := step.2
  rw [done] at ran
  exact Option.some.inj ran

theorem careful_step {a : Action} (inv : s.Nested list) (step : (careful τ).Step s (t, a) s') :
    ∃ list', s'.Nested list' ∧ Follows s t list a list' := by
  obtain ⟨next, list', done, inv', follows⟩ := inv.perform step.1
  obtain rfl := eq_of_step step done
  exact ⟨list', inv', follows⟩

/-- The fiber of an execution. -/
def fiberOf (s : Fibers τ) : Execution τ → Option FiberPtr
  | .thread t => s.threadFiber t
  | .fiber f => some f

omit [DecidableEq τ] in
theorem owner_eq_fiberOf (nest : List FiberPtr) : s.owner t nest = s.fiberOf (top t nest) := by
  cases nest <;> rfl

/-- On a list with the fiber on it: below the fiber is the execution that entered it. -/
def EnteredFrom (s : Fibers τ) (t : τ) (f : FiberPtr) (e : Execution τ) : Prop :=
  ∃ list above below, s.Nested list ∧ list t = above ++ f :: below ∧ top t below = e

theorem EnteredFrom.step {e : Execution τ} {a : Action} (entered : s.EnteredFrom t f e)
    (step : (careful τ).Step s (u, a) s') (stays : ¬ ((u, a) = (t, .leave) ∧ s.running t = .fiber f)) :
    s'.EnteredFrom t f e := by
  obtain ⟨list, above, below, inv, shape, isTop⟩ := entered
  obtain ⟨list', inv', follows⟩ := careful_step inv step
  cases follows with
  | stays => exact ⟨list, above, below, inv', shape, isTop⟩
  | @enters how g entering =>
    by_cases same : u = t
    · subst same
      refine ⟨_, g :: above, below, inv', ?_, isTop⟩
      rw [Function.update_self, shape]
      rfl
    · exact ⟨_, above, below, inv', (Function.update_of_ne (Ne.symm same) _ _).trans shape, isTop⟩
  | @leaves g rest head =>
    by_cases same : u = t
    · subst same
      cases above with
      | nil =>
        refine (stays ⟨rfl, ?_⟩).elim
        rw [(inv.stands u).running, shape]
        rfl
      | cons h inner =>
        rw [shape] at head
        obtain ⟨-, rfl⟩ := List.cons_eq_cons.mp head
        exact ⟨_, inner, below, inv', Function.update_self _ _ _, isTop⟩
    · exact ⟨_, above, below, inv', (Function.update_of_ne (Ne.symm same) _ _).trans shape, isTop⟩

/-- `call` and `swapIn` return where they were called, whatever the thread has entered and left in between and whatever
other threads do: the first time that the fiber gives the thread back on that thread, `t_fiber` is the caller again and the
context of the fiber holds all it has done. -/
theorem switch_returns {s₀ s₁ s₂ s₃ : Fibers τ} {how : Switch} {events : List (τ × Action)}
    (reached : (careful τ).Reachable s₀) (entering : s₀.point (s₀.running t) = .entering how f)
    (enter : (careful τ).Step s₀ (t, .enter) s₁)
    (path : ((careful τ).restrict fun s step => ¬ (step = (t, .leave) ∧ s.running t = .fiber f)).Path s₁ events s₂)
    (own : s₂.running t = .fiber f) (leave : (careful τ).Step s₂ (t, .leave) s₃) :
    s₃.running t = s₀.running t ∧ s₃.point (s₀.running t) = .inside ∧
      s₃.tFiber t = s₃.fiberOf (s₀.running t) ∧ s₃.contexts.Holds f (.fiber f) := by
  obtain ⟨list, inv⟩ := nested_of_reachable reached
  have begins : s₁.EnteredFrom t f (s₀.running t) := by
    obtain ⟨m, fiber, s', done, link, owned, enters, way⟩ := inv.entersAt entering
    obtain rfl := eq_of_step enter done
    exact ⟨_, [], list t, inv.of_entersAt entering link owned enters way, Function.update_self _ _ _,
      (inv.stands t).running.symm⟩
  have still : s₂.EnteredFrom t f (s₀.running t) := by
    refine path.preserves (P := fun s => s.EnteredFrom t f (s₀.running t)) ?_ begins
    rintro s ⟨u, a⟩ s' entered ⟨stays, step⟩
    exact entered.step step stays
  obtain ⟨list, above, below, inv, shape, isTop⟩ := still
  obtain ⟨g, left⟩ := leave.1
  obtain ⟨h, rest, m, s', head, done, owned, -, leaves⟩ := inv.leavesAt left
  obtain rfl := eq_of_step leave done
  have innermost : h = f := by
    have running := (inv.stands t).running
    rw [head, own] at running
    exact (Execution.fiber.inj running).symm
  subst innermost
  have nodup := inv.nodup t
  rw [shape] at head nodup
  obtain ⟨rfl, rfl⟩ : above = [] ∧ below = rest := by
    cases above with
    | nil => exact ⟨rfl, (List.cons_eq_cons.mp head).2⟩
    | cons k inner =>
      obtain ⟨rfl, -⟩ := List.cons_eq_cons.mp head
      exact absurd (List.mem_append_right _ List.mem_cons_self) (List.nodup_cons.mp nodup).1
  rw [← isTop]
  refine ⟨leaves.switched.running, ?_, ?_, ?_⟩
  · rw [leaves.point, Function.update_self]
  · rw [leaves.current, ← owned, owner_eq_fiberOf]
    cases below with
    | nil => exact (congrFun leaves.switched.threadFiber t).symm
    | cons k inner => rfl
  · rw [← own]
    refine leaves.switched.held ?_
    rw [own]
    exact fun same => (List.nodup_cons.mp nodup).1 (mem_of_top same.symm)

theorem switch_returns_visited : (visited 6).running () = .thread () ∧
    (visited 6).point (.thread ()) = .inside ∧ (visited 6).tFiber () = (visited 6).fiberOf (.thread ()) ∧
    (visited 6).contexts.Holds 1 (.fiber 1) := by
  have yields : (careful Unit).Step (visited 4) ((), .yieldToHold) (visited 5) := ⟨⟨rfl, 1, rfl⟩, rfl⟩
  have leaves : (careful Unit).Step (visited 5) ((), .leave) (visited 6) := ⟨⟨1, .inl rfl⟩, rfl⟩
  have entering : (visited 3).point ((visited 3).running ()) = .entering .swapIn 1 := rfl
  refine switch_returns (t := ()) reached_three entering ⟨⟨.swapIn, 1, rfl⟩, rfl⟩ (.cons ⟨?_, yields⟩ (.nil _)) rfl leaves
  rintro ⟨same, -⟩
  cases same

/-- No two threads execute on one stack, and in its function a thread takes the fiber it executes to be the current one. -/
theorem current_is_running (reached : (careful τ).Reachable s) :
    Function.Injective (fun t => s.running t) ∧
      ∀ t, s.point (s.running t) = .inside → s.tFiber t = s.fiberOf (s.running t) := by
  obtain ⟨list, inv⟩ := nested_of_reachable reached
  refine ⟨inv.sound.apart, ?_⟩
  intro t inside
  have here := inv.stands t
  rw [here.current (here.inside inside), owner_eq_fiberOf, ← here.running]

theorem current_is_running_visited : Function.Injective (fun t => (visited 4).running t) ∧
    ∀ t, (visited 4).point ((visited 4).running t) = .inside →
      (visited 4).tFiber t = (visited 4).fiberOf ((visited 4).running t) := current_is_running reached_four

omit [DecidableEq τ] in
theorem Working.frames_pos {point : Point} {state : Sylar.Fiber.State} {frames : ℕ} (working : Working f point state frames)
    (going : ∀ g, point ≠ .ending g) : 1 ≤ frames := by
  cases point with
  | inside => exact Nat.le_of_eq working.2.symm
  | entering how g => exact Nat.le_of_eq working.2.symm
  | entered g => exact Nat.le_of_eq working.2.symm
  | yielding g => exact Nat.le_of_succ_le (Nat.le_of_eq working.2.2.symm)
  | ending g => exact (going g rfl).elim
  | entry => exact working.elim
  | exited => exact working.elim

omit [DecidableEq τ] in
theorem Awaited.frames_pos {point : Point} {state : Sylar.Fiber.State} {frames : ℕ} (awaited : Awaited f point state frames)
    (begun : point ≠ .entry) : 1 ≤ frames := by
  cases point with
  | entry => exact (begun rfl).elim
  | yielding g => exact Nat.le_of_succ_le (Nat.le_of_eq awaited.2.2.symm)
  | inside => exact awaited.elim
  | entering how g => exact awaited.elim
  | entered g => exact awaited.elim
  | ending g => exact awaited.elim
  | exited => exact awaited.elim

/-- A fiber whose function has begun and not ended is kept alive from its own stack, whoever has let go of it, and
`TotalFibers` counts the objects there are. -/
theorem begun_kept (reached : (careful τ).Reachable s) :
    s.fiberCount = s.live ∧ ∀ f, s.point (.fiber f) ≠ .entry → (∀ g, s.point (.fiber f) ≠ .ending g) →
      ∃ fiber, s.fiber f = some fiber ∧ 1 ≤ fiber.frames := by
  obtain ⟨list, inv⟩ := nested_of_reachable reached
  refine ⟨inv.count, ?_⟩
  intro f begun going
  obtain ⟨core, there, stack⟩ : ∃ core, s.core f = some core ∧ core.stack = true := by
    by_contra none
    have stackless : s.Stackless f := by
      intro fiber found
      by_contra stack
      exact none ⟨fiber, found, by simpa using stack⟩
    obtain idle | ⟨g, idle⟩ := inv.gone f stackless
    · exact begun idle
    · exact going g idle
  obtain ⟨fiber, found, rfl⟩ := Option.map_eq_some_iff.mp there
  refine ⟨fiber, found, ?_⟩
  by_cases busy : ∃ t, s.Member t (list t) f
  · obtain ⟨t, inList | aimed⟩ := busy
    · obtain ⟨how, other, same, -, -, working⟩ := (inv.stands t).chain.stands inList
      obtain rfl := Option.some.inj (there.symm.trans same)
      exact working.frames_pos going
    · obtain ⟨how, entering⟩ := target_eq_some.mp aimed
      have head := (inv.stands t).head
      rw [entering] at head
      obtain ⟨-, -, -, ⟨other, same, -, -, awaited⟩, -⟩ := head
      obtain rfl := Option.some.inj (there.symm.trans same)
      exact awaited.frames_pos begun
  · obtain ⟨rests, -⟩ := inv.resting f _ there stack fun t member => busy ⟨t, member⟩
    refine Nat.one_le_iff_ne_zero.mpr fun empty => ?_
    obtain idle | ⟨g, idle⟩ := rests.idle empty
    · exact begun idle
    · exact going g idle

theorem begun_kept_visited : (visited 4).fiberCount = (visited 4).live ∧
    ∀ f, (visited 4).point (.fiber f) ≠ .entry → (∀ g, (visited 4).point (.fiber f) ≠ .ending g) →
      ∃ fiber, (visited 4).fiber f = some fiber ∧ 1 ≤ fiber.frames := begun_kept reached_four

end Fibers

end Sylar
