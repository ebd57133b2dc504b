import Mathlib.Data.Finset.Card
import Sylar.Model.FiberContext

/-! # What each thread is in the middle of

The fibers that a thread has entered and not left form a list, the innermost one first. The invariant says for every
thread how the executions on its list stand to each other, that no fiber is on two lists, and that every other fiber is
at rest: its context holds all of its execution. The list is not part of the state; it is what the points of the
executions amount to.
-/

namespace Sylar

namespace Fibers

variable {τ : Type} {s s' : Fibers τ} {t u : τ} {f m : FiberPtr} {nest below : List FiberPtr}

/-! ## Members of a fiber, without the handles -/

def core (s : Fibers τ) (f : FiberPtr) : Option Fiber :=
  (s.fiber f).map fun fiber => { fiber with handles := 0 }

/-- The fiber of a thread. -/
def mainCore : Fiber := ⟨0, .exec, false, false, false, 0, 0⟩

/-- A fiber with a stack of its own that is entered by `how` and stands as `Shape` says. -/
def Stands (s : Fibers τ) (f : FiberPtr) (how : Switch)
    (Shape : Point → Sylar.Fiber.State → ℕ → Prop) : Prop :=
  ∃ fiber, s.core f = some fiber ∧ fiber.stack = true ∧ fiber.wayBack = how ∧
    Shape (s.point (.fiber f)) fiber.state fiber.frames

/-- Nobody has entered the fiber: it has not begun, has yielded or has ended. -/
def Resting (f : FiberPtr) : Point → Sylar.Fiber.State → ℕ → Prop
  | .entry, state, frames => state = .init ∧ frames = 0
  | .yielding g, state, frames => g = f ∧ (state = .ready ∨ state = .hold) ∧ frames = 2
  | .ending g, state, frames => g = f ∧ (state = .term ∨ state = .except) ∧ frames = 0
  | _, _, _ => False

/-- A thread is about to switch to the fiber. -/
def Awaited (f : FiberPtr) : Point → Sylar.Fiber.State → ℕ → Prop
  | .entry, state, frames => state = .exec ∧ frames = 0
  | .yielding g, state, frames => g = f ∧ state = .exec ∧ frames = 2
  | _, _, _ => False

/-- A thread has switched to the fiber. -/
def Working (f : FiberPtr) : Point → Sylar.Fiber.State → ℕ → Prop
  | .inside, state, frames => state = .exec ∧ frames = 1
  | .entering _ _, state, frames => state = .exec ∧ frames = 1
  | .entered _, state, frames => state = .exec ∧ frames = 1
  | .yielding g, state, frames => g = f ∧ (state = .ready ∨ state = .hold) ∧ frames = 2
  | .ending g, state, frames => g = f ∧ (state = .term ∨ state = .except) ∧ frames = 0
  | _, _, _ => False

/-! ## The list of a thread -/

/-- The innermost execution. -/
def top (t : τ) : List FiberPtr → Execution τ
  | [] => .thread t
  | f :: _ => .fiber f

/-- The fiber of the innermost execution. -/
def owner (s : Fibers τ) (t : τ) : List FiberPtr → Option FiberPtr
  | [] => s.threadFiber t
  | f :: _ => some f

/-- Every fiber of the list was entered from what is below, which is saved where the fiber gives the thread back to. -/
def Chain (s : Fibers τ) (t : τ) : List FiberPtr → Prop
  | [] => True
  | f :: below => s.point (top t below) = .entered f ∧
      (∃ how m, s.partner t how = some m ∧ s.owner t below = some m ∧ s.contexts.Holds m (top t below) ∧
        s.Stands f how (Working f)) ∧ Chain s t below

/-- The fiber the innermost execution is entering. -/
def target (s : Fibers τ) (t : τ) (nest : List FiberPtr) : Option FiberPtr :=
  match s.point (top t nest) with
  | .entering _ f => some f
  | _ => none

/-- The fibers of the list and the one that is being entered. -/
def Member (s : Fibers τ) (t : τ) (nest : List FiberPtr) (f : FiberPtr) : Prop :=
  f ∈ nest ∨ s.target t nest = some f

/-- What goes with the point of the innermost execution. -/
def Stage (s : Fibers τ) (t : τ) (nest : List FiberPtr) : Point → Prop
  | .inside => s.tFiber t = s.owner t nest
  | .yielding _ => nest ≠ [] ∧ s.tFiber t = s.owner t nest
  | .ending _ => nest ≠ [] ∧ s.tFiber t = s.owner t nest
  | .entering how f => s.tFiber t = some f ∧ f ∉ nest ∧ s.contexts.Holds f (.fiber f) ∧
      s.Stands f how (Awaited f) ∧ ∃ m, s.partner t how = some m ∧ s.owner t nest = some m
  | .exited => nest = [] ∧ s.threadFiber t = none
  | .entry => False
  | .entered _ => False

/-- A thread stands at the head of its list. -/
structure At (s : Fibers τ) (t : τ) (nest : List FiberPtr) : Prop where
  running : s.running t = top t nest
  chain : s.Chain t nest
  head : s.Stage t nest (s.point (top t nest))

/-- Nothing is left to be done on the stack of the fiber. -/
def Idle (s : Fibers τ) (f : FiberPtr) : Prop :=
  s.point (.fiber f) = .entry ∨ ∃ g, s.point (.fiber f) = .ending g

/-- There is no such fiber with a stack of its own. -/
def Stackless (s : Fibers τ) (f : FiberPtr) : Prop := ∀ fiber, s.core f = some fiber → fiber.stack = false

/-- How many objects there are. -/
def live (s : Fibers τ) : ℕ := ((Finset.range s.created).filter fun f => (s.fiber f).isSome = true).card

/-- The invariant, with the list of every thread. -/
structure Nested [DecidableEq τ] (s : Fibers τ) (nest : τ → List FiberPtr) : Prop where
  sound : s.contexts.Sound
  stands : ∀ t, s.At t (nest t)
  nodup : ∀ t, (nest t).Nodup
  apart : ∀ t u f, s.Member t (nest t) f → s.Member u (nest u) f → t = u
  kept : ∀ t f, s.Member t (nest t) f ∨ s.threadFiber t = some f →
    ∃ fiber, s.fiber f = some fiber ∧ 1 ≤ fiber.handles
  main : ∀ t m, s.threadFiber t = some m → s.core m = some mainCore
  mains : ∀ t u m, s.threadFiber t = some m → s.threadFiber u = some m → t = u
  resting : ∀ f fiber, s.core f = some fiber → fiber.stack = true → (∀ t, ¬ s.Member t (nest t) f) →
    Resting f (s.point (.fiber f)) fiber.state fiber.frames ∧ s.contexts.Holds f (.fiber f)
  plain : ∀ f fiber, s.core f = some fiber → fiber.stack = false → fiber = mainCore
  cur : ∀ f, s.point (.fiber f) ≠ .entry → s.cur (.fiber f) = some f
  gone : ∀ f, s.Stackless f → s.Idle f
  fresh : ∀ f, s.created ≤ f → s.fiber f = none ∧ s.point (.fiber f) = .entry
  count : s.fiberCount = s.live

/-- The fibers of a thread: those it is in the middle of and its main fiber. -/
def Own (s : Fibers τ) (t : τ) (nest : List FiberPtr) (f : FiberPtr) : Prop :=
  s.Member t nest f ∨ s.threadFiber t = some f

/-- An execution of the list. -/
def On (t : τ) (nest : List FiberPtr) (e : Execution τ) : Prop :=
  e = .thread t ∨ ∃ f ∈ nest, e = .fiber f

/-! ## Reading the lists -/

theorem on_top : On t nest (top t nest) := by
  cases nest with
  | nil => exact .inl rfl
  | cons f below => exact .inr ⟨f, List.mem_cons_self, rfl⟩

theorem On.tail {e : Execution τ} (on : On t below e) : On t (f :: below) e := by
  obtain rfl | ⟨g, member, rfl⟩ := on
  · exact .inl rfl
  · exact .inr ⟨g, List.mem_cons_of_mem _ member, rfl⟩

theorem owner_eq_some (owned : s.owner t nest = some m) : m ∈ nest ∨ s.threadFiber t = some m := by
  cases nest with
  | nil => exact .inr owned
  | cons f below =>
    obtain rfl := Option.some.inj owned
    exact .inl List.mem_cons_self

theorem owner_own (owned : s.owner t nest = some m) : s.Own t nest m := (owner_eq_some owned).imp_left .inl

theorem Stands.stack {how : Switch} {Shape : Point → Sylar.Fiber.State → ℕ → Prop}
    (stands : s.Stands f how Shape) : ∃ fiber, s.core f = some fiber ∧ fiber.stack = true := by
  obtain ⟨fiber, found, stack, -, -⟩ := stands
  exact ⟨fiber, found, stack⟩

theorem Chain.tail (chain : s.Chain t (f :: below)) : s.Chain t below := chain.2.2

theorem Chain.stands (chain : s.Chain t nest) (member : f ∈ nest) :
    ∃ how, s.Stands f how (Working f) := by
  induction nest with
  | nil => cases member
  | cons g below ih =>
    obtain rfl | inside := List.mem_cons.mp member
    · obtain ⟨-, ⟨how, _, -, -, -, stands⟩, -⟩ := chain
      exact ⟨how, stands⟩
    · exact ih chain.tail inside

/-- Whatever is on a list has been entered from what is below it. -/
theorem Chain.entered (chain : s.Chain t nest) (member : f ∈ nest) :
    ∃ e, On t nest e ∧ s.point e = .entered f := by
  induction nest with
  | nil => cases member
  | cons g below ih =>
    obtain rfl | inside := List.mem_cons.mp member
    · exact ⟨top t below, on_top.tail, chain.1⟩
    · obtain ⟨e, on, entered⟩ := ih chain.tail inside
      exact ⟨e, on.tail, entered⟩

theorem target_eq_some : s.target t nest = some f ↔ ∃ how, s.point (top t nest) = .entering how f := by
  unfold target
  constructor
  · intro found
    split at found
    · rename_i how g stands
      obtain rfl := Option.some.inj found
      exact ⟨how, stands⟩
    · cases found
  · rintro ⟨how, stands⟩
    rw [stands]

theorem At.member_stack (here : s.At t nest) (member : s.Member t nest f) :
    ∃ fiber, s.core f = some fiber ∧ fiber.stack = true := by
  obtain inside | aimed := member
  · obtain ⟨how, stands⟩ := here.chain.stands inside
    exact stands.stack
  · obtain ⟨how, entering⟩ := target_eq_some.mp aimed
    have head := here.head
    rw [entering] at head
    exact head.2.2.2.1.stack

/-- A fiber that some thread is in the middle of is busy. -/
theorem At.busy (here : s.At t nest) (member : s.Member t nest f) : s.Busy f := by
  obtain inside | aimed := member
  · obtain ⟨e, -, entered⟩ := here.chain.entered inside
    exact ⟨e, .inl entered⟩
  · obtain ⟨how, entering⟩ := target_eq_some.mp aimed
    exact ⟨top t nest, .inr ⟨how, entering⟩⟩

/-! ## Frames -/

theorem Stands.congr {how : Switch} {Shape : Point → Sylar.Fiber.State → ℕ → Prop} (stands : s.Stands f how Shape)
    (core : s'.core f = s.core f) (point : s'.point (.fiber f) = s.point (.fiber f)) : s'.Stands f how Shape := by
  obtain ⟨fiber, found, stack, way, shape⟩ := stands
  exact ⟨fiber, core.trans found, stack, way, point ▸ shape⟩

theorem Chain.congr (chain : s.Chain t nest) (main : s'.threadFiber t = s.threadFiber t)
    (scheduler : s'.schedulerFiber t = s.schedulerFiber t)
    (points : ∀ e f, On t nest e → f ∈ nest → s.point e = .entered f → s'.point e = .entered f)
    (stands : ∀ f how, f ∈ nest → s.Stands f how (Working f) → s'.Stands f how (Working f))
    (holds : ∀ m e f, e = .thread t ∧ s.threadFiber t = some m ∨ m ∈ nest ∧ e = .fiber m → f ∈ nest →
      s.point e = .entered f → s.contexts.Holds m e → s'.contexts.Holds m e) : s'.Chain t nest := by
  induction nest with
  | nil => trivial
  | cons f below ih =>
    obtain ⟨entered, ⟨how, m, link, owned, held, works⟩, rest⟩ := chain
    have owners : s'.owner t below = s.owner t below := by cases below <;> simp only [owner, main]
    have partners : s'.partner t how = s.partner t how := by cases how <;> simp only [partner, main, scheduler]
    refine ⟨points _ f on_top.tail List.mem_cons_self entered,
      ⟨how, m, partners.trans link, owners.trans owned, ?_, stands f how List.mem_cons_self works⟩, ?_⟩
    · refine holds m _ f ?_ List.mem_cons_self entered held
      cases below with
      | nil => exact .inl ⟨rfl, owned⟩
      | cons g rest =>
        obtain rfl := Option.some.inj owned
        exact .inr ⟨List.mem_cons_of_mem _ List.mem_cons_self, rfl⟩
    · refine ih rest ?_ ?_ ?_
      · intro e g on member
        exact points e g on.tail (List.mem_cons_of_mem _ member)
      · intro g how member
        exact stands g how (List.mem_cons_of_mem _ member)
      · rintro m e g (main | ⟨inside, own⟩) member
        · exact holds m e g (.inl main) (List.mem_cons_of_mem _ member)
        · exact holds m e g (.inr ⟨List.mem_cons_of_mem _ inside, own⟩) (List.mem_cons_of_mem _ member)

/-- A thread stays where it is if nothing changes that it is in the middle of. -/
theorem At.congr (here : s.At t nest) (running : s'.running t = s.running t) (current : s'.tFiber t = s.tFiber t)
    (main : s'.threadFiber t = s.threadFiber t) (scheduler : s'.schedulerFiber t = s.schedulerFiber t)
    (points : ∀ e, e = .thread t ∨ (∃ f, s.Member t nest f ∧ e = .fiber f) → s'.point e = s.point e)
    (cores : ∀ f, s.Member t nest f → s'.core f = s.core f)
    (holds : ∀ m e, s.Own t nest m → e = .thread t ∨ (∃ f, s.Member t nest f ∧ e = .fiber f) →
      s.contexts.Holds m e → s'.contexts.Holds m e) : s'.At t nest := by
  have members (e : Execution τ) (on : On t nest e) :
      e = .thread t ∨ ∃ f, s.Member t nest f ∧ e = .fiber f := by
    obtain own | ⟨f, member, same⟩ := on
    · exact .inl own
    · exact .inr ⟨f, .inl member, same⟩
  have headPoint := points _ (members _ on_top)
  have owners : s'.owner t nest = s.owner t nest := by cases nest <;> simp only [owner, main]
  refine ⟨running.trans here.running, ?_, ?_⟩
  · refine here.chain.congr main scheduler ?_ ?_ ?_
    · intro e f on _ entered
      rw [points e (members e on), entered]
    · intro f how member stands
      exact stands.congr (cores f (.inl member)) (points _ (.inr ⟨f, .inl member, rfl⟩))
    · rintro m e f (⟨rfl, main⟩ | ⟨inside, rfl⟩) _ _
      · exact holds m _ (.inr main) (.inl rfl)
      · exact holds m _ (.inl (.inl inside)) (.inr ⟨m, .inl inside, rfl⟩)
  · have head := here.head
    rw [headPoint]
    cases stands : s.point (top t nest) with
    | inside =>
      rw [stands] at head
      exact current.trans (head.trans owners.symm)
    | yielding g =>
      rw [stands] at head
      exact ⟨head.1, current.trans (head.2.trans owners.symm)⟩
    | ending g =>
      rw [stands] at head
      exact ⟨head.1, current.trans (head.2.trans owners.symm)⟩
    | entering how f =>
      rw [stands] at head
      obtain ⟨now, outside, held, awaited, m, link, owned⟩ := head
      have aimed : s.Member t nest f := .inr (target_eq_some.mpr ⟨how, stands⟩)
      have partners : s'.partner t how = s.partner t how := by cases how <;> simp only [partner, main, scheduler]
      exact ⟨current.trans now, outside, holds f _ (.inl aimed) (.inr ⟨f, aimed, rfl⟩) held,
        awaited.congr (cores f aimed) (points _ (.inr ⟨f, aimed, rfl⟩)), m, partners.trans link, owners.trans owned⟩
    | exited =>
      rw [stands] at head
      exact ⟨head.1, main.trans head.2⟩
    | entry => rw [stands] at head; exact head.elim
    | entered f => rw [stands] at head; exact head.elim

/-- What a step of thread `t` that is about the fibers `mine` leaves alone. -/
structure Steps (t : τ) (mine : FiberPtr → Prop) (s s' : Fibers τ) : Prop where
  running : ∀ u, u ≠ t → s'.running u = s.running u
  tFiber : ∀ u, u ≠ t → s'.tFiber u = s.tFiber u
  threadFiber : ∀ u, u ≠ t → s'.threadFiber u = s.threadFiber u
  schedulerFiber : ∀ u, u ≠ t → s'.schedulerFiber u = s.schedulerFiber u
  point : ∀ e, e ≠ .thread t → (∀ f, mine f → e ≠ .fiber f) → s'.point e = s.point e
  cur : ∀ f, ¬ mine f → s'.cur (.fiber f) = s.cur (.fiber f)
  fiber : ∀ f, ¬ mine f → s'.fiber f = s.fiber f
  holds : ∀ p e, ¬ mine p → e ≠ .thread t → (∀ f, mine f → e ≠ .fiber f) → s.contexts.Holds p e →
    s'.contexts.Holds p e

variable {list : τ → List FiberPtr} {mine : FiberPtr → Prop}

theorem core_eq {fiber : Fiber} (found : s.fiber f = some fiber) : s.core f = some { fiber with handles := 0 } := by
  rw [core, found]
  rfl

theorem fiber_ne_thread : (Execution.fiber f : Execution τ) ≠ .thread t := by
  intro same
  cases same

theorem fiber_ne_mine {g : FiberPtr} (other : ¬ mine f) (my : mine g) : (Execution.fiber f : Execution τ) ≠ .fiber g := by
  intro same
  obtain rfl := Execution.fiber.inj same
  exact other my

theorem Steps.core (steps : Steps t mine s s') (other : ¬ mine f) : s'.core f = s.core f := by
  rw [Fibers.core, Fibers.core, steps.fiber f other]

theorem Steps.fiberPoint (steps : Steps t mine s s') (other : ¬ mine f) :
    s'.point (.fiber f) = s.point (.fiber f) :=
  steps.point _ fiber_ne_thread fun _ => fiber_ne_mine other

theorem Steps.threadPoint (steps : Steps t mine s s') (other : u ≠ t) :
    s'.point (.thread u) = s.point (.thread u) := by
  refine steps.point _ ?_ ?_
  · intro same
    exact other (Execution.thread.inj same)
  · intro f _
    exact fiber_ne_thread.symm

theorem Steps.at (steps : Steps t mine s s') (here : s.At u below) (other : u ≠ t)
    (away : ∀ f, s.Own u below f → ¬ mine f) : s'.At u below := by
  refine here.congr (steps.running u other) (steps.tFiber u other) (steps.threadFiber u other)
    (steps.schedulerFiber u other) ?_ ?_ ?_
  · rintro e (rfl | ⟨f, member, rfl⟩)
    · exact steps.threadPoint other
    · exact steps.fiberPoint (away f (.inl member))
  · intro f member
    exact steps.core (away f (.inl member))
  · rintro m e place (rfl | ⟨f, member, rfl⟩)
    · refine steps.holds m _ (away m place) ?_ ?_
      · intro same
        exact other (Execution.thread.inj same)
      · intro f _
        exact fiber_ne_thread.symm
    · exact steps.holds m _ (away m place) fiber_ne_thread fun _ => fiber_ne_mine (away f (.inl member))

theorem Steps.member (steps : Steps t mine s s') (other : u ≠ t) (away : ∀ f, s.Own u below f → ¬ mine f) :
    s'.Member u below f ↔ s.Member u below f := by
  have point : s'.point (top u below) = s.point (top u below) := by
    cases below with
    | nil => exact steps.threadPoint other
    | cons g rest => exact steps.fiberPoint (away g (.inl (.inl List.mem_cons_self)))
  rw [Member, Member, target, target, point]

variable [DecidableEq τ]

/-- No fiber belongs to two threads. -/
theorem Nested.own_apart (inv : s.Nested list) (first : s.Own t (list t) f) (second : s.Own u (list u) f) :
    t = u := by
  have clash {v w : τ} (member : s.Member v (list v) f) (main : s.threadFiber w = some f) : False := by
    obtain ⟨fiber, found, stack⟩ := (inv.stands v).member_stack member
    obtain rfl := Option.some.inj (found.symm.trans (inv.main w f main))
    cases stack
  obtain first | first := first <;> obtain second | second := second
  · exact inv.apart t u f first second
  · exact (clash first second).elim
  · exact (clash second first).elim
  · exact inv.mains t u f first second

theorem Nested.idle (inv : s.Nested list) (free : ¬ s.Busy f) (t : τ) : ¬ s.Member t (list t) f :=
  fun member => free ((inv.stands t).busy member)

theorem Nested.lt_created (inv : s.Nested list) {fiber : Fiber} (found : s.fiber f = some fiber) : f < s.created := by
  by_contra beyond
  rw [(inv.fresh f (Nat.le_of_not_lt beyond)).1] at found
  cases found

/-- A step keeps the invariant if it does so for the thread and the fibers it is about. -/
theorem Nested.of_steps (inv : s.Nested list) (mine : FiberPtr → Prop) (steps : Steps t mine s s')
    (before : ∀ f, s.Own t (list t) f → mine f) (away : ∀ u, u ≠ t → ∀ f, s.Own u (list u) f → ¬ mine f)
    (sound : s'.contexts.Sound) (stands : s'.At t nest) (nodup : nest.Nodup)
    (own : ∀ f, s'.Own t nest f → mine f)
    (kept : ∀ f, s'.Own t nest f → ∃ fiber, s'.fiber f = some fiber ∧ 1 ≤ fiber.handles)
    (main : ∀ m, s'.threadFiber t = some m → s'.core m = some mainCore)
    (resting : ∀ f fiber, mine f → s'.core f = some fiber → fiber.stack = true → ¬ s'.Member t nest f →
      Resting f (s'.point (.fiber f)) fiber.state fiber.frames ∧ s'.contexts.Holds f (.fiber f))
    (plain : ∀ f fiber, mine f → s'.core f = some fiber → fiber.stack = false → fiber = mainCore)
    (cur : ∀ f, mine f → s'.point (.fiber f) ≠ .entry → s'.cur (.fiber f) = some f)
    (gone : ∀ f, mine f → s'.Stackless f → s'.Idle f)
    (fresh : ∀ f, s'.created ≤ f → s'.fiber f = none ∧ s'.point (.fiber f) = .entry)
    (count : s'.fiberCount = s'.live) :
    s'.Nested (Function.update list t nest) := by
  have others {u : τ} (other : u ≠ t) : Function.update list t nest u = list u := Function.update_of_ne other _ _
  have self : Function.update list t nest t = nest := Function.update_self _ _ _
  have memberIff {u : τ} {f : FiberPtr} (other : u ≠ t) :
      s'.Member u (list u) f ↔ s.Member u (list u) f := steps.member other (away u other)
  have clash {u : τ} {f : FiberPtr} (other : u ≠ t) (first : s'.Own t nest f) :
      ¬ s'.Own u (list u) f := by
    intro second
    rw [Own, memberIff other, steps.threadFiber u other] at second
    exact away u other f second (own f first)
  refine ⟨sound, ?_, ?_, ?_, ?_, ?_, ?_, ?_, ?_, ?_, ?_, fresh, count⟩
  · intro u
    by_cases same : u = t
    · rw [same, self]
      exact stands
    · rw [others same]
      exact steps.at (inv.stands u) same (away u same)
  · intro u
    by_cases same : u = t
    · rw [same, self]
      exact nodup
    · rw [others same]
      exact inv.nodup u
  · intro u v f first second
    by_cases left : u = t <;> by_cases right : v = t
    · rw [left, right]
    · subst left
      rw [self] at first
      rw [others right] at second
      exact (clash right (.inl first) (.inl second)).elim
    · subst right
      rw [self] at second
      rw [others left] at first
      exact (clash left (.inl second) (.inl first)).elim
    · rw [others left, memberIff left] at first
      rw [others right, memberIff right] at second
      exact inv.apart u v f first second
  · intro u f owned
    by_cases same : u = t
    · subst same
      rw [self] at owned
      exact kept f owned
    · rw [others same, memberIff same, steps.threadFiber u same] at owned
      rw [steps.fiber f (away u same f owned)]
      exact inv.kept u f owned
  · intro u m isMain
    by_cases same : u = t
    · subst same
      exact main m isMain
    · rw [steps.threadFiber u same] at isMain
      rw [steps.core (away u same m (.inr isMain))]
      exact inv.main u m isMain
  · intro u v m first second
    by_cases left : u = t <;> by_cases right : v = t
    · rw [left, right]
    · subst left
      exact (clash right (.inr first) (.inr second)).elim
    · subst right
      exact (clash left (.inr second) (.inr first)).elim
    · rw [steps.threadFiber u left] at first
      rw [steps.threadFiber v right] at second
      exact inv.mains u v m first second
  · intro f fiber found stack free
    by_cases my : mine f
    · have unused := free t
      rw [self] at unused
      exact resting f fiber my found stack unused
    · have unused (u : τ) : ¬ s.Member u (list u) f := by
        by_cases same : u = t
        · subst same
          exact fun member => my (before f (.inl member))
        · have := free u
          rwa [others same, memberIff same] at this
      rw [steps.core my] at found
      obtain ⟨rests, held⟩ := inv.resting f fiber found stack unused
      rw [steps.fiberPoint my]
      exact ⟨rests, steps.holds f _ my fiber_ne_thread (fun _ => fiber_ne_mine my) held⟩
  · intro f fiber found stack
    by_cases my : mine f
    · exact plain f fiber my found stack
    · rw [steps.core my] at found
      exact inv.plain f fiber found stack
  · intro f begun
    by_cases my : mine f
    · exact cur f my begun
    · rw [steps.fiberPoint my] at begun
      rw [steps.cur f my]
      exact inv.cur f begun
  · intro f none
    by_cases my : mine f
    · exact gone f my none
    · rw [Idle, steps.fiberPoint my]
      exact inv.gone f fun fiber found => none fiber ((steps.core my).trans found)

/-- What a step that is about one fiber alone leaves as it is. -/
structure Outside (g : FiberPtr) (s s' : Fibers τ) : Prop where
  running : ∀ t, s'.running t = s.running t
  tFiber : s'.tFiber = s.tFiber
  threadFiber : s'.threadFiber = s.threadFiber
  schedulerFiber : s'.schedulerFiber = s.schedulerFiber
  point : ∀ e, e ≠ .fiber g → s'.point e = s.point e
  cur : ∀ f, f ≠ g → s'.cur (.fiber f) = s.cur (.fiber f)
  fiber : ∀ f, f ≠ g → s'.fiber f = s.fiber f
  holds : ∀ p e, p ≠ g → e ≠ .fiber g → s.contexts.Holds p e → s'.contexts.Holds p e

omit [DecidableEq τ] in
theorem Outside.core {g : FiberPtr} (out : Outside g s s') (other : f ≠ g) : s'.core f = s.core f := by
  rw [Fibers.core, Fibers.core, out.fiber f other]

/-- What is about a fiber that no thread is in the middle of is no concern of any thread. -/
theorem Nested.of_outside {g : FiberPtr} (inv : s.Nested list) (out : Outside g s s')
    (free : ∀ t, ¬ s.Own t (list t) g) (sound : s'.contexts.Sound)
    (resting : ∀ fiber, s'.core g = some fiber → fiber.stack = true →
      Resting g (s'.point (.fiber g)) fiber.state fiber.frames ∧ s'.contexts.Holds g (.fiber g))
    (plain : ∀ fiber, s'.core g = some fiber → fiber.stack = false → fiber = mainCore)
    (cur : s'.point (.fiber g) ≠ .entry → s'.cur (.fiber g) = some g) (gone : s'.Stackless g → s'.Idle g)
    (fresh : ∀ f, s'.created ≤ f → s'.fiber f = none ∧ s'.point (.fiber f) = .entry)
    (count : s'.fiberCount = s'.live) : s'.Nested list := by
  have other {t : τ} {f : FiberPtr} (own : s.Own t (list t) f) : f ≠ g := by
    rintro rfl
    exact free t own
  have elsewhere {f : FiberPtr} (ne : f ≠ g) : (Execution.fiber f : Execution τ) ≠ .fiber g := by
    intro same
    exact ne (Execution.fiber.inj same)
  have topPoint (t : τ) : s'.point (top t (list t)) = s.point (top t (list t)) := by
    refine out.point _ ?_
    cases shape : list t with
    | nil => exact fiber_ne_thread.symm
    | cons f below => exact elsewhere (other (t := t) (.inl (.inl (by rw [shape]; exact List.mem_cons_self))))
  have memberIff (t : τ) (f : FiberPtr) : s'.Member t (list t) f ↔ s.Member t (list t) f := by
    rw [Member, Member, target, target, topPoint]
  refine ⟨sound, ?_, inv.nodup, ?_, ?_, ?_, ?_, ?_, ?_, ?_, ?_, fresh, count⟩
  · intro t
    refine (inv.stands t).congr (out.running t) (congrFun out.tFiber t) (congrFun out.threadFiber t)
      (congrFun out.schedulerFiber t) ?_ ?_ ?_
    · rintro e (rfl | ⟨f, member, rfl⟩)
      · exact out.point _ fiber_ne_thread.symm
      · exact out.point _ (elsewhere (other (.inl member)))
    · intro f member
      exact out.core (other (.inl member))
    · rintro m e own (rfl | ⟨f, member, rfl⟩)
      · exact out.holds m _ (other own) fiber_ne_thread.symm
      · exact out.holds m _ (other own) (elsewhere (other (.inl member)))
  · intro t u f first second
    exact inv.apart t u f ((memberIff t f).mp first) ((memberIff u f).mp second)
  · intro t f own
    rw [memberIff, out.threadFiber] at own
    rw [out.fiber f (other own)]
    exact inv.kept t f own
  · intro t m isMain
    rw [out.threadFiber] at isMain
    rw [out.core (other (.inr isMain))]
    exact inv.main t m isMain
  · rw [out.threadFiber]
    exact inv.mains
  · intro f fiber found stack unused
    by_cases same : f = g
    · subst same
      exact resting fiber found stack
    · rw [out.core same] at found
      obtain ⟨rests, held⟩ := inv.resting f fiber found stack fun t member => unused t ((memberIff t f).mpr member)
      rw [out.point _ (elsewhere same)]
      exact ⟨rests, out.holds f _ same (elsewhere same) held⟩
  · intro f fiber found stack
    by_cases same : f = g
    · subst same
      exact plain fiber found stack
    · exact inv.plain f fiber ((out.core same).symm.trans found) stack
  · intro f begun
    by_cases same : f = g
    · subst same
      exact cur begun
    · rw [out.point _ (elsewhere same)] at begun
      rw [out.cur f same]
      exact inv.cur f begun
  · intro f none
    by_cases same : f = g
    · subst same
      exact gone none
    · rw [Idle, out.point _ (elsewhere same)]
      exact inv.gone f fun fiber found => none fiber ((out.core same).trans found)

end Fibers

end Sylar
