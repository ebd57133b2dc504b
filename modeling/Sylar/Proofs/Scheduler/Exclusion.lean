import Mathlib.Algebra.GroupWithZero.Nat
import Sylar.Proofs.Scheduler.Steps

/-! # When no fiber is run by two workers at once

A worker has hold of a fiber from the moment it takes it from the queue until its last access to the
state of the fiber, and of its callback fiber and its idle fiber all the time. The state `EXEC` keeps
workers from taking a fiber only while its code executes: from the yield to the end of the update after
`swapIn`, and from the scan to `swapIn`, nothing does. If no worker takes a fiber that a worker has
hold of, then a context is entered only when it has been saved, and what executes is in state `EXEC`.
A fiber that has ended may be taken, since whoever takes it drops it, unless it is a callback fiber, which is
made anew for the next callback, or an idle fiber.
-/

namespace Sylar.Scheduler

variable {n : ℕ} {s t : Scheduler n} {w : Fin n} {f : FiberPtr}

/-! ## Having hold of a fiber -/

/-- The fiber whose state a worker at this location still has to read or write. -/
def Location.held : Location → Option FiberPtr
  | .fetched ⟨.fiber f, _⟩ => some f
  | .entering _ f | .resuming _ f | .executing _ f | .leaving _ f => some f
  | .returned _ f | .settling _ f | .holding f | .recycling f => some f
  | _ => none

/-- The fiber that the worker has taken from the queue and whose state it reads next. -/
def Location.fetches : Location → Option FiberPtr
  | .fetched ⟨.fiber f, _⟩ => some f
  | _ => none

/-- A callback fiber and an idle fiber are the worker's own, the fiber of a task is not. -/
def Slot.own (f : FiberPtr) : Slot → Option FiberPtr
  | .task => none
  | .cb | .idle => some f

/-- The callback fiber or idle fiber that `run` is busy with. -/
def Location.own : Location → Option FiberPtr
  | .entering slot f | .resuming slot f | .executing slot f => slot.own f
  | .leaving slot f | .returned slot f | .settling slot f => slot.own f
  | .recycling f => some f
  | _ => none

/-- The fiber the worker has seen not to have ended, before it sets its state. -/
def Location.live : Location → Option FiberPtr
  | .entering .task f | .holding f => some f
  | _ => none

/-- The fiber on whose stack the thread is. -/
def Location.inside : Location → Option FiberPtr
  | .executing _ f | .leaving _ f => some f
  | _ => none

/-- The fiber the thread has set to `EXEC` and whose code has not set it to anything else. -/
def Location.running : Location → Option FiberPtr
  | .resuming _ f | .executing _ f => some f
  | _ => none

def Worker.Holds (worker : Worker) (f : FiberPtr) : Prop :=
  worker.location.held = some f ∨ worker.cbFiber = some f ∨ worker.idleFiber = some f

/-- The fiber is the callback fiber or the idle fiber of the worker. -/
def Worker.Owns (worker : Worker) (f : FiberPtr) : Prop :=
  worker.location.own = some f ∨ worker.cbFiber = some f ∨ worker.idleFiber = some f

/-- The fiber that the next step of the worker would take from the queue. -/
def taking (w : Fin n) (s : Scheduler n) : Option FiberPtr :=
  match (s.worker w).location, (s.found w).taken with
  | .scan, some ⟨.fiber f, _⟩ => some f
  | _, _ => none

/-- A step that takes a fiber from the queue takes one that no worker has hold of, or one that has ended and is no
worker's callback fiber or idle fiber. -/
def TakesFree (s : Scheduler n) : Action n → Prop
  | .work w => ∀ f ∈ s.taking w, (∀ other, ¬ (s.worker other).Holds f) ∨
      (s.fiber f).ended = true ∧ ∀ other, ¬ (s.worker other).Owns f
  | _ => True

instance (worker : Worker) (f : FiberPtr) : Decidable (worker.Holds f) :=
  inferInstanceAs (Decidable (_ ∨ _))

instance (worker : Worker) (f : FiberPtr) : Decidable (worker.Owns f) :=
  inferInstanceAs (Decidable (_ ∨ _))

instance (s : Scheduler n) (action : Action n) : Decidable (TakesFree s action) :=
  match action with
  | .work w => inferInstanceAs (Decidable (∀ f ∈ s.taking w, _))
  | .leave _ _ | .schedule _ | .create | .stop => isTrue trivial

section Location

variable {location : Location}

theorem Location.held_of_inside (inside : location.inside = some f) : location.held = some f := by
  cases location <;> first | exact inside | cases inside

theorem Location.held_of_running (running : location.running = some f) : location.held = some f := by
  cases location <;> first | exact running | cases running

theorem Location.held_of_fetches (fetches : location.fetches = some f) : location.held = some f := by
  unfold Location.fetches at fetches
  split at fetches
  · exact fetches
  · cases fetches

theorem Location.held_of_live (live : location.live = some f) : location.held = some f := by
  unfold Location.live at live
  split at live <;> first | exact live | cases live

theorem Slot.eq_of_own {slot : Slot} {g : FiberPtr} (own : slot.own f = some g) : f = g := by
  cases slot with
  | task => cases own
  | cb | idle => exact Option.some.inj own

theorem Location.held_of_own (own : location.own = some f) : location.held = some f := by
  cases location with
  | entering | resuming | executing | leaving | returned | settling => exact congrArg some (Slot.eq_of_own own)
  | recycling => exact own
  | _ => cases own

/-- The worker has looked at the fiber it has taken. -/
theorem Location.fetches_of_inside (inside : location.inside = some f) : location.fetches = none := by
  cases location <;> first | rfl | cases inside

theorem Location.fetches_of_running (running : location.running = some f) : location.fetches = none := by
  cases location <;> first | rfl | cases running

theorem Location.fetches_of_live (live : location.live = some f) : location.fetches = none := by
  cases location <;> first | rfl | cases live

end Location

theorem Worker.Owns.holds {worker : Worker} (owns : worker.Owns f) : worker.Holds f :=
  owns.imp_left Location.held_of_own

/-- The worker has hold of the fiber and is not about to drop it. -/
def Uses (s : Scheduler n) (w : Fin n) (f : FiberPtr) : Prop :=
  (s.worker w).Holds f ∧ ((s.worker w).location.fetches = some f → (s.fiber f).ended = false)

theorem Worker.Holds.uses (held : (s.worker w).Holds f) (looked : (s.worker w).location.fetches = none) :
    s.Uses w f :=
  ⟨held, fun fetches => nomatch looked.symm.trans fetches⟩

theorem uses_of_location {location : Location} (located : (s.worker w).location = location)
    (held : location.held = some f) (looked : location.fetches = none) : s.Uses w f := by
  subst located
  exact Worker.Holds.uses (.inl held) looked

/-- Each fiber that is not dropped is used by one worker at most; it is unsaved only while that worker is on its
stack, and in state `EXEC` while that worker runs it. -/
structure Exclusive (s : Scheduler n) : Prop where
  alone : ∀ w w' f, s.Uses w f → s.Uses w' f → w = w'
  dropped : ∀ w w' f, (s.worker w).location.fetches = some f → (s.fiber f).ended = true → ¬ (s.worker w').Owns f
  live : ∀ w f, (s.worker w).location.live = some f → (s.fiber f).ended = false
  saved : ∀ f, (s.fiber f).saved = false → ∃ w, (s.worker w).location.inside = some f
  exec : ∀ w f, (s.worker w).location.running = some f → (s.fiber f).state = .exec
  created : ∀ w f, (s.worker w).Holds f ∨ (s.worker w).location = .rescheduling f → f ≤ s.fiberId
  queued : ∀ ft ∈ s.fibers, ft.Exists s

theorem started_exclusive : Exclusive (started : Scheduler n) where
  alone := by rintro w w' f ⟨⟨⟨⟩⟩ | ⟨⟨⟩⟩ | ⟨⟨⟩⟩, -⟩
  dropped := by rintro w w' f ⟨⟩
  live := by rintro w f ⟨⟩
  saved := by rintro f ⟨⟩
  exec := by rintro w f ⟨⟩
  created := by rintro w f ((⟨⟨⟩⟩ | ⟨⟨⟩⟩ | ⟨⟨⟩⟩) | ⟨⟨⟩⟩)
  queued := by rintro ft ⟨⟩

theorem worker_goto (w : Fin n) (location : Location) (s : Scheduler n) :
    (s.goto w location).worker = Function.update s.worker w { s.worker w with location } := rfl

/-- Where the branches after `swapIn` lead, and what they have seen. -/
theorem settle_cases (slot : Slot) (f : FiberPtr) (fiber : Fiber) :
    settle slot f fiber = .scan ∨ settle slot f fiber = .rescheduling f ∨
      settle slot f fiber = .holding f ∧ fiber.ended = false ∨
      settle slot f fiber = .recycling f ∧ slot = .cb := by
  unfold settle
  cases slot <;> dsimp only <;> split_ifs <;> simp_all

namespace Exclusive

/-- A fiber that a worker uses without being on its stack is saved. -/
theorem saved_of_uses (exclusive : Exclusive s) (uses : s.Uses w f)
    (outside : (s.worker w).location.inside = none) : (s.fiber f).saved = true := by
  by_contra unsaved
  obtain ⟨other, inside⟩ := exclusive.saved f (Bool.eq_false_of_not_eq_true unsaved)
  have uses' : s.Uses other f :=
    uses_of_location rfl (Location.held_of_inside inside) (Location.fetches_of_inside inside)
  have same := exclusive.alone w other f uses uses'
  rw [← same, outside] at inside
  cases inside

/-- What one worker may do on its own: change fibers it uses or that nobody has hold of, and no others. -/
theorem move (exclusive : Exclusive s) {worker : Worker} (new : FiberPtr → Prop)
    (workers : t.worker = Function.update s.worker w worker)
    (free : ∀ f, new f → ∀ other, ¬ (s.worker other).Holds f)
    (gained : ∀ f, t.Uses w f → s.Uses w f ∨ new f)
    (owned : ∀ f, worker.Owns f → (s.worker w).Owns f ∨ new f)
    (fetched : ∀ f, worker.location.fetches = some f → (t.fiber f).ended = true →
      ∀ other, ¬ (t.worker other).Owns f)
    (fibers : ∀ f, ¬ s.Uses w f → ¬ new f → t.fiber f = s.fiber f)
    (revived : ∀ f, (s.fiber f).ended = true → (t.fiber f).ended = false → (s.worker w).Owns f ∨ new f)
    (live : ∀ f, worker.location.live = some f → (t.fiber f).ended = false)
    (saved : ∀ f, (t.fiber f).saved = false → worker.location.inside = some f ∨
      (s.fiber f).saved = false ∧ (s.worker w).location.inside ≠ some f)
    (exec : ∀ f, worker.location.running = some f → (t.fiber f).state = .exec)
    (created : ∀ f, worker.Holds f ∨ worker.location = .rescheduling f → f ≤ t.fiberId)
    (grown : s.fiberId ≤ t.fiberId) (queued : ∀ ft ∈ t.fibers, ft.Exists t) : Exclusive t := by
  have self : t.worker w = worker := by rw [workers, Function.update_self]
  have others (u : Fin n) (different : u ≠ w) : t.worker u = s.worker u := by
    rw [workers, Function.update_of_ne different]
  -- The fibers that the others use are as they were.
  have kept (u : Fin n) (different : u ≠ w) (f : FiberPtr) (uses : s.Uses u f) : t.fiber f = s.fiber f :=
    fibers f (fun mine => different (exclusive.alone u w f uses mine)) fun fresh => free f fresh u uses.1
  -- No worker but this one comes to use a fiber.
  have before (u : Fin n) (different : u ≠ w) (f : FiberPtr) (uses : t.Uses u f) : s.Uses u f := by
    obtain ⟨held, alive⟩ := uses
    rw [others u different] at held alive
    refine ⟨held, fun fetches => ?_⟩
    by_contra ended
    have ended : (s.fiber f).ended = true := Bool.eq_true_of_not_eq_false ended
    rcases revived f ended (alive fetches) with owns | fresh
    · exact exclusive.dropped u w f fetches ended owns
    · exact free f fresh u held
  have apart (u : Fin n) (different : u ≠ w) (f : FiberPtr) (uses : t.Uses w f) (uses' : t.Uses u f) : False := by
    rcases gained f uses with mine | fresh
    · exact different (exclusive.alone u w f (before u different f uses') mine)
    · exact free f fresh u (before u different f uses').1
  refine ⟨?_, ?_, ?_, ?_, ?_, ?_, queued⟩
  · intro u u' f uses uses'
    rcases eq_or_ne u w with rfl | different
    · rcases eq_or_ne u' u with same | different'
      · exact same.symm
      · exact (apart u' different' f uses uses').elim
    · rcases eq_or_ne u' w with rfl | different'
      · exact (apart u different f uses' uses).elim
      · exact exclusive.alone u u' f (before u different f uses) (before u' different' f uses')
  · intro u u' f fetches ended owns
    rcases eq_or_ne u w with rfl | different
    · rw [self] at fetches
      exact fetched f fetches ended u' owns
    · rw [others u different] at fetches
      have held : (s.worker u).Holds f := .inl (Location.held_of_fetches fetches)
      have ended : (s.fiber f).ended = true := by
        by_contra alive
        rw [kept u different f ⟨held, fun _ => Bool.eq_false_of_not_eq_true alive⟩] at ended
        exact alive ended
      refine exclusive.dropped u u' f fetches ended ?_
      rcases eq_or_ne u' w with rfl | different'
      · rw [self] at owns
        exact (owned f owns).resolve_right fun fresh => free f fresh u held
      · rwa [others u' different'] at owns
  · intro u f located
    rcases eq_or_ne u w with rfl | different
    · rw [self] at located
      exact live f located
    · rw [others u different] at located
      rw [kept u different f
        (uses_of_location rfl (Location.held_of_live located) (Location.fetches_of_live located))]
      exact exclusive.live u f located
  · intro f unsaved
    rcases saved f unsaved with inside | ⟨before, outside⟩
    · exact ⟨w, by rwa [self]⟩
    · obtain ⟨u, inside⟩ := exclusive.saved f before
      have different : u ≠ w := by
        rintro rfl
        exact outside inside
      exact ⟨u, by rwa [others u different]⟩
  · intro u f running
    rcases eq_or_ne u w with rfl | different
    · rw [self] at running
      exact exec f running
    · rw [others u different] at running
      rw [kept u different f
        (uses_of_location rfl (Location.held_of_running running) (Location.fetches_of_running running))]
      exact exclusive.exec u f running
  · intro u f named
    rcases eq_or_ne u w with rfl | different
    · rw [self] at named
      exact created f named
    · rw [others u different] at named
      exact (exclusive.created u f named).trans grown

/-- A step that changes no fiber and takes none. -/
theorem still (exclusive : Exclusive s) {worker : Worker}
    (workers : t.worker = Function.update s.worker w worker) (fibers : t.fiber = s.fiber)
    (ids : t.fiberId = s.fiberId) (queued : ∀ ft ∈ t.fibers, ft.Exists s)
    (outside : (s.worker w).location.inside = none) (paused : worker.location.running = none)
    (gained : ∀ f, worker.Holds f → s.Uses w f) (owned : ∀ f, worker.Owns f → (s.worker w).Owns f)
    (looked : worker.location.fetches = none)
    (live : ∀ f, worker.location.live = some f → (s.fiber f).ended = false)
    (rescheduled : ∀ f, worker.location = .rescheduling f → (s.worker w).Holds f) : Exclusive t := by
  have self : t.worker w = worker := by rw [workers, Function.update_self]
  apply exclusive.move (fun _ => False) workers
  · exact fun _ none => none.elim
  · rintro f ⟨holds, -⟩
    rw [self] at holds
    exact .inl (gained f holds)
  · exact fun f owns => .inl (owned f owns)
  · intro f fetches
    cases looked.symm.trans fetches
  · intro f _ _
    rw [fibers]
  · intro f ended alive
    rw [fibers, ended] at alive
    cases alive
  · intro f located
    rw [fibers]
    exact live f located
  · intro f unsaved
    rw [fibers] at unsaved
    rw [outside]
    exact .inr ⟨unsaved, nofun⟩
  · intro f running
    rw [paused] at running
    cases running
  · intro f named
    rw [ids]
    rcases named with holds | location
    · exact exclusive.created w f (.inl (gained f holds).1)
    · exact exclusive.created w f (.inl (rescheduled f location))
  · exact ids.ge
  · intro ft member f task
    rw [ids]
    exact queued ft member f task

/-- A step that changes one fiber, which the worker holds or has just created. -/
theorem set (exclusive : Exclusive s) {worker : Worker} {fiber : Fiber}
    (workers : t.worker = Function.update s.worker w worker)
    (fibers : t.fiber = Function.update s.fiber f fiber) (queue : t.fibers = s.fibers)
    (grown : s.fiberId ≤ t.fiberId)
    (held : (s.worker w).Holds f ∨ s.fiberId < f ∧ f ≤ t.fiberId)
    (gained : ∀ g, worker.Holds g → (s.worker w).Holds g ∨ g = f)
    (owned : ∀ g, worker.Owns g → (s.worker w).Owns g ∨ g = f ∧ s.fiberId < f)
    (revived : (s.fiber f).ended = true → fiber.ended = false → (s.worker w).Owns f ∨ s.fiberId < f)
    (idle : (s.worker w).location.fetches = none) (looked : worker.location.fetches = none)
    (unseen : worker.location.live = none)
    (inside : (s.worker w).location.inside = none ∨ (s.worker w).location.inside = some f)
    (saved : fiber.saved = false → worker.location.inside = some f)
    (exec : worker.location.running = none ∨ worker.location.running = some f ∧ fiber.state = .exec)
    (queues : ∀ g, worker.location ≠ .rescheduling g) : Exclusive t := by
  have self : t.worker w = worker := by rw [workers, Function.update_self]
  have fresh (new : s.fiberId < f) (other : Fin n) : ¬ (s.worker other).Holds f := fun before =>
    absurd (exclusive.created other f (.inl before)) (not_le.mpr new)
  apply exclusive.move (fun g => g = f ∧ s.fiberId < f) workers
  · rintro g ⟨rfl, new⟩
    exact fresh new
  · rintro g ⟨holds, -⟩
    rw [self] at holds
    rcases gained g holds with before | rfl
    · exact .inl (before.uses idle)
    · exact held.imp (fun before => before.uses idle) fun created => ⟨rfl, created.1⟩
  · exact owned
  · intro g fetches
    cases looked.symm.trans fetches
  · intro g free old
    have different : g ≠ f := by
      rintro rfl
      rcases held with before | created
      · exact free (before.uses idle)
      · exact old ⟨rfl, created.1⟩
    rw [fibers, Function.update_of_ne different]
  · intro g ended alive
    rw [fibers] at alive
    rcases eq_or_ne g f with rfl | different
    · rw [Function.update_self] at alive
      exact (revived ended alive).imp_right fun new => ⟨rfl, new⟩
    · rw [Function.update_of_ne different, ended] at alive
      cases alive
  · intro g located
    cases unseen.symm.trans located
  · intro g unsaved
    rw [fibers] at unsaved
    rcases eq_or_ne g f with rfl | different
    · rw [Function.update_self] at unsaved
      exact .inl (saved unsaved)
    · rw [Function.update_of_ne different] at unsaved
      refine .inr ⟨unsaved, ?_⟩
      rcases inside with none | here
      · rw [none]; nofun
      · rw [here]; exact fun same => different (Option.some.inj same).symm
  · intro g running
    rcases exec with none | ⟨here, state⟩
    · rw [none] at running
      cases running
    · rw [here] at running
      cases running
      rw [fibers, Function.update_self, state]
  · intro g named
    rcases named with holds | location
    · rcases gained g holds with before | rfl
      · exact (exclusive.created w g (.inl before)).trans grown
      · rcases held with before | created
        · exact (exclusive.created w g (.inl before)).trans grown
        · exact created.2
    · exact absurd location (queues g)
  · exact grown
  · intro ft member g task
    rw [queue] at member
    exact (exclusive.queued ft member g task).trans grown

/-- A step to another location that changes no fiber and takes none. -/
theorem goto (exclusive : Exclusive s) {old location : Location} (located : (s.worker w).location = old)
    (outside : old.inside = none) (paused : location.running = none)
    (gained : ∀ f, location.held = some f → s.Uses w f)
    (owned : ∀ f, location.own = some f → (s.worker w).Owns f) (looked : location.fetches = none)
    (live : ∀ f, location.live = some f → (s.fiber f).ended = false)
    (rescheduled : ∀ f, location = .rescheduling f → (s.worker w).Holds f) :
    Exclusive (s.goto w location) := by
  subst located
  apply exclusive.still (worker_goto w location s) rfl rfl exclusive.queued outside paused
  · rintro f (held | kept)
    · exact gained f held
    · refine ⟨.inr kept, fun fetches => ?_⟩
      by_contra ended
      exact exclusive.dropped w w f fetches (Bool.eq_true_of_not_eq_false ended) (.inr kept)
  · rintro f (own | kept)
    · exact owned f own
    · exact .inr kept
  · exact looked
  · exact live
  · exact rescheduled

/-- A step to another location that changes the fiber it is about. -/
theorem setGoto (exclusive : Exclusive s) {old location : Location} {fiber : Fiber}
    (located : (s.worker w).location = old) (held : old.held = some f)
    (inside : old.inside = none ∨ old.inside = some f)
    (gained : location.held = none ∨ location.held = some f)
    (owned : ∀ g, location.own = some g → old.own = some g)
    (revived : (s.fiber f).ended = true → fiber.ended = false → old.own = some f)
    (idle : old.fetches = none) (looked : location.fetches = none) (unseen : location.live = none)
    (saved : fiber.saved = false → location.inside = some f)
    (exec : location.running = none ∨ location.running = some f ∧ fiber.state = .exec)
    (queues : ∀ g, location ≠ .rescheduling g) : Exclusive ((s.setFiber f fiber).goto w location) := by
  subst located
  refine exclusive.set (worker_goto w location (s.setFiber f fiber)) rfl rfl le_rfl (.inl (.inl held)) ?_ ?_
    (fun ended alive => .inl (.inl (revived ended alive))) idle looked unseen inside saved exec queues
  · rintro g (now | kept)
    · rcases gained with none | here
      · cases none.symm.trans now
      · exact .inr (Option.some.inj (now.symm.trans here))
    · exact .inl (.inr kept)
  · rintro g (own | kept)
    · exact .inl (.inl (owned g own))
    · exact .inl (.inr kept)

/-- The counters play no part. -/
theorem counters (exclusive : Exclusive s) (activeThreadCount idleThreadCount : ℕ) :
    Exclusive { s with activeThreadCount, idleThreadCount } :=
  { exclusive with }

/-- Entries that leave the queue play no part. -/
theorem shrink (exclusive : Exclusive s) {fibers : List FiberAndThread} (fewer : fibers ⊆ s.fibers) :
    Exclusive { s with fibers } :=
  { exclusive with queued := fun ft member => exclusive.queued ft (fewer member) }

theorem schedule (exclusive : Exclusive s) {ft : FiberAndThread} (known : ft.Exists s) :
    Exclusive (s.schedule ft) :=
  { exclusive with
    queued := by
      intro it member
      rcases List.mem_append.mp member with before | last
      · exact exclusive.queued it before
      · rw [List.mem_singleton.mp last]
        exact known }

theorem newFiber (exclusive : Exclusive s) : Exclusive s.newFiber := by
  have same (w : Fin n) (f : FiberPtr) (held : (s.worker w).Holds f) : s.newFiber.fiber f = s.fiber f :=
    Function.update_of_ne (Nat.lt_succ_of_le (exclusive.created w f (.inl held))).ne _ _
  have before (w : Fin n) (f : FiberPtr) (uses : s.newFiber.Uses w f) : s.Uses w f := by
    obtain ⟨held, alive⟩ := uses
    rw [same w f held] at alive
    exact ⟨held, alive⟩
  refine ⟨?_, ?_, ?_, ?_, ?_, ?_, ?_⟩
  · exact fun u u' f uses uses' => exclusive.alone u u' f (before u f uses) (before u' f uses')
  · intro u u' f fetches ended
    rw [same u f (.inl (Location.held_of_fetches fetches))] at ended
    exact exclusive.dropped u u' f fetches ended
  · intro u f located
    rw [same u f (.inl (Location.held_of_live located))]
    exact exclusive.live u f located
  · intro f unsaved
    rw [Scheduler.newFiber] at unsaved
    dsimp only at unsaved
    rcases eq_or_ne f (s.fiberId + 1) with rfl | different
    · rw [Function.update_self] at unsaved
      cases unsaved
    · rw [Function.update_of_ne different] at unsaved
      exact exclusive.saved f unsaved
  · intro u f running
    rw [same u f (.inl (Location.held_of_running running))]
    exact exclusive.exec u f running
  · exact fun u f named => (exclusive.created u f named).trans (Nat.le_succ _)
  · exact fun ft member f task => (exclusive.queued ft member f task).trans (Nat.le_succ _)

/-- The entry a worker takes comes from the queue, and the fiber in it is free or has ended. -/
theorem take (exclusive : Exclusive s) (free : TakesFree s (.work w)) {ft : FiberAndThread}
    (located : (s.worker w).location = .scan) (taken : (s.found w).taken = some ft) :
    Exclusive (Scheduler.goto w (.fetched ft)
      { s with fibers := (s.found w).left, activeThreadCount := s.activeThreadCount + 1 }) := by
  have perm : ((s.found w).taken.toList ++ (s.found w).left).Perm s.fibers := scan_perm _ _ _
  have queued : ft ∈ s.fibers := by
    apply perm.subset
    rw [taken]
    exact List.mem_append_left _ (List.mem_singleton.mpr rfl)
  have fewer : (s.found w).left ⊆ s.fibers := fun it member =>
    perm.subset (List.mem_append_right _ member)
  have next (f : FiberPtr) (fetches : (Location.fetched ft).fetches = some f) :
      f ≤ s.fiberId ∧ ((∀ other, ¬ (s.worker other).Holds f) ∨
        (s.fiber f).ended = true ∧ ∀ other, ¬ (s.worker other).Owns f) := by
    obtain ⟨f' | cb, thread⟩ := ft
    · cases fetches
      refine ⟨exclusive.queued _ queued f rfl, free f ?_⟩
      rw [taking, located, taken]
      exact rfl
    · cases fetches
  have held (f : FiberPtr) (held : (Location.fetched ft).held = some f) :
      (Location.fetched ft).fetches = some f := by
    obtain ⟨f' | cb, thread⟩ := ft <;> exact held
  have idle : (s.worker w).location.fetches = none := by
    rw [located]
    rfl
  have outside : (s.worker w).location.inside = none := by
    rw [located]
    rfl
  let after : Worker := { s.worker w with location := .fetched ft }
  apply (exclusive.shrink fewer).move (fun f => ∀ other, ¬ (s.worker other).Holds f)
    (show _ = Function.update s.worker w after from rfl)
  · exact fun f free => free
  · rintro f ⟨holds, alive⟩
    rw [worker_goto, Function.update_self] at holds alive
    rcases holds with now | kept
    · have fetches := held f now
      rcases (next f fetches).2 with free | ⟨ended, -⟩
      · exact .inr free
      · cases (alive fetches).symm.trans ended
    · exact .inl (Worker.Holds.uses (.inr kept) idle)
  · rintro f (⟨⟨⟩⟩ | kept)
    exact .inl (.inr kept)
  · intro f fetches ended other owns
    have owns : (s.worker other).Owns f := by
      rw [worker_goto] at owns
      rcases eq_or_ne other w with rfl | different
      · rw [Function.update_self] at owns
        rcases owns with ⟨⟨⟩⟩ | kept
        exact .inr kept
      · rwa [Function.update_of_ne different] at owns
    rcases (next f fetches).2 with free | ⟨-, free⟩
    · exact free other owns.holds
    · exact free other owns
  · exact fun f _ _ => rfl
  · intro f ended alive
    cases alive.symm.trans ended
  · rintro f ⟨⟩
  · intro f unsaved
    rw [outside]
    exact .inr ⟨unsaved, nofun⟩
  · rintro f ⟨⟩
  · rintro f ((now | kept) | ⟨⟨⟩⟩)
    · exact (next f (held f now)).1
    · exact exclusive.created w f (.inl (.inr kept))
  · exact le_rfl
  · exact fun ft member => exclusive.queued ft (fewer member)

/-- Where the branches after `swapIn` lead, the worker has no new hold and sets nothing. -/
theorem settle (exclusive : Exclusive s) {slot : Slot} (located : (s.worker w).location = .settling slot f) :
    Exclusive (s.goto w (Scheduler.settle slot f (s.fiber f))) := by
  have uses : s.Uses w f := uses_of_location located rfl rfl
  rcases settle_cases slot f (s.fiber f) with at_ | at_ | ⟨at_, alive⟩ | ⟨at_, rfl⟩ <;> rw [at_]
  · exact exclusive.goto located rfl rfl nofun nofun rfl nofun nofun
  · refine exclusive.goto located rfl rfl nofun nofun rfl nofun ?_
    rintro _ ⟨⟩
    exact uses.1
  · refine exclusive.goto located rfl rfl ?_ nofun rfl ?_ nofun
    · rintro _ ⟨⟩
      exact uses
    · rintro _ ⟨⟩
      exact alive
  · refine exclusive.goto located rfl rfl ?_ ?_ rfl nofun nofun
    · rintro _ ⟨⟩
      exact uses
    · rintro _ ⟨⟩
      exact .inl (by rw [located]; rfl)

/-- A step that changes no shared fiber but makes or resets the fiber it is about, which is or becomes the worker's
own. -/
theorem renew (exclusive : Exclusive s) {worker : Worker}
    (workers : t.worker = Function.update s.worker w worker)
    (fibers : t.fiber = Function.update s.fiber f {}) (queue : t.fibers = s.fibers)
    (grown : s.fiberId ≤ t.fiberId) (held : (s.worker w).Owns f ∨ s.fiberId < f ∧ f ≤ t.fiberId)
    (outside : (s.worker w).location.inside = none) (idle : (s.worker w).location.fetches = none)
    (paused : worker.location.running = none) (looked : worker.location.fetches = none)
    (unseen : worker.location.live = none) (queues : ∀ g, worker.location ≠ .rescheduling g)
    (location : worker.location.held = none ∨ worker.location.held = some f)
    (cbFiber : worker.cbFiber = none ∨ worker.cbFiber = some f ∨ worker.cbFiber = (s.worker w).cbFiber)
    (idleFiber : worker.idleFiber = some f ∨ worker.idleFiber = (s.worker w).idleFiber) : Exclusive t := by
  have kept (g : FiberPtr) (now : worker.cbFiber = some g ∨ worker.idleFiber = some g) :
      g = f ∨ (s.worker w).cbFiber = some g ∨ (s.worker w).idleFiber = some g := by
    rcases now with now | now
    · rcases cbFiber with none | here | before
      · cases none.symm.trans now
      · exact .inl (Option.some.inj (now.symm.trans here))
      · exact .inr (.inl (before.symm.trans now))
    · rcases idleFiber with here | before
      · exact .inl (Option.some.inj (now.symm.trans here))
      · exact .inr (.inr (before.symm.trans now))
  have here (g : FiberPtr) (now : worker.location.held = some g) : g = f := by
    rcases location with none | here
    · cases none.symm.trans now
    · exact Option.some.inj (now.symm.trans here)
  have own (g : FiberPtr) (same : g = f) : (s.worker w).Owns g ∨ g = f ∧ s.fiberId < f := by
    subst same
    exact held.imp_right fun created => ⟨rfl, created.1⟩
  refine exclusive.set workers fibers queue grown (held.imp_left Worker.Owns.holds) ?_ ?_
    (fun _ _ => held.imp_right And.left) idle looked unseen (.inl outside) nofun (.inl paused) queues
  · rintro g (now | now)
    · exact .inr (here g now)
    · rcases kept g now with same | before
      · exact .inr same
      · exact .inl (.inr before)
  · rintro g (now | now)
    · exact own g (here g (Location.held_of_own now))
    · rcases kept g now with same | before
      · exact own g same
      · exact .inl (.inr before)

theorem work (exclusive : Exclusive s) (free : TakesFree s (.work w)) (works : Works s w t) :
    Exclusive t := by
  cases works with
  | start located =>
    refine exclusive.renew rfl rfl rfl (Nat.le_succ _) (.inr ⟨Nat.lt_succ_self _, le_rfl⟩) ?_ ?_ rfl rfl rfl nofun
      (.inl rfl) (.inl rfl) (.inl rfl) <;> (rw [located]; rfl)
  | take located taken => exact exclusive.take free located taken
  | rest located _ => exact exclusive.goto located rfl rfl nofun nofun rfl nofun nofun
  | skip located _ => exact exclusive.goto located rfl rfl nofun nofun rfl nofun nofun
  | @pick f _ located alive =>
    refine exclusive.goto located rfl rfl ?_ nofun rfl ?_ nofun
    · rintro _ ⟨⟩
      exact ⟨.inl (by rw [located]; rfl), fun _ => alive⟩
    · rintro _ ⟨⟩
      exact alive
  | reuse located kept reset =>
    cases reset_ok reset
    refine exclusive.renew rfl rfl rfl le_rfl (.inl (.inr (.inl kept))) ?_ ?_ rfl rfl rfl nofun
      (.inr rfl) (.inl rfl) (.inr rfl) <;> (rw [located]; rfl)
  | renew located _ =>
    refine exclusive.renew (worker_goto _ _ _) rfl rfl (Nat.le_succ _)
      (.inr ⟨Nat.lt_succ_self _, le_rfl⟩) ?_ ?_ rfl rfl rfl nofun (.inr rfl) (.inr (.inr rfl)) (.inr rfl) <;>
      (rw [located]; rfl)
  | drop located => exact goto (exclusive.counters _ s.idleThreadCount) located rfl rfl nofun nofun rfl nofun nofun
  | exit located _ _ =>
    refine exclusive.still rfl rfl rfl exclusive.queued ?_ rfl ?_ ?_ rfl nofun nofun
    · rw [located]
      rfl
    · rintro g (⟨⟨⟩⟩ | ⟨⟨⟩⟩ | ⟨⟨⟩⟩)
    · rintro g (⟨⟨⟩⟩ | ⟨⟨⟩⟩ | ⟨⟨⟩⟩)
  | @idle f located kept _ =>
    have counted := exclusive.counters s.activeThreadCount (s.idleThreadCount + 1)
    refine counted.goto located rfl rfl ?_ ?_ rfl nofun nofun
    · rintro _ ⟨⟩
      exact Worker.Holds.uses (.inr (.inr kept)) (by rw [located]; rfl)
    · rintro _ ⟨⟩
      exact .inr (.inr kept)
  | @enter slot f fiber located swapIn =>
    cases swapIn_ok swapIn
    have saved := exclusive.saved_of_uses (uses_of_location located rfl rfl) (by rw [located]; rfl)
    refine exclusive.setGoto located rfl (.inl rfl) (.inr rfl) (fun _ own => own) ?_ rfl rfl rfl
      (fun unsaved => nomatch saved.symm.trans unsaved) (.inr ⟨rfl, rfl⟩) nofun
    intro ended _
    cases slot with
    | task => cases (exclusive.live w f (by rw [located]; rfl)).symm.trans ended
    | cb | idle => rfl
  | @resume slot f located =>
    refine exclusive.setGoto located rfl (.inl rfl) (.inr rfl) (fun _ own => own) ?_ rfl rfl rfl (fun _ => rfl)
      (.inr ⟨rfl, exclusive.exec w f (by rw [located]; rfl)⟩) nofun
    exact fun ended alive => nomatch (show (s.fiber f).ended = false from alive).symm.trans ended
  | @suspend slot f located =>
    refine exclusive.setGoto located rfl (.inr rfl) (.inr rfl) (fun _ own => own) ?_ rfl rfl rfl nofun (.inl rfl) nofun
    exact fun ended alive => nomatch (show (s.fiber f).ended = false from alive).symm.trans ended
  | @wake f located =>
    have counted := exclusive.counters s.activeThreadCount (decrement s.idleThreadCount)
    refine counted.goto located rfl rfl ?_ ?_ rfl nofun nofun
    · rintro _ ⟨⟩
      exact uses_of_location located rfl rfl
    · rintro _ ⟨⟩
      exact .inl (by rw [located]; rfl)
  | @finish slot f located _ =>
    have counted := exclusive.counters (decrement s.activeThreadCount) s.idleThreadCount
    refine counted.goto located rfl rfl ?_ ?_ rfl nofun nofun
    · rintro _ ⟨⟩
      exact uses_of_location located rfl rfl
    · intro g own
      left
      rw [located]
      exact own
  | settle located => exact exclusive.settle located
  | @reschedule f located =>
    have created := exclusive.created w f (.inr located)
    have queued : FiberAndThread.Exists s ⟨.fiber f, -1⟩ := by
      rintro _ ⟨⟩
      exact created
    exact goto (exclusive.schedule queued) located rfl rfl nofun nofun rfl nofun nofun
  | @hold f located =>
    have saved := exclusive.saved_of_uses (uses_of_location located rfl rfl) (by rw [located]; rfl)
    have alive := exclusive.live w f (by rw [located]; rfl)
    exact exclusive.setGoto located rfl (.inl rfl) (.inl rfl) nofun (fun ended => nomatch alive.symm.trans ended)
      rfl rfl rfl (fun unsaved => nomatch saved.symm.trans unsaved) (.inl rfl) nofun
  | @recycle f _ located reset =>
    cases reset_ok reset
    refine exclusive.renew rfl rfl rfl le_rfl (.inl (.inl ?_)) ?_ ?_ rfl rfl rfl nofun
      (.inl rfl) (.inr (.inl rfl)) (.inr rfl) <;> (rw [located]; rfl)

theorem leave (exclusive : Exclusive s) {how : Fiber.Leave} (ran : s.leave w how = .ok t) : Exclusive t := by
  obtain ⟨slot, f, fiber, located, left, -, rfl⟩ := leave_cases ran
  have exec := exclusive.exec w f (by rw [located]; rfl)
  refine exclusive.setGoto located rfl (.inr rfl) (.inr rfl) (fun _ own => own) ?_ rfl rfl rfl (fun _ => rfl)
    (.inl rfl) nofun
  intro ended
  rw [Fiber.ended, exec] at ended
  cases ended

theorem step (exclusive : Exclusive s) {action : Action n} (free : TakesFree s action)
    (step : (machine n).Step s action t) : Exclusive t := by
  have ran := perform_of_step step
  cases action with
  | work w => exact exclusive.work free (work_cases ran)
  | leave w how => exact exclusive.leave ran
  | schedule ft =>
    rw [perform] at ran
    split_ifs at ran with known
    cases ran
    exact exclusive.schedule known
  | create => cases ran; exact exclusive.newFiber
  | stop =>
    cases ran
    split_ifs
    · exact { exclusive with }
    · exact { exclusive with }

end Exclusive

/-- If no worker ever takes a fiber that a worker has hold of, but for fibers that have ended and are no worker's
own, then in every state a worker about to switch into a context finds it saved, the code that executes does so in
state `EXEC`, and no two workers are on one stack. -/
theorem fiber_exclusive (s : Scheduler n) (reached : ((machine n).restrict TakesFree).Reachable s) :
    (∀ w slot f, (s.worker w).location = .resuming slot f → (s.fiber f).saved = true) ∧
    (∀ w slot f, (s.worker w).location = .executing slot f → (s.fiber f).state = .exec) ∧
    ∀ w w' f, (s.worker w).location.inside = some f → (s.worker w').location.inside = some f →
      w = w' := by
  have exclusive : Exclusive s := by
    apply reached.invariant (P := Exclusive)
    · rintro _ rfl
      exact started_exclusive
    · intro s action t exclusive step
      exact exclusive.step step.1 step.2
  have uses (w : Fin n) (f : FiberPtr) (inside : (s.worker w).location.inside = some f) : s.Uses w f :=
    uses_of_location rfl (Location.held_of_inside inside) (Location.fetches_of_inside inside)
  refine ⟨?_, ?_, ?_⟩
  · intro w slot f located
    exact exclusive.saved_of_uses (uses_of_location located rfl rfl) (by rw [located]; rfl)
  · intro w slot f located
    exact exclusive.exec w f (by rw [located]; rfl)
  · exact fun w w' f inside inside' => exclusive.alone w w' f (uses w f inside) (uses w' f inside')

/-- Worker 0 is there, of two. -/
theorem two_workers : NeZero 2 := ⟨by decide⟩

attribute [local instance] two_workers

/-- Both workers have started, and worker 0 has taken fiber 3 and switched into it. -/
def oneRunning : List (Action 2) :=
  [.work 0, .work 1, .create, .schedule ⟨.fiber 3, -1⟩, .work 0, .work 0, .work 0, .work 0]

theorem fiber_exclusive_one : ∃ s, ((machine 2).restrict TakesFree).Reachable s ∧
    (s.worker 0).location = .executing .task 3 ∧ (s.fiber 3).state = .exec := by
  have shown : (oneRunning.foldlM (fun s action => if TakesFree s action then (s.perform action).toOption
      else none) started).map (fun s => (s.worker 0).location) = some (Location.executing .task 3) := by
    decide +kernel
  obtain ⟨s, path, located⟩ := Machine.Path.exists_ofNext (· = started) shown
  rw [← Machine.restrict_ofNext] at path
  have reached : ((machine 2).restrict TakesFree).Reachable s := ⟨started, oneRunning, rfl, path⟩
  exact ⟨s, reached, located, (fiber_exclusive s reached).2.1 0 .task 3 located⟩

/-- The end of a run of two workers, if all its steps complete. -/
def endOf (actions : List (Action 2)) : Option (Scheduler 2) :=
  actions.foldlM (fun s action => (s.perform action).toOption) started

/-- A fiber that has ended may be taken while worker 0 is still leaving it, one that yields may not. -/
example : [Fiber.Leave.finish, .yieldToHold].map (fun how =>
    (endOf (oneRunning ++ [.schedule ⟨.fiber 3, -1⟩, .leave 0 how])).map fun s =>
      (s.taking 1, decide (TakesFree s (.work 1)))) =
    [some (some 3, true), some (some 3, false)] := by decide +kernel

/-- An event or a timer schedules the fiber before it has yielded. It yields, and worker 1 takes it before
worker 0 has saved its context. -/
def takenUnsaved : List (Action 2) :=
  oneRunning ++ [.schedule ⟨.fiber 3, -1⟩, .leave 0 .yieldToHold, .work 1, .work 1, .work 1]

/-- Worker 0 saves the context and finds the fiber in state `HOLD`, worker 1 takes it and switches into it,
and worker 0 then sets it to `HOLD`. -/
def heldWhileRunning : List (Action 2) :=
  oneRunning ++ [.schedule ⟨.fiber 3, -1⟩, .leave 0 .yieldToHold, .work 0, .work 0, .work 0,
    .work 1, .work 1, .work 1, .work 1, .work 0]

/-- Worker 1 is about to switch into a context that worker 0 has not saved, and a fiber executes in state
`HOLD`. -/
theorem fiber_not_exclusive :
    (∃ s, (machine 2).Reachable s ∧ (s.worker 0).location = .leaving .task 3 ∧
      (s.worker 1).location = .resuming .task 3 ∧ (s.fiber 3).saved = false) ∧
    ∃ s, (machine 2).Reachable s ∧ (s.worker 1).location = .executing .task 3 ∧
      (s.fiber 3).state = .hold := by
  have shown : (endOf takenUnsaved).map
      (fun s => ((s.worker 0).location, (s.worker 1).location, (s.fiber 3).saved)) =
      some (Location.leaving .task 3, Location.resuming .task 3, false) := by decide +kernel
  have shown' : (endOf heldWhileRunning).map
      (fun s => ((s.worker 1).location, (s.fiber 3).state)) =
      some (Location.executing .task 3, Fiber.State.hold) := by decide +kernel
  obtain ⟨s, path, facts⟩ := Machine.Path.exists_ofNext (· = started) shown
  obtain ⟨s', path', facts'⟩ := Machine.Path.exists_ofNext (· = started) shown'
  simp only [Prod.mk.injEq] at facts facts'
  have reached : (machine 2).Reachable s := ⟨started, takenUnsaved, rfl, path⟩
  have reached' : (machine 2).Reachable s' := ⟨started, heldWhileRunning, rfl, path'⟩
  exact ⟨⟨s, reached, facts⟩, s', reached', facts'⟩

end Sylar.Scheduler
