import Mathlib.Tactic.SplitIfs
import Mathlib.Tactic.TypeStar

/-! # Labelled machines, their finite paths and their invariants

A machine is a set of initial states and a labelled step relation; nothing here knows which program
the machine belongs to. A path carries exactly the labels of its steps, so that a whole interleaving
is one list. Invariants are proved once per step and lifted here to every reachable state, a
restricted run is a run of the guarded machine, and a step simulation lifts to whole paths.
-/

namespace Sylar

variable {σ τ ε : Type*}

/-- Initial states and labelled steps. -/
structure Machine (σ ε : Type*) where
  Init : σ → Prop
  Step : σ → ε → σ → Prop

namespace Machine

/-- The machine of a partial step function: a label without a successor is not enabled. -/
def ofNext (init : σ → Prop) (next : σ → ε → Option σ) : Machine σ ε where
  Init := init
  Step s e t := next s e = some t

/-- The runs of `m` all of whose steps are taken where `guard` allows them. -/
def restrict (m : Machine σ ε) (guard : σ → ε → Prop) : Machine σ ε where
  Init := m.Init
  Step s e t := guard s e ∧ m.Step s e t

/-- The runs of `m`, each label beside what `shown` says of the state it is taken in. -/
def observe {δ : Type*} (m : Machine σ ε) (shown : σ → ε → δ) : Machine σ (ε × δ) where
  Init := m.Init
  Step s event t := m.Step s event.1 t ∧ shown s event.1 = event.2

/-- A finite run carrying exactly its labels. -/
inductive Path (m : Machine σ ε) : σ → List ε → σ → Prop
  | nil (s : σ) : Path m s [] s
  | cons {s mid t : σ} {e : ε} {es : List ε} :
      m.Step s e mid → Path m mid es t → Path m s (e :: es) t

/-- Some run from an initial state ends here. -/
def Reachable (m : Machine σ ε) (s : σ) : Prop :=
  ∃ initial events, m.Init initial ∧ m.Path initial events s

namespace Path

variable {m : Machine σ ε} {s mid t : σ} {first second : List ε} {e : ε}

theorem nil_iff : m.Path s [] t ↔ t = s := by
  constructor
  · intro path; cases path; rfl
  · rintro rfl; exact .nil _

theorem cons_iff {es : List ε} :
    m.Path s (e :: es) t ↔ ∃ mid, m.Step s e mid ∧ m.Path mid es t := by
  constructor
  · intro path
    cases path with
    | cons step rest => exact ⟨_, step, rest⟩
  · rintro ⟨mid, step, rest⟩
    exact .cons step rest

/-- Paths compose at their shared endpoint. -/
theorem append (left : m.Path s first mid) (right : m.Path mid second t) :
    m.Path s (first ++ second) t := by
  induction left with
  | nil => exact right
  | cons step _ ih => exact .cons step (ih right)

theorem snoc (path : m.Path s first mid) (step : m.Step mid e t) : m.Path s (first ++ [e]) t :=
  path.append (.cons step (.nil _))

/-- A path splits where its labels do. -/
theorem append_iff : m.Path s (first ++ second) t ↔ ∃ mid, m.Path s first mid ∧ m.Path mid second t := by
  constructor
  · intro path
    induction first generalizing s with
    | nil => exact ⟨s, .nil s, path⟩
    | cons event rest ih =>
      obtain ⟨next, step, path⟩ := cons_iff.mp path
      obtain ⟨mid, left, right⟩ := ih path
      exact ⟨mid, .cons step left, right⟩
  · rintro ⟨mid, left, right⟩
    exact left.append right

/-- A property every step preserves holds at the end of a path that starts with it. -/
theorem preserves {P : σ → Prop} (kept : ∀ s e t, P s → m.Step s e t → P t)
    (path : m.Path s first t) (initial : P s) : P t := by
  induction path with
  | nil => exact initial
  | cons step _ ih => exact ih (kept _ _ _ initial step)

/-- The same for a property of the labels so far and the state. -/
theorem history {P : List ε → σ → Prop}
    (kept : ∀ before s e t, P before s → m.Step s e t → P (before ++ [e]) t)
    (path : m.Path s second t) (initial : P first s) : P (first ++ second) t := by
  induction path generalizing first with
  | nil =>
    rw [List.append_nil]
    exact initial
  | cons step _ ih =>
    rw [List.append_cons]
    exact ih (kept _ _ _ _ initial step)

/-- A step simulation under an invariant carries every path to a path with the same labels. -/
theorem simulate {a : Machine τ ε} {P : σ → Prop} (abs : σ → τ)
    (kept : ∀ s e t, P s → m.Step s e t → P t)
    (simulated : ∀ s e t, P s → m.Step s e t → a.Step (abs s) e (abs t))
    (path : m.Path s first t) (initial : P s) : a.Path (abs s) first (abs t) := by
  induction path with
  | nil => exact .nil _
  | cons step _ ih => exact .cons (simulated _ _ _ initial step) (ih (kept _ _ _ initial step))

theorem of_restrict {guard : σ → ε → Prop} (path : (m.restrict guard).Path s first t) :
    m.Path s first t := by
  induction path with
  | nil => exact .nil _
  | cons step _ ih => exact .cons step.2 ih

theorem of_observe {δ : Type*} {shown : σ → ε → δ} {events : List (ε × δ)}
    (path : (m.observe shown).Path s events t) : m.Path s (events.map Prod.fst) t := by
  induction path with
  | nil => exact .nil _
  | cons step _ ih => exact .cons step.1 ih

/-- Every run can be observed. -/
theorem exists_observe {δ : Type*} (shown : σ → ε → δ) (path : m.Path s first t) :
    ∃ events, events.map Prod.fst = first ∧ (m.observe shown).Path s events t := by
  induction path with
  | nil => exact ⟨[], rfl, .nil _⟩
  | @cons s _ _ event _ step _ ih =>
    obtain ⟨events, same, path⟩ := ih
    exact ⟨(event, shown s event) :: events, by rw [List.map_cons, same], .cons ⟨step, rfl⟩ path⟩

/-- Where a step keeps a property exactly if it is guarded, the property holds all along a run exactly if every
step of the run is guarded. -/
theorem always_iff {I P : σ → Prop} {guard : σ → ε → Prop}
    (functional : ∀ s e t u, m.Step s e t → m.Step s e u → u = t)
    (kept : ∀ s e t, I s → m.Step s e t → I t)
    (guarded : ∀ s e t, I s → P s → m.Step s e t → (P t ↔ guard s e))
    (path : m.Path s first t) (inv : I s) (holds : P s) :
    (∀ before after mid, first = before ++ after → m.Path s before mid → P mid) ↔
      (m.restrict guard).Path s first t := by
  induction path with
  | nil s =>
    refine iff_of_true ?_ (.nil s)
    intro before after mid split path
    obtain ⟨rfl, rfl⟩ := List.append_eq_nil_iff.mp split.symm
    cases path
    exact holds
  | @cons s next t e rest step _ ih =>
    have nextInv := kept s e next inv step
    have stepGuarded := guarded s e next inv holds step
    constructor
    · intro always
      have nextHolds := always [e] rest next rfl (.cons step (.nil next))
      refine .cons ⟨stepGuarded.mp nextHolds, step⟩ ((ih nextInv nextHolds).mp ?_)
      rintro before after mid rfl path
      exact always (e :: before) after mid rfl (.cons step path)
    · intro run before after mid split path
      obtain ⟨other, ⟨allowed, same⟩, run⟩ := cons_iff.mp run
      obtain rfl := functional s e next other step same
      have nextHolds := stepGuarded.mpr allowed
      cases path with
      | nil => exact holds
      | @cons _ second _ _ before firstStep path =>
        obtain ⟨rfl, restSplit⟩ := List.cons_eq_cons.mp split
        obtain rfl := functional s e other second step firstStep
        exact (ih nextInv nextHolds).mpr run before after mid restSplit path

/-- A partial step function replays its labels: the path is its iterated evaluation. -/
theorem ofNext_iff {init : σ → Prop} {next : σ → ε → Option σ} {events : List ε} :
    (ofNext init next).Path s events t ↔ events.foldlM next s = some t := by
  induction events generalizing s with
  | nil =>
    rw [nil_iff]
    constructor
    · rintro rfl; rfl
    · intro done; exact (Option.some.inj done).symm
  | cons event rest ih =>
    rw [cons_iff, List.foldlM_cons]
    simp only [ih, Option.bind_eq_bind, Option.bind_eq_some_iff]
    rfl

/-- What an evaluation shows of its result holds at the end of a path. -/
theorem exists_ofNext {β : Type*} (init : σ → Prop) {next : σ → ε → Option σ} {events : List ε}
    {f : σ → β} {b : β} (shown : (events.foldlM next s).map f = some b) :
    ∃ t, (ofNext init next).Path s events t ∧ f t = b := by
  obtain ⟨t, ran, same⟩ := Option.map_eq_some_iff.mp shown
  exact ⟨t, ofNext_iff.mpr ran, same⟩

end Path

/-- A partial step function is restricted by its guard. -/
theorem restrict_ofNext {init : σ → Prop} {next : σ → ε → Option σ} (guard : σ → ε → Prop)
    [∀ s e, Decidable (guard s e)] : (ofNext init next).restrict guard =
      ofNext init fun s e => if guard s e then next s e else none := by
  have steps (s : σ) (e : ε) (t : σ) :
      (guard s e ∧ next s e = some t) = ((if guard s e then next s e else none) = some t) := by
    split_ifs with allowed
    · exact propext (and_iff_right allowed)
    · exact propext ⟨fun both => absurd both.1 allowed, nofun⟩
  simp only [restrict, ofNext, steps]

namespace Reachable

variable {m : Machine σ ε} {s t : σ} {e : ε}

theorem init (initial : m.Init s) : m.Reachable s := ⟨s, [], initial, .nil s⟩

theorem step (reached : m.Reachable s) (next : m.Step s e t) : m.Reachable t := by
  obtain ⟨initial, events, start, path⟩ := reached
  exact ⟨initial, events ++ [e], start, path.snoc next⟩

theorem restrict_step {guard : σ → ε → Prop} (reached : (m.restrict guard).Reachable s)
    (next : m.Step s e t) (allowed : guard s e) : (m.restrict guard).Reachable t :=
  reached.step ⟨allowed, next⟩

theorem path {events : List ε} (reached : m.Reachable s) (path : m.Path s events t) :
    m.Reachable t := by
  obtain ⟨initial, before, start, prefixPath⟩ := reached
  exact ⟨initial, before ++ events, start, prefixPath.append path⟩

/-- An inductive invariant holds in every reachable state. -/
theorem invariant {P : σ → Prop} (initial : ∀ s, m.Init s → P s)
    (kept : ∀ s e t, P s → m.Step s e t → P t) (reached : m.Reachable s) : P s := by
  obtain ⟨start, events, isInit, path⟩ := reached
  exact path.preserves kept (initial start isInit)

theorem of_restrict {guard : σ → ε → Prop} (reached : (m.restrict guard).Reachable s) :
    m.Reachable s := by
  obtain ⟨start, events, isInit, path⟩ := reached
  exact ⟨start, events, isInit, path.of_restrict⟩

end Reachable

end Machine

end Sylar
