import Mathlib.Data.List.Nodup
import Sylar.Machine.Locks

/-! # Programs under the interference of others

A discipline says what holds whenever nobody is in the middle of a step, and what a thread may do in a step, which
depends on the locks it holds. A thread may then count on the others to do only what they may with locks that it
does not hold itself. `Safe` is the weakest precondition of a program under such interference.
-/

namespace Sylar

/-- What always holds, what a thread may do while it holds some locks, and the order of the locks. -/
structure Discipline (τ κ σ : Type) where
  rank : κ → ℕ
  Inv : σ → Prop
  Allowed : τ → List κ → σ → σ → Prop

namespace Discipline

variable {τ κ σ ω α β : Type} {d : Discipline τ κ σ} {t : τ} {l : κ} {held : List κ} {s s' s'' : σ}
  {P P' : σ → Prop} {Q Q' : List κ → α → σ → Prop}

/-- A step of another thread, with locks that are not held here. -/
def Other (d : Discipline τ κ σ) (t : τ) (held : List κ) (s s' : σ) : Prop :=
  d.Inv s ∧ d.Inv s' ∧ ∃ other, other ≠ t ∧ ∃ locks, locks.Disjoint held ∧ d.Allowed other locks s s'

/-- Any steps of other threads. -/
def Later (d : Discipline τ κ σ) (t : τ) (held : List κ) : σ → σ → Prop := Relation.ReflTransGen (d.Other t held)

variable [DecidableEq κ]

/-- The program keeps to the discipline from here on, and `Q` holds when it returns. -/
def Now (d : Discipline τ κ σ) (t : τ) : List κ → Program κ σ α → (List κ → α → σ → Prop) → σ → Prop
  | held, .done a, Q, s => Q held a s
  | held, .lock l next, Q, s =>
      (∀ h ∈ held, d.rank h < d.rank l) ∧ ∀ s', d.Later t (l :: held) s s' → Now d t (l :: held) next Q s'
  | held, .unlock l next, Q, s =>
      l ∈ held ∧ ∀ s', d.Later t (held.erase l) s s' → Now d t (held.erase l) next Q s'
  | held, .act f next, Q, s =>
      d.Inv (f s) ∧ d.Allowed t held s (f s) ∧ ∀ s', d.Later t held (f s) s' → Now d t held (next s) Q s'
  | _, .fail, _, _ => False

/-- So it does whenever it is let run next. -/
def Safe (d : Discipline τ κ σ) (t : τ) (held : List κ) (p : Program κ σ α) (Q : List κ → α → σ → Prop) (s : σ) :
    Prop :=
  ∀ s', d.Later t held s s' → d.Now t held p Q s'

theorem Safe.now {p : Program κ σ α} (safe : d.Safe t held p Q s) : d.Now t held p Q s := safe s .refl

theorem Safe.later {p : Program κ σ α} (safe : d.Safe t held p Q s) (later : d.Later t held s s') :
    d.Safe t held p Q s' :=
  fun _ more => safe _ (later.trans more)

omit [DecidableEq κ] in
theorem Later.inv (later : d.Later t held s s') (inv : d.Inv s) : d.Inv s' := by
  induction later with
  | refl => exact inv
  | tail _ step _ => exact step.2.1

/-- What others cannot make false. -/
def Stable (d : Discipline τ κ σ) (t : τ) (held : List κ) (P : σ → Prop) : Prop :=
  ∀ s s', d.Inv s → d.Inv s' → ∀ other, other ≠ t → ∀ locks : List κ, locks.Disjoint held →
    d.Allowed other locks s s' → P s → P s'

omit [DecidableEq κ] in
theorem Stable.later (stable : d.Stable t held P) (later : d.Later t held s s') (holds : P s) : P s' := by
  induction later with
  | refl => exact holds
  | tail _ step ih =>
    obtain ⟨inv, inv', other, different, locks, disjoint, allowed⟩ := step
    exact stable _ _ inv inv' other different locks disjoint allowed ih

omit [DecidableEq κ] in
/-- With more locks others can do less. -/
theorem Stable.mono {more : List κ} (stable : d.Stable t held P) (subset : held ⊆ more) : d.Stable t more P :=
  fun s s' inv inv' other different locks disjoint =>
    stable s s' inv inv' other different locks (List.disjoint_of_subset_right subset disjoint)

omit [DecidableEq κ] in
theorem Stable.and (stable : d.Stable t held P) (stable' : d.Stable t held P') :
    d.Stable t held fun s => P s ∧ P' s :=
  fun s s' inv inv' other different locks disjoint allowed holds =>
    ⟨stable s s' inv inv' other different locks disjoint allowed holds.1,
      stable' s s' inv inv' other different locks disjoint allowed holds.2⟩

omit [DecidableEq κ] in
theorem Stable.exists {γ : Type} {P : γ → σ → Prop} (stable : ∀ c, d.Stable t held (P c)) :
    d.Stable t held fun s => ∃ c, P c s := by
  rintro s s' inv inv' other different locks disjoint allowed ⟨c, holds⟩
  exact ⟨c, stable c s s' inv inv' other different locks disjoint allowed holds⟩

omit [DecidableEq κ] in
theorem Stable.true : d.Stable t held fun _ => True := fun _ _ _ _ _ _ _ _ _ _ => trivial

/-- The rule of consequence. -/
theorem Now.mono {p : Program κ σ α} (weaker : ∀ held a s, Q held a s → Q' held a s) (now : d.Now t held p Q s) :
    d.Now t held p Q' s := by
  induction p generalizing held s with
  | done a => exact weaker _ _ _ now
  | lock l next ih => exact ⟨now.1, fun s' later => ih (now.2 s' later)⟩
  | unlock l next ih => exact ⟨now.1, fun s' later => ih (now.2 s' later)⟩
  | act f next ih => exact ⟨now.1, now.2.1, fun s' later => ih _ (now.2.2 s' later)⟩
  | fail => exact now

/-- What nobody can make false. -/
def Steady (d : Discipline τ κ σ) (P : σ → Prop) : Prop :=
  ∀ t, ∀ locks : List κ, ∀ s s', d.Inv s → d.Inv s' → d.Allowed t locks s s' → P s → P s'

omit [DecidableEq κ] in
theorem Steady.stable (steady : d.Steady P) (t : τ) (held : List κ) : d.Stable t held P :=
  fun s s' inv inv' other _ locks _ => steady other locks s s' inv inv'

omit [DecidableEq κ] in
theorem Steady.and (steady : d.Steady P) (steady' : d.Steady P') : d.Steady fun s => P s ∧ P' s :=
  fun t locks s s' inv inv' allowed holds =>
    ⟨steady t locks s s' inv inv' allowed holds.1, steady' t locks s s' inv inv' allowed holds.2⟩

/-- It holds at the end if it holds now. -/
theorem Now.frame {p : Program κ σ α} (now : d.Now t held p Q s) (steady : d.Steady P) (inv : d.Inv s) (holds : P s) :
    d.Now t held p (fun locks a s => Q locks a s ∧ P s) s := by
  induction p generalizing held s with
  | done a => exact ⟨now, holds⟩
  | lock l next ih =>
    exact ⟨now.1, fun s' later => ih (now.2 s' later) (later.inv inv) ((steady.stable t _).later later holds)⟩
  | unlock l next ih =>
    exact ⟨now.1, fun s' later => ih (now.2 s' later) (later.inv inv) ((steady.stable t _).later later holds)⟩
  | act f next ih =>
    obtain ⟨inv', allowed, rest⟩ := now
    have kept := steady t held s (f s) inv inv' allowed holds
    exact ⟨inv', allowed, fun s' later => ih _ (rest s' later) (later.inv inv') ((steady.stable t _).later later kept)⟩
  | fail => exact now

/-- The rule for two programs one after the other. -/
theorem Now.bind {p : Program κ σ α} {g : α → Program κ σ β} {R : List κ → β → σ → Prop}
    (now : d.Now t held p (fun held a s => d.Now t held (g a) R s) s) : d.Now t held (p.bind g) R s := by
  induction p generalizing held s with
  | done a => exact now
  | lock l next ih => exact ⟨now.1, fun s' later => ih (now.2 s' later)⟩
  | unlock l next ih => exact ⟨now.1, fun s' later => ih (now.2 s' later)⟩
  | act f next ih => exact ⟨now.1, now.2.1, fun s' later => ih _ (now.2.2 s' later)⟩
  | fail => exact now

/-! ## The rules -/

/-- If `P` holds, the program keeps to the discipline, and it returns with the same locks in a state where `Q` holds. -/
def Triple (d : Discipline τ κ σ) (t : τ) (held : List κ) (P : σ → Prop) (p : Program κ σ α) (Q : α → σ → Prop) :
    Prop :=
  ∀ s, d.Inv s → P s → d.Now t held p (fun locks a s => locks = held ∧ d.Inv s ∧ Q a s) s

namespace Triple

variable {p : Program κ σ α} {P P' : σ → Prop} {Q Q' : α → σ → Prop}

theorem consequence (triple : d.Triple t held P p Q) (stronger : ∀ s, d.Inv s → P' s → P s)
    (weaker : ∀ a s, d.Inv s → Q a s → Q' a s) : d.Triple t held P' p Q' := by
  intro s inv holds
  refine (triple s inv (stronger s inv holds)).mono ?_
  rintro locks a s ⟨same, inv, holds⟩
  exact ⟨same, inv, weaker a s inv holds⟩

theorem pre (triple : d.Triple t held P p Q) (stronger : ∀ s, d.Inv s → P' s → P s) : d.Triple t held P' p Q :=
  triple.consequence stronger fun _ _ _ => id

theorem post (triple : d.Triple t held P p Q) (weaker : ∀ a s, d.Inv s → Q a s → Q' a s) :
    d.Triple t held P p Q' :=
  triple.consequence (fun _ _ => id) weaker

theorem frame {F : σ → Prop} (triple : d.Triple t held P p Q) (steady : d.Steady F) :
    d.Triple t held (fun s => P s ∧ F s) p fun a s => Q a s ∧ F s := by
  intro s inv holds
  refine ((triple s inv holds.1).frame steady inv holds.2).mono ?_
  rintro locks a s ⟨⟨same, inv, after⟩, kept⟩
  exact ⟨same, inv, after, kept⟩

theorem exists_pre {γ : Type} {P : γ → σ → Prop} (triple : ∀ c, d.Triple t held (P c) p Q) :
    d.Triple t held (fun s => ∃ c, P c s) p Q := by
  rintro s inv ⟨c, holds⟩
  exact triple c s inv holds

theorem done {a : α} (holds : ∀ s, d.Inv s → P s → Q a s) : d.Triple t held P (.done a) Q :=
  fun s inv before => ⟨rfl, inv, holds s inv before⟩

theorem bind {g : α → Program κ σ β} {R : β → σ → Prop} (first : d.Triple t held P p Q)
    (second : ∀ a, d.Triple t held (Q a) (g a) R) : d.Triple t held P (p.bind g) R := by
  intro s inv holds
  refine ((first s inv holds).mono ?_).bind
  rintro locks a s ⟨rfl, inv, holds⟩
  exact second a s inv holds

/-- An access, after which others may do what they may. -/
theorem act {f : σ → σ} {next : σ → Program κ σ α} {R : σ → σ → Prop}
    (acts : ∀ s, d.Inv s → P s → d.Inv (f s) ∧ d.Allowed t held s (f s) ∧ R s (f s))
    (stable : ∀ s, d.Stable t held (R s)) (rest : ∀ s, d.Triple t held (R s) (next s) Q) :
    d.Triple t held P (.act f next) Q := by
  intro s inv holds
  obtain ⟨inv', allowed, holds'⟩ := acts s inv holds
  refine ⟨inv', allowed, fun s' later => ?_⟩
  exact rest s s' (later.inv inv') ((stable s).later later holds')

theorem modify {f : σ → σ} {Q : Unit → σ → Prop}
    (acts : ∀ s, d.Inv s → P s → d.Inv (f s) ∧ d.Allowed t held s (f s) ∧ Q () (f s))
    (stable : d.Stable t held (Q ())) : d.Triple t held P (Program.modify f) Q :=
  act (R := fun _ => Q ()) acts (fun _ => stable) fun _ => done fun _ _ => id

theorem get {f : σ → α} (still : ∀ s, d.Inv s → d.Allowed t held s s)
    (found : ∀ s, d.Inv s → P s → Q (f s) s) (stable : ∀ a, d.Stable t held (Q a)) :
    d.Triple t held P (Program.get f) Q :=
  act (R := fun s => Q (f s)) (fun s inv holds => ⟨inv, still s inv, found s inv holds⟩) (fun s => stable (f s))
    fun _ => done fun _ _ => id

/-- A block under a lock whose rank is above all that are held. -/
theorem locked (order : ∀ h ∈ held, d.rank h < d.rank l) (stable : d.Stable t (l :: held) P)
    (block : d.Triple t (l :: held) P p Q) (after : ∀ a, d.Stable t held (Q a)) :
    d.Triple t held P (Program.locked l p) Q := by
  intro s inv holds
  refine ⟨order, fun s' later => ?_⟩
  refine ((block s' (later.inv inv) (stable.later later holds)).mono ?_).bind
  rintro locks a s ⟨rfl, inv, holds⟩
  refine ⟨List.mem_cons_self, fun s' later => ?_⟩
  rw [List.erase_cons_head] at later ⊢
  exact ⟨rfl, later.inv inv, (after a).later later holds⟩

theorem when {b : Bool} {p : Program κ σ Unit} {Q : Unit → σ → Prop} (block : b = true → d.Triple t held P p Q)
    (skip : b = false → ∀ s, d.Inv s → P s → Q () s) : d.Triple t held P (Program.when b p) Q := by
  cases b with
  | true => exact block rfl
  | false => exact done (skip rfl)

/-- A loop, with what holds after some of its rounds. -/
theorem forEach {body : β → Program κ σ Unit} {I : List β → σ → Prop} (all : List β)
    (round : ∀ before b after, all = before ++ b :: after →
      d.Triple t held (I before) (body b) fun _ => I (before ++ [b])) :
    d.Triple t held (I []) (Program.forEach body all) fun _ => I all := by
  suffices from_ : ∀ before rest, all = before ++ rest →
      d.Triple t held (I before) (Program.forEach body rest) fun _ => I all from from_ [] all rfl
  intro before rest split
  induction rest generalizing before with
  | nil =>
    rw [List.append_nil] at split
    exact done fun _ _ holds => split ▸ holds
  | cons b rest ih =>
    refine (round before b rest split).bind fun _ => ih (before ++ [b]) ?_
    rw [split, List.append_assoc]
    rfl

/-- A loop that collects, of which nothing is to be known. -/
theorem collect {body : β → Program κ σ (Option α)} {Q : Option (List α) → σ → Prop} (all : List β)
    (round : ∀ b ∈ all, d.Triple t held P (body b) fun _ => P) (weaker : ∀ found s, d.Inv s → P s → Q found s) :
    d.Triple t held P (Program.collect body all) Q := by
  suffices rounds : d.Triple t held P (Program.collect body all) fun _ => P from rounds.post weaker
  clear weaker
  induction all with
  | nil => exact done fun _ _ => id
  | cons b rest ih =>
    refine (round b List.mem_cons_self).bind fun found => ?_
    cases found with
    | none => exact done fun _ _ => id
    | some a =>
      exact (ih fun b member => round b (List.mem_cons_of_mem _ member)).bind fun _ => done fun _ _ => id

/-- What others cannot make false may be left to them before the program starts. -/
theorem safe (triple : d.Triple t held P p Q) (stable : d.Stable t held P) (inv : d.Inv s) (holds : P s) :
    d.Safe t held p (fun locks a s => locks = held ∧ d.Inv s ∧ Q a s) s :=
  fun s' later => triple s' (later.inv inv) (stable.later later holds)

end Triple

/-! ## Runs -/

/-- The rest of a thread's program is safe with the locks the thread holds, and returns without them where the promise
of the thread holds. -/
structure Sound (d : Discipline τ κ σ) (promise : τ → σ → Prop) (c : Threads τ κ σ) : Prop where
  inv : d.Inv c.shared
  safe : ∀ t, ∃ held : List κ, held.Nodup ∧ (∀ l, c.owner l = some t ↔ l ∈ held) ∧
    d.Safe t held (c.program t) (fun locks _ s => locks = [] ∧ d.Inv s ∧ promise t s) c.shared

variable {promise : τ → σ → Prop} {c c' : Threads τ κ σ}

namespace Sound

/-- A step of one thread leaves the others what they have. -/
theorem of_step {p : Program κ σ Unit} (sound : d.Sound promise c) (inv : d.Inv c'.shared)
    (program : c'.program t = p)
    (own : ∃ held : List κ, held.Nodup ∧ (∀ l, c'.owner l = some t ↔ l ∈ held) ∧
      d.Safe t held p (fun locks _ s => locks = [] ∧ d.Inv s ∧ promise t s) c'.shared)
    (owners : ∀ other, other ≠ t → ∀ l, c'.owner l = some other ↔ c.owner l = some other)
    (programs : ∀ other, other ≠ t → c'.program other = c.program other)
    (later : ∀ other, other ≠ t → ∀ locks : List κ, (∀ l, c.owner l = some other ↔ l ∈ locks) →
      d.Later other locks c.shared c'.shared) : d.Sound promise c' := by
  refine ⟨inv, fun other => ?_⟩
  by_cases same : other = t
  · subst same
    rw [program]
    exact own
  · obtain ⟨locks, nodup, owns, safe⟩ := sound.safe other
    rw [programs other same]
    exact ⟨locks, nodup, fun l => (owners other same l).trans (owns l), safe.later (later other same locks owns)⟩

variable [DecidableEq τ]

/-- A thread has made a step with the locks it holds. -/
theorem steps (sound : d.Sound promise c) (step : Threads.Steps c t c') : d.Sound promise c' := by
  obtain ⟨held, nodup, owns, safe⟩ := sound.safe t
  have now := safe.now
  have programs := step.next.2
  cases step with
  | @lock l next here free =>
    rw [here] at now
    have fresh : l ∉ held := by
      intro member
      have owned := (owns l).mpr member
      rw [free] at owned
      cases owned
    refine sound.of_step sound.inv (Function.update_self t next c.program)
      ⟨l :: held, List.nodup_cons.mpr ⟨fresh, nodup⟩, fun k => ?_, now.2⟩ ?_ programs fun _ _ _ _ => .refl
    · rcases eq_or_ne k l with rfl | apart
      · simp
      · simp [apart, owns]
    · intro other different k
      rcases eq_or_ne k l with rfl | apart
      · simp [free, different.symm]
      · simp [apart]
  | @unlock l next here owned =>
    rw [here] at now
    refine sound.of_step sound.inv (Function.update_self t next c.program)
      ⟨held.erase l, nodup.erase l, fun k => ?_, now.2⟩ ?_ programs fun _ _ _ _ => .refl
    · rcases eq_or_ne k l with rfl | apart
      · simp [nodup.mem_erase_iff]
      · simp [apart, owns, nodup.mem_erase_iff]
    · intro other different k
      rcases eq_or_ne k l with rfl | apart
      · simp [owned, different.symm]
      · simp [apart]
  | @act f next here =>
    rw [here] at now
    obtain ⟨inv, allowed, rest⟩ := now
    refine sound.of_step inv (Function.update_self t (next c.shared) c.program) ⟨held, nodup, owns, rest⟩
      (fun _ _ _ => Iff.rfl) programs ?_
    intro other different locks otherOwns
    have apart : held.Disjoint locks := by
      intro l here there
      have same := ((owns l).mpr here).symm.trans ((otherOwns l).mpr there)
      exact different (Option.some.inj same).symm
    exact .single ⟨sound.inv, inv, t, different.symm, held, apart, allowed⟩

/-- A thread that has returned calls the next program. -/
theorem call {p : Program κ σ Unit} (sound : d.Sound promise c) (returned : c.program t = .done ())
    (safe : d.Safe t [] p (fun locks _ s => locks = [] ∧ d.Inv s ∧ promise t s) c.shared) :
    d.Sound promise { c with program := Function.update c.program t p } := by
  obtain ⟨held, nodup, owns, before⟩ := sound.safe t
  rw [returned] at before
  obtain ⟨rfl, -⟩ := before.now
  exact sound.of_step sound.inv (Function.update_self t p c.program) ⟨[], nodup, owns, safe⟩ (fun _ _ _ => Iff.rfl)
    (fun _ different => Function.update_of_ne different p c.program) fun _ _ _ _ => .refl

omit [DecidableEq τ] in
/-- What has returned keeps its promise. -/
theorem returned (sound : d.Sound promise c) (returned : c.program t = .done ()) : promise t c.shared := by
  obtain ⟨_, _, _, safe⟩ := sound.safe t
  rw [returned] at safe
  exact safe.now.2.2

/-- A run of programs that are safe where they are called, each with the promise of its thread. -/
theorem path {init : σ → Prop} {body : τ → ω → Program κ σ Unit} {before : ω → σ → Prop}
    {events : List (Threads.Event τ ω)}
    (safe : ∀ t op, .call t op ∈ events → ∀ s, d.Inv s → before op s →
      d.Safe t [] (body t op) (fun locks _ s => locks = [] ∧ d.Inv s ∧ promise t s) s)
    (run : ((Threads.machine init body).restrict (Threads.Meets before)).Path c events c')
    (sound : d.Sound promise c) : d.Sound promise c' := by
  induction run with
  | nil => exact sound
  | @cons s _ _ event _ step _ ih =>
    obtain ⟨meets, step⟩ := step
    refine ih (fun t op member => safe t op (List.mem_cons_of_mem _ member)) ?_
    cases event with
    | call t op =>
      obtain ⟨returned, rfl⟩ := Threads.call_iff.mp step
      exact sound.call returned (safe t op List.mem_cons_self _ sound.inv meets)
    | step t => exact sound.steps (Threads.steps_iff.mp step)

/-- What a call promises holds when it returns, whatever the others call meanwhile. -/
theorem returns {init : σ → Prop} {body : τ → ω → Program κ σ Unit} {before : ω → σ → Prop}
    {events : List (Threads.Event τ ω)} {p : Program κ σ Unit} (sound : d.Sound (fun _ _ => True) c)
    (calls : ∀ t op s, d.Inv s → before op s →
      d.Safe t [] (body t op) (fun locks _ s => locks = [] ∧ d.Inv s ∧ True) s)
    (idle : c.program t = .done ()) (safe : d.Safe t [] p (fun locks _ s => locks = [] ∧ d.Inv s ∧ P s) c.shared)
    (run : ((Threads.machine init body).restrict (Threads.Meets before)).Path
      { c with program := Function.update c.program t p } events c')
    (alone : ∀ op, .call t op ∉ events) (returned : c'.program t = .done ()) : P c'.shared := by
  let promise (other : τ) (s : σ) : Prop := other = t → P s
  have started : d.Sound promise { c with program := Function.update c.program t p } := by
    refine ⟨sound.inv, fun other => ?_⟩
    obtain ⟨held, nodup, owns, before⟩ := sound.safe other
    dsimp only
    rw [Function.update_apply]
    split_ifs with same
    · subst same
      rw [idle] at before
      obtain ⟨rfl, -⟩ := before.now
      exact ⟨[], nodup, owns, fun s' later => (safe s' later).mono fun _ _ _ after =>
        ⟨after.1, after.2.1, fun _ => after.2.2⟩⟩
    · exact ⟨held, nodup, owns, fun s' later =>
        (before s' later).mono fun _ _ _ after => ⟨after.1, after.2.1, fun here => absurd here same⟩⟩
  refine (started.path (fun other op member s inv meets => ?_) run).returned returned rfl
  have different : other ≠ t := by
    rintro rfl
    exact alone op member
  exact fun s' later =>
    (calls other op s inv meets s' later).mono fun _ _ _ after =>
      ⟨after.1, after.2.1, fun here => absurd here different⟩

/-- Where the ranks are bounded, a thread that has not returned can go on, or it waits behind one that can. -/
theorem progress (sound : d.Sound promise c) {bound : ℕ} (bounded : ∀ l, d.rank l ≤ bound)
    (busy : c.program t ≠ .done ()) : ∃ t c', Threads.Steps c t c' := by
  by_contra stuck
  push Not at stuck
  -- Nobody can go on, so whoever is busy waits for a lock of higher rank than those it holds.
  have waits (t : τ) (held : List κ) (owns : ∀ l, c.owner l = some t ↔ l ∈ held) (busy : c.program t ≠ .done ()) :
      ∃ l other, (∀ h ∈ held, d.rank h < d.rank l) ∧ c.owner l = some other := by
    obtain ⟨locks, -, others, safe⟩ := sound.safe t
    have now := safe.now
    cases here : c.program t with
    | done a => exact absurd here busy
    | lock l next =>
      rw [here] at now
      cases owner : c.owner l with
      | none => exact absurd (.lock here owner) (stuck t _)
      | some other => exact ⟨l, other, fun h member => now.1 h ((others h).mp ((owns h).mpr member)), owner⟩
    | unlock l next =>
      rw [here] at now
      exact absurd (.unlock here ((others l).mpr now.1)) (stuck t _)
    | act f next => exact absurd (.act here) (stuck t _)
    | fail =>
      rw [here] at now
      exact now.elim
  have climbs (n : ℕ) : ∃ t l, c.owner l = some t ∧ n ≤ d.rank l := by
    induction n with
    | zero =>
      obtain ⟨held, -, owns, -⟩ := sound.safe t
      obtain ⟨l, other, -, owner⟩ := waits t held owns busy
      exact ⟨other, l, owner, Nat.zero_le _⟩
    | succ n ih =>
      obtain ⟨t, l, owner, above⟩ := ih
      obtain ⟨held, -, owns, safe⟩ := sound.safe t
      have member := (owns l).mp owner
      have busy : c.program t ≠ .done () := by
        intro returned
        rw [returned] at safe
        rw [safe.now.1] at member
        cases member
      obtain ⟨k, other, higher, owner⟩ := waits t held owns busy
      exact ⟨other, k, owner, above.trans_lt (higher l member)⟩
  obtain ⟨_, l, -, above⟩ := climbs (bound + 1)
  exact absurd (bounded l) (Nat.not_le_of_lt above)

end Sound

/-! ## A thread alone -/

section Alone

variable [DecidableEq τ] {init : σ → Prop} {body : τ → ω → Program κ σ Unit} {before : ω → σ → Prop}
  {Q : List κ → Unit → σ → Prop}

/-- The steps of the thread alone bring its program to the end, with what is shared as it is in `s`. -/
def Finishes (init : σ → Prop) (body : τ → ω → Program κ σ Unit) (before : ω → σ → Prop)
    (Q : List κ → Unit → σ → Prop) (t : τ) (s : σ) (c : Threads τ κ σ) : Prop :=
  ∃ n c' locks, ((Threads.machine init body).restrict (Threads.Meets before)).Path c (List.replicate n (.step t)) c' ∧
    c'.program = Function.update c.program t (.done ()) ∧ c'.shared = s ∧ Q locks () s ∧
    ∀ l, c'.owner l = if l ∈ locks then some t else none

theorem Finishes.step {next : Program κ σ Unit} (step : Threads.Steps c t c')
    (program : c'.program = Function.update c.program t next) (rest : Finishes init body before Q t s c') :
    Finishes init body before Q t s c := by
  obtain ⟨n, last, locks, path, ended, rest⟩ := rest
  rw [program, Function.update_idem] at ended
  exact ⟨n + 1, last, locks, .cons ⟨trivial, Threads.steps_iff.mpr step⟩ path, ended, rest⟩

/-- A safe program comes to its end if nobody else holds a lock. -/
theorem finishes {p : Program κ σ Unit} (program : c.program t = p)
    (owns : ∀ l, c.owner l = if l ∈ held then some t else none) (nodup : held.Nodup) (now : d.Now t held p Q c.shared)
    (ran : p.run c.shared = some ((), s)) : Finishes init body before Q t s c := by
  induction p generalizing c held with
  | done a =>
    obtain ⟨-, rfl⟩ := Prod.ext_iff.mp (Option.some.inj ran)
    refine ⟨0, c, held, .nil c, ?_, rfl, now, owns⟩
    rw [← program, Function.update_eq_self]
  | lock l next ih =>
    have free : l ∉ held := fun member => Nat.lt_irrefl _ (now.1 l member)
    refine .step (.lock program ((owns l).trans (if_neg free))) rfl (@ih (l :: held) _
      (Function.update_self t next c.program) (fun k => ?_) (List.nodup_cons.mpr ⟨free, nodup⟩) (now.2 _ .refl) ran)
    rcases eq_or_ne k l with rfl | apart
    · simp
    · simp [apart, owns]
  | unlock l next ih =>
    refine .step (.unlock program ((owns l).trans (if_pos now.1))) rfl (@ih (held.erase l) _
      (Function.update_self t next c.program) (fun k => ?_) (nodup.erase l) (now.2 _ .refl) ran)
    rcases eq_or_ne k l with rfl | apart
    · simp [nodup.mem_erase_iff]
    · simp [apart, owns, nodup.mem_erase_iff]
  | act f next ih =>
    exact .step (.act program) rfl (ih _ (Function.update_self t (next c.shared) c.program) owns nodup
      (now.2.2 _ .refl) ran)
  | fail => exact now.elim

end Alone

end Discipline

end Sylar
