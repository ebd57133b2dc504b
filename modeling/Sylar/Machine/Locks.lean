import Mathlib.Data.DFinsupp.WellFounded
import Mathlib.Logic.Function.Basic
import Mathlib.Logic.Relation
import Sylar.Machine.Path

/-! # Threads that take locks one inside the other

A program takes locks, gives them back and acts on what the threads share; any number of threads run one program
after the other, interleaved at every lock and every access. A program is safe for its thread if it is under
whatever the other threads may do in between with the locks that it does not hold. In a run of safe programs no
thread ever fails, what a program promises holds when it returns, and if every program takes its locks by rising
rank, there is always a thread that can go on.
-/

namespace Sylar

/-- What is still to be done before a value is returned. The locks are exclusive. -/
inductive Program (κ σ α : Type) where
  | done (a : α)
  | lock (l : κ) (next : Program κ σ α)
  | unlock (l : κ) (next : Program κ σ α)
  /-- One access to what is shared; what is done next may depend on what was found. -/
  | act (f : σ → σ) (next : σ → Program κ σ α)
  /-- The behaviour is undefined. -/
  | fail

namespace Program

variable {κ σ α β : Type}

def bind : Program κ σ α → (α → Program κ σ β) → Program κ σ β
  | .done a, g => g a
  | .lock l next, g => .lock l (next.bind g)
  | .unlock l next, g => .unlock l (next.bind g)
  | .act f next, g => .act f fun s => (next s).bind g
  | .fail, _ => .fail

instance : Monad (Program κ σ) where
  pure := .done
  bind := bind

/-- An access that changes nothing. -/
def get (f : σ → α) : Program κ σ α := .act id fun s => .done (f s)

/-- An access after which nothing is known of what was found. -/
def modify (f : σ → σ) : Program κ σ Unit := .act f fun _ => .done ()

/-- A block that holds the lock. -/
def locked (l : κ) (block : Program κ σ α) : Program κ σ α :=
  .lock l (block.bind fun a => .unlock l (.done a))

/-- A block that runs on a condition. -/
def when (b : Bool) (block : Program κ σ Unit) : Program κ σ Unit := if b then block else .done ()

/-- A loop over a list. -/
def forEach (body : β → Program κ σ Unit) : List β → Program κ σ Unit
  | [] => .done ()
  | b :: rest => (body b).bind fun _ => forEach body rest

/-- A loop that collects what its rounds return, and ends early when one of them returns nothing. -/
def collect (body : β → Program κ σ (Option α)) : List β → Program κ σ (Option (List α))
  | [] => .done (some [])
  | b :: rest => (body b).bind fun found =>
      match found with
      | none => .done none
      | some a => (collect body rest).bind fun all => .done (all.map (a :: ·))

/-- There is nothing left to do. -/
def returned : Program κ σ α → Bool
  | .done _ => true
  | _ => false

/-- What the program returns and leaves if nobody else is about. -/
def run : Program κ σ α → σ → Option (α × σ)
  | .done a, s => some (a, s)
  | .lock _ next, s => next.run s
  | .unlock _ next, s => next.run s
  | .act f next, s => (next s).run (f s)
  | .fail, _ => none

@[simp] theorem run_done (a : α) (s : σ) : (Program.done a : Program κ σ α).run s = some (a, s) := rfl

@[simp] theorem run_act (f : σ → σ) (next : σ → Program κ σ α) (s : σ) :
    (Program.act f next).run s = (next s).run (f s) := rfl

@[simp] theorem run_get (f : σ → α) (s : σ) : (get f : Program κ σ α).run s = some (f s, s) := rfl

@[simp] theorem run_modify (f : σ → σ) (s : σ) : (modify f : Program κ σ Unit).run s = some ((), f s) := rfl

@[simp] theorem run_bind (p : Program κ σ α) (g : α → Program κ σ β) (s : σ) :
    (p.bind g).run s = (p.run s).bind fun result => (g result.1).run result.2 := by
  induction p generalizing s with
  | done a => rfl
  | lock l next ih => exact ih s
  | unlock l next ih => exact ih s
  | act f next ih => exact ih s (f s)
  | fail => rfl

@[simp] theorem run_monad (p : Program κ σ α) (g : α → Program κ σ β) (s : σ) :
    (p >>= g).run s = (p.run s).bind fun result => (g result.1).run result.2 := run_bind p g s

@[simp] theorem run_pure (a : α) (s : σ) : (pure a : Program κ σ α).run s = some (a, s) := rfl

@[simp] theorem run_locked (l : κ) (block : Program κ σ α) (s : σ) : (locked l block).run s = block.run s := by
  change (block.bind fun a => .unlock l (.done a)).run s = block.run s
  rw [run_bind]
  cases block.run s <;> rfl

@[simp] theorem run_when (b : Bool) (block : Program κ σ Unit) (s : σ) :
    (when b block).run s = if b then block.run s else some ((), s) := by
  cases b <;> rfl

/-- A loop whose rounds return something and leave everything as it is. -/
theorem run_collect {body : β → Program κ σ (Option α)} {g : β → α} {s : σ} {all : List β}
    (round : ∀ b ∈ all, (body b).run s = some (some (g b), s)) :
    (collect body all).run s = some (some (all.map g), s) := by
  induction all with
  | nil => rfl
  | cons b rest ih =>
    have first := round b List.mem_cons_self
    have others := ih fun b member => round b (List.mem_cons_of_mem _ member)
    rw [collect, run_bind, first, Option.bind_some]
    simp [others]

/-- One step leads from the second program to the first. -/
inductive Next : Program κ σ α → Program κ σ α → Prop
  | lock (l : κ) (next : Program κ σ α) : Next next (.lock l next)
  | unlock (l : κ) (next : Program κ σ α) : Next next (.unlock l next)
  | act (f : σ → σ) (next : σ → Program κ σ α) (s : σ) : Next (next s) (.act f next)

/-- Every program comes to its end. -/
theorem wellFounded_next : WellFounded (Next : Program κ σ α → Program κ σ α → Prop) := by
  refine ⟨fun program => ?_⟩
  induction program with
  | done a => exact ⟨_, fun _ next => by cases next⟩
  | lock l next ih =>
    refine ⟨_, fun _ step => ?_⟩
    cases step
    exact ih
  | unlock l next ih =>
    refine ⟨_, fun _ step => ?_⟩
    cases step
    exact ih
  | act f next ih =>
    refine ⟨_, fun _ step => ?_⟩
    cases step
    exact ih _
  | fail => exact ⟨_, fun _ next => by cases next⟩

end Program

open Program (Next)

/-- What is shared, what each thread has still to do and who holds each lock. -/
structure Threads (τ κ σ : Type) where
  shared : σ
  program : τ → Program κ σ Unit := fun _ => .done ()
  owner : κ → Option τ := fun _ => none

namespace Threads

variable {τ κ σ ω : Type} [DecidableEq τ] [DecidableEq κ]

/-- A thread with nothing to do calls a program, or it makes the next step of the one it has called. -/
inductive Event (τ ω : Type) where
  | call (t : τ) (op : ω)
  | step (t : τ)
deriving DecidableEq, Repr

/-- Who has called what. -/
def Event.called : Event τ ω → Option (τ × ω)
  | .call t op => some (t, op)
  | .step _ => none

def perform (body : τ → ω → Program κ σ Unit) (c : Threads τ κ σ) : Event τ ω → Option (Threads τ κ σ)
  | .call t op =>
      match c.program t with
      | .done _ => some { c with program := Function.update c.program t (body t op) }
      | _ => none
  | .step t =>
      match c.program t with
      | .lock l next =>
          if c.owner l = none then
            some { c with
              program := Function.update c.program t next, owner := Function.update c.owner l (some t) }
          else none
      | .unlock l next =>
          if c.owner l = some t then
            some { c with program := Function.update c.program t next, owner := Function.update c.owner l none }
          else none
      | .act f next =>
          some { c with shared := f c.shared, program := Function.update c.program t (next c.shared) }
      | .done _ => none
      | .fail => none

/-- Nobody has called anything, and `init` holds of what is shared. -/
def machine (init : σ → Prop) (body : τ → ω → Program κ σ Unit) : Machine (Threads τ κ σ) (Event τ ω) :=
  .ofNext (fun c => init c.shared ∧ (∀ t, c.program t = .done ()) ∧ ∀ l, c.owner l = none) (perform body)

/-- Programs are called only where `pre` holds. -/
def Meets (pre : ω → σ → Prop) (c : Threads τ κ σ) : Event τ ω → Prop
  | .call _ op => pre op c.shared
  | .step _ => True

instance (pre : ω → σ → Prop) [∀ op s, Decidable (pre op s)] (c : Threads τ κ σ) :
    (event : Event τ ω) → Decidable (Meets pre c event)
  | .call _ op => inferInstanceAs (Decidable (pre op c.shared))
  | .step _ => .isTrue trivial

/-- What a step of a thread does, by what it was to do. -/
inductive Steps (c : Threads τ κ σ) (t : τ) : Threads τ κ σ → Prop
  | lock {l : κ} {next : Program κ σ Unit} : c.program t = .lock l next → c.owner l = none →
      Steps c t { c with program := Function.update c.program t next, owner := Function.update c.owner l (some t) }
  | unlock {l : κ} {next : Program κ σ Unit} : c.program t = .unlock l next → c.owner l = some t →
      Steps c t { c with program := Function.update c.program t next, owner := Function.update c.owner l none }
  | act {f : σ → σ} {next : σ → Program κ σ Unit} : c.program t = .act f next →
      Steps c t { c with shared := f c.shared, program := Function.update c.program t (next c.shared) }

theorem steps_iff {body : τ → ω → Program κ σ Unit} {c c' : Threads τ κ σ} {t : τ} :
    perform body c (.step t) = some c' ↔ Steps c t c' := by
  constructor
  · intro step
    simp only [perform] at step
    split at step
    · next here =>
      split_ifs at step with free
      cases step
      exact .lock here free
    · next here =>
      split_ifs at step with owned
      cases step
      exact .unlock here owned
    · next here =>
      cases step
      exact .act here
    · cases step
    · cases step
  · intro step
    cases step with
    | lock here free => simp only [perform, here, free, ↓reduceIte]
    | unlock here owned => simp only [perform, here, owned, ↓reduceIte]
    | act here => simp only [perform, here]

theorem call_iff {body : τ → ω → Program κ σ Unit} {c c' : Threads τ κ σ} {t : τ} {op : ω} :
    perform body c (.call t op) = some c' ↔
      c.program t = .done () ∧ c' = { c with program := Function.update c.program t (body t op) } := by
  simp only [perform]
  constructor
  · intro step
    split at step
    · next here =>
      cases step
      exact ⟨here, rfl⟩
    · cases step
  · rintro ⟨here, rfl⟩
    rw [here]

/-- Only the program of the thread that steps gets shorter. -/
theorem Steps.next {c c' : Threads τ κ σ} {t : τ} (step : Steps c t c') :
    Next (c'.program t) (c.program t) ∧ ∀ other, other ≠ t → c'.program other = c.program other := by
  have self {p : Program κ σ Unit} (next : Next p (c.program t)) :
      Next (Function.update c.program t p t) (c.program t) := by rwa [Function.update_self]
  have others (p : Program κ σ Unit) (other : τ) (different : other ≠ t) :
      Function.update c.program t p other = c.program other := Function.update_of_ne different _ _
  cases step with
  | lock here _ => exact ⟨self (here ▸ .lock _ _), others _⟩
  | unlock here _ => exact ⟨self (here ▸ .unlock _ _), others _⟩
  | act here => exact ⟨self (here ▸ .act _ _ _), others _⟩

/-- There is no infinite run in which nothing is called. -/
theorem wellFounded_steps [LinearOrder τ] [Finite τ] :
    WellFounded fun c' c : Threads τ κ σ => ∃ t, Steps c t c' := by
  have programs := Pi.Lex.wellFounded (ι := τ) (· < ·) fun _ => Program.wellFounded_next (κ := κ) (σ := σ) (α := Unit)
  refine Subrelation.wf ?_ (InvImage.wf Threads.program programs)
  rintro c' c ⟨t, step⟩
  exact ⟨t, fun other before => step.next.2 other before.ne, step.next.1⟩

end Threads

end Sylar
