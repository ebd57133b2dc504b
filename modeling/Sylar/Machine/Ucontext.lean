import Mathlib.Data.Nat.Init
import Mathlib.Logic.Function.Basic
import Mathlib.Tactic.TypeStar

/-! # Saved contexts: `getcontext`, `makecontext` and `swapcontext`

An execution is what happens on one stack, and a context is a copy of its registers: where it stood when the
copy was made. A copy can be resumed as long as the execution has not gone on since. Executions are told apart
by the stack they are on; how far one has come is a counter that rises whenever it is let run.
-/

namespace Sylar

variable {τ ε π : Type*}

/-- A copy of the registers: the execution, and how far it had come. -/
structure Snapshot (ε : Type*) where
  execution : ε
  step : ℕ
deriving DecidableEq, Repr

/-- Which execution each thread runs, how far each has come, and what is saved at each place. -/
structure Contexts (τ ε π : Type*) where
  running : τ → ε
  progress : ε → ℕ
  saved : π → Option (Snapshot ε)

namespace Contexts

/-- The place holds all that the execution has done so far. -/
def Holds (c : Contexts τ ε π) (p : π) (e : ε) : Prop := c.saved p = some ⟨e, c.progress e⟩

variable [DecidableEq τ] [DecidableEq ε] [DecidableEq π]

/-- The execution goes on. -/
def advance (e : ε) (c : Contexts τ ε π) : Contexts τ ε π :=
  { c with progress := Function.update c.progress e (c.progress e + 1) }

/-- The registers of the execution are copied. -/
def save (p : π) (e : ε) (c : Contexts τ ε π) : Contexts τ ε π :=
  { c with saved := Function.update c.saved p (some ⟨e, c.progress e⟩) }

/-- `getcontext`: the caller goes on at once. -/
def getcontext (t : τ) (p : π) (c : Contexts τ ε π) : Contexts τ ε π :=
  (c.save p (c.running t)).advance (c.running t)

/-- `makecontext`: the stack of `e` is set up anew, so what was on it before is gone. -/
def makecontext (p : π) (e : ε) (c : Contexts τ ε π) : Contexts τ ε π := (c.advance e).save p e

/-- The thread goes on with the execution `e`. -/
def run (t : τ) (e : ε) (c : Contexts τ ε π) : Contexts τ ε π :=
  advance e { c with running := Function.update c.running t e }

/-- `swapcontext`: what the thread executes is saved at `p`, and what `q` holds is resumed. There is no result where the
copy at `q` is out of date. -/
def swapcontext (t : τ) (p q : π) (c : Contexts τ ε π) : Option (Contexts τ ε π) :=
  match (c.save p (c.running t)).saved q with
  | some copy =>
      if copy.step = c.progress copy.execution then some ((c.save p (c.running t)).run t copy.execution)
      else none
  | none => none

/-- No copy is ahead of its execution, none of what a thread executes is up to date, and no two threads execute
on one stack. -/
structure Sound (c : Contexts τ ε π) : Prop where
  past : ∀ p copy, c.saved p = some copy → copy.step ≤ c.progress copy.execution
  ahead : ∀ t p, ¬ c.Holds p (c.running t)
  apart : Function.Injective c.running

variable {c : Contexts τ ε π} {t : τ} {p q : π} {d e : ε}

/-! ## What is held afterwards -/

omit [DecidableEq τ] [DecidableEq π] in
theorem holds_advance_of_ne (other : d ≠ e) : (c.advance e).Holds p d ↔ c.Holds p d := by
  simp only [Holds, advance, Function.update_of_ne other]

omit [DecidableEq τ] [DecidableEq π] in
theorem not_holds_advance (sound : c.Sound) : ¬ (c.advance e).Holds p e := by
  intro held
  have before : c.saved p = some ⟨e, c.progress e + 1⟩ := by
    simpa only [Holds, advance, Function.update_self] using held
  have := sound.past p _ before
  simp only at this
  omega

omit [DecidableEq τ] [DecidableEq ε] in
theorem holds_save_self : (c.save p e).Holds p e := by
  simp only [Holds, save, Function.update_self]

omit [DecidableEq τ] [DecidableEq ε] in
theorem holds_save_of_ne (other : q ≠ p) : (c.save p e).Holds q d ↔ c.Holds q d := by
  simp only [Holds, save, Function.update_of_ne other]

omit [DecidableEq τ] in
theorem holds_makecontext : (c.makecontext p e).Holds p e := holds_save_self

omit [DecidableEq τ] in
/-- What is held elsewhere of other executions stays. -/
theorem holds_makecontext_of_ne (place : q ≠ p) (other : d ≠ e) :
    (c.makecontext p e).Holds q d ↔ c.Holds q d := by
  rw [makecontext, holds_save_of_ne place, holds_advance_of_ne other]

omit [DecidableEq τ] in
theorem holds_getcontext_of_ne (place : q ≠ p) (other : d ≠ c.running t) :
    (c.getcontext t p).Holds q d ↔ c.Holds q d := by
  rw [getcontext, holds_advance_of_ne other, holds_save_of_ne place]

omit [DecidableEq π] in
theorem holds_run_of_ne (other : d ≠ e) : (c.run t e).Holds p d ↔ c.Holds p d := by
  rw [run, holds_advance_of_ne other]
  rfl

/-- A switch to what another place holds. -/
theorem swapcontext_of_holds (place : q ≠ p) (held : c.Holds q e) :
    c.swapcontext t p q = some ((c.save p (c.running t)).run t e) := by
  have kept : (c.save p (c.running t)).saved q = some ⟨e, c.progress e⟩ :=
    (holds_save_of_ne place).mpr held
  rw [swapcontext, kept]
  exact if_pos rfl

/-! ## Soundness is kept -/

omit [DecidableEq τ] [DecidableEq ε] [DecidableEq π] in
theorem Sound.unheld (sound : c.Sound) (held : c.Holds p e) (t : τ) : c.running t ≠ e := by
  rintro rfl
  exact sound.ahead t p held

omit [DecidableEq τ] in
theorem Sound.getcontext (sound : c.Sound) (t : τ) (p : π) : (c.getcontext t p).Sound where
  past q copy saved := by
    by_cases place : q = p
    · subst place
      obtain rfl : ⟨c.running t, c.progress (c.running t)⟩ = copy := by
        simpa [Contexts.getcontext, advance, save] using saved
      simp [Contexts.getcontext, advance, save]
    · have before : c.saved q = some copy := by
        simpa [Contexts.getcontext, advance, save, place] using saved
      have bound := sound.past q copy before
      simp only [Contexts.getcontext, advance, save, Function.update_apply]
      split <;> rename_i same
      · rw [same] at bound; omega
      · exact bound
  ahead u q held := by
    change (c.getcontext t p).Holds q (c.running u) at held
    by_cases same : c.running u = c.running t
    · rw [same] at held
      by_cases place : q = p
      · subst place
        simp [Holds, Contexts.getcontext, advance, save] at held
      · refine not_holds_advance (p := q) (e := c.running t) sound ?_
        simpa [Holds, Contexts.getcontext, advance, save, place] using held
    · by_cases place : q = p
      · subst place
        simp only [Holds, Contexts.getcontext, advance, save, Function.update_self, Option.some.injEq,
          Snapshot.mk.injEq] at held
        exact same held.1.symm
      · exact sound.ahead u q ((holds_getcontext_of_ne place same).mp held)
  apart := sound.apart

omit [DecidableEq τ] in
theorem Sound.makecontext (sound : c.Sound) (p : π) (idle : ∀ t, c.running t ≠ e) :
    (c.makecontext p e).Sound where
  past q copy saved := by
    by_cases place : q = p
    · subst place
      obtain rfl : ⟨e, c.progress e + 1⟩ = copy := by
        simpa [Contexts.makecontext, advance, save] using saved
      simp [Contexts.makecontext, advance, save]
    · have before : c.saved q = some copy := by
        simpa [Contexts.makecontext, advance, save, place] using saved
      have bound := sound.past q copy before
      simp only [Contexts.makecontext, advance, save, Function.update_apply]
      split <;> rename_i same
      · rw [same] at bound; omega
      · exact bound
  ahead t q held := by
    change (c.makecontext p e).Holds q (c.running t) at held
    by_cases place : q = p
    · subst place
      simp only [Holds, Contexts.makecontext, advance, save, Function.update_self, Option.some.injEq,
        Snapshot.mk.injEq] at held
      exact idle t held.1.symm
    · exact sound.ahead t q ((holds_makecontext_of_ne place (idle t)).mp held)
  apart := sound.apart

/-- After a switch from one place to another. -/
theorem Sound.switch (sound : c.Sound) (t : τ) (place : q ≠ p) (held : c.Holds q e) :
    ((c.save p (c.running t)).run t e).Sound where
  past r copy saved := by
    by_cases here : r = p
    · subst here
      obtain rfl : ⟨c.running t, c.progress (c.running t)⟩ = copy := by
        simpa [run, advance, save] using saved
      simp only [run, advance, save, Function.update_apply]
      split <;> rename_i same
      · rw [same]; omega
      · exact Nat.le_refl _
    · have before : c.saved r = some copy := by simpa [run, advance, save, here] using saved
      have bound := sound.past r copy before
      simp only [run, advance, save, Function.update_apply]
      split <;> rename_i same
      · rw [same] at bound; omega
      · exact bound
  ahead u r now := by
    by_cases mine : u = t
    · subst mine
      by_cases here : r = p
      · subst here
        have target : c.running u = e := by
          have copies : (⟨c.running u, c.progress (c.running u)⟩ : Snapshot ε) = ⟨e, c.progress e + 1⟩ := by
            simpa [Holds, run, advance, save] using now
          exact congrArg Snapshot.execution copies
        exact sound.unheld held u target
      · refine not_holds_advance (p := r) (e := e) sound ?_
        simpa [Holds, run, advance, save, here] using now
    · have others : c.running u ≠ e := sound.unheld held u
      have stays : c.running u ≠ c.running t := fun same => mine (sound.apart same)
      have now : ((c.save p (c.running t)).run t e).Holds r (c.running u) := by
        simpa [run, advance, save, mine] using now
      rw [holds_run_of_ne others] at now
      by_cases here : r = p
      · subst here
        simp only [Holds, save, Function.update_self, Option.some.injEq, Snapshot.mk.injEq] at now
        exact stays now.1.symm
      · exact sound.ahead u r ((holds_save_of_ne here).mp now)
  apart u v same := by
    have other (w : τ) : c.running w ≠ e := sound.unheld held w
    simp only [run, advance, save, Function.update_apply] at same
    split at same <;> rename_i first <;> split at same <;> rename_i second
    · rw [first, second]
    · exact absurd same.symm (other v)
    · exact absurd same (other u)
    · exact sound.apart same

end Contexts

end Sylar
