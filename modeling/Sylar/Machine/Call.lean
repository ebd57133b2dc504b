import Mathlib.Tactic.TypeStar

/-! # Calls on a shared object: values, exceptions and undefined behaviour

A call either returns, or throws and leaves the object as it was at the throw, or does something the
language gives no meaning to. An exception does not roll anything back, so the state it leaves is
part of the outcome; undefined behaviour leaves no state at all.
-/

namespace Sylar

/-- What one call leaves behind. -/
inductive Outcome (σ ε φ α : Type) where
  | done (value : α) (after : σ)
  | thrown (error : ε) (after : σ)
  | fault (cause : φ)

/-- The undefined behaviour a call ran into, if it did not return or throw. -/
def Outcome.cause {σ ε φ α : Type} : Outcome σ ε φ α → Option φ
  | .done _ _ => none
  | .thrown _ _ => none
  | .fault cause => some cause

/-- A call on an object of type `σ`. -/
def Call (σ ε φ α : Type) := σ → Outcome σ ε φ α

namespace Call

variable {σ ε φ α β : Type} {s t : σ} {call : Call σ ε φ α} {next : α → Call σ ε φ β}

/-- Sequencing stops at the first throw or fault. -/
instance : Monad (Call σ ε φ) where
  pure value := fun s => .done value s
  bind call next := fun s =>
    match call s with
    | .done value t => next value t
    | .thrown error t => .thrown error t
    | .fault cause => .fault cause

@[simp] theorem pure_apply (value : α) (s : σ) :
    (pure value : Call σ ε φ α) s = .done value s := rfl

theorem bind_done {value : α} (ran : call s = .done value t) : (call >>= next) s = next value t := by
  change (match call s with | .done v u => next v u | .thrown e u => .thrown e u | .fault c => .fault c) = _
  rw [ran]

theorem bind_thrown {error : ε} (ran : call s = .thrown error t) :
    (call >>= next) s = .thrown error t := by
  change (match call s with | .done v u => next v u | .thrown e u => .thrown e u | .fault c => .fault c) = _
  rw [ran]

theorem bind_fault {cause : φ} (ran : call s = .fault cause) : (call >>= next) s = .fault cause := by
  change (match call s with | .done v u => next v u | .thrown e u => .thrown e u | .fault c => .fault c) = _
  rw [ran]

/-! ## Inversion -/

theorem bind_eq_done {result : β} {u : σ} (ran : (call >>= next) s = .done result u) :
    ∃ value t, call s = .done value t ∧ next value t = .done result u := by
  cases called : call s with
  | done value t => exact ⟨value, t, rfl, (bind_done called).symm.trans ran⟩
  | thrown error t =>
    rw [bind_thrown called] at ran
    cases ran
  | fault cause =>
    rw [bind_fault called] at ran
    cases ran

/-- Either call may have thrown. -/
theorem bind_eq_thrown {error : ε} {u : σ} (ran : (call >>= next) s = .thrown error u) :
    call s = .thrown error u ∨ ∃ value t, call s = .done value t ∧ next value t = .thrown error u := by
  cases called : call s with
  | done value t => exact .inr ⟨value, t, rfl, (bind_done called).symm.trans ran⟩
  | thrown other t =>
    rw [bind_thrown called] at ran
    cases ran
    exact .inl rfl
  | fault cause =>
    rw [bind_fault called] at ran
    cases ran

end Call

end Sylar
