import Sylar.Model.Config.Config

/-! # `ConfigVar::fromString` with listeners that throw

A listener throws or not on the values it is told. What is thrown, by the conversion or by a listener, is caught in
`fromString`, which then answers `false`.
-/

namespace Sylar.Config.Var

open ConfigVar (Notification)

variable {V : Type} [DecidableEq V] (throws : ℕ → V → V → Bool)

omit [DecidableEq V] in
/-- The loop over `m_cbs`: the calls it makes, and whether it comes to its end. -/
def callListeners (old_value new_value : V) : List ℕ → List (Notification V) × Bool
  | [] => ([], true)
  | i :: cbs =>
      if throws i old_value new_value then ([⟨i, old_value, new_value⟩], false)
      else
        let rest := callListeners old_value new_value cbs
        (⟨i, old_value, new_value⟩ :: rest.1, rest.2)

/-- `setValue`, and whether it returns. -/
def setValueThrowing (v : V) (var : Var V) : Var V × Bool :=
  if v = var.val then (var, true)
  else
    let (calls, returns) := callListeners throws var.val v var.cbs
    if returns then ({ var with val := v, notified := var.notified ++ calls }, true)
    else ({ var with notified := var.notified ++ calls }, false)

/-- `fromString`, with its answer. -/
def fromStringThrowing (conv : Text → Option V) (val : Text) (var : Var V) : Var V × Bool :=
  match conv val with
  | none => (var, false)
  | some v => var.setValueThrowing throws v

end Sylar.Config.Var
