import Mathlib.Algebra.Group.Int.Defs
import Mathlib.Data.Int.Notation
import Mathlib.Data.Nat.Notation
import Mathlib.Tactic.SplitIfs

/-! # Signed arithmetic in a type of fixed width -/

namespace Sylar

/-- The result of signed arithmetic in a type of `w` bits. It is undefined where the type cannot represent it. -/
def signed (w : ℕ) (result : ℤ) : Option ℤ :=
  if -2 ^ (w - 1) ≤ result ∧ result < 2 ^ (w - 1) then some result else none

theorem signed_eq_some {w : ℕ} {result v : ℤ} :
    signed w result = some v ↔ (-2 ^ (w - 1) ≤ result ∧ result < 2 ^ (w - 1)) ∧ result = v := by
  unfold signed
  split_ifs with fits
  · rw [Option.some.injEq, and_iff_right fits]
  · exact iff_of_false nofun fun both => fits both.1

end Sylar
