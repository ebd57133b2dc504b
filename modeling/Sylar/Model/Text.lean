import Mathlib.Data.Nat.Notation

/-! # `std::string` -/

namespace Sylar

/-- A `std::string`, character by character. -/
abbrev Text := List Char

/-- `isalpha` in the C locale. -/
def isalpha (c : Char) : Bool := c.isAlpha

namespace Text

/-- `substr(pos, n)`, or nothing where it throws `out_of_range`. -/
def substr (s : Text) (pos n : ℕ) : Option Text := if pos > s.length then none else some ((s.drop pos).take n)

end Text

end Sylar
