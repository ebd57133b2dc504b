import Sylar.Model.ByteArray.Codec
import Sylar.ToMathlib.Signed

/-! # Zigzag in the types of its operands

In `EncodeZigzag32` and `EncodeZigzag64` the negation and the doubling are those of a signed integer. The cast to
the unsigned type stands behind the negation, and the doubling of a value that is not negative has none.
-/

namespace Sylar.ByteArray

/-- `EncodeZigzag32` and `EncodeZigzag64`, where they are defined. -/
def encodeZigzagSigned {w : ℕ} (v : BitVec w) : Option (BitVec w) :=
  if v.toInt < 0 then do
    let negated ← signed w (-v.toInt)
    return BitVec.ofInt w negated * 2#w - 1#w
  else (signed w (v.toInt * 2)).map (BitVec.ofInt w)

end Sylar.ByteArray
