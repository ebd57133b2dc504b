import Sylar.Model.ByteArray.Storage
import Sylar.ToMathlib.IntOf

/-! # `ByteArray::writeToFile`

The variables of type `int64_t` are integers, and so is `diff`, but its value is converted to `int` first. The
stream appends the bytes it is given, and a count that is not positive gives it none.
-/

namespace Sylar

/-- A call of `ofs.write`: `len` bytes from `diff` bytes into the memory of a node. -/
structure Chunk where
  node : ℕ
  diff : ℤ
  len : ℤ
deriving DecidableEq, Repr

/-- What the stream has been given. -/
structure File where
  chunks : List Chunk
  content : List Byte
deriving DecidableEq, Repr

namespace ByteArray

/-- `ofs.write(cur->ptr + diff, len)`. -/
def ofsWrite (cur : ℕ) (node : Node) (diff len : ℤ) (file : File) : Except Fault File :=
  if len ≤ 0 then .ok { file with chunks := file.chunks ++ [⟨cur, diff, len⟩] }
  else if 0 ≤ diff ∧ diff + len ≤ node.ptr.length then
    .ok ⟨file.chunks ++ [⟨cur, diff, len⟩], file.content ++ (node.ptr.drop diff.toNat).take len.toNat⟩
  else .error .outsideNode

/-- The `while(read_size > 0)` loop. The list is the chain from the current node on and `cur` its index. `pos` is
never negative. -/
def fileLoop (baseSize : ℕ) : List Node → (cur : ℕ) → (pos readSize : ℤ) → File → Except Fault File
  | [], _, _, readSize, file => if readSize > 0 then .error .nullNode else .ok file
  | node :: rest, cur, pos, readSize, file =>
      if readSize > 0 then do
        let diff := intOf (pos.toNat % baseSize)
        let len := (if readSize > baseSize then (baseSize : ℤ) else readSize) - diff
        let file ← ofsWrite cur node diff len file
        fileLoop baseSize rest (cur + 1) (pos + len) (readSize - len) file
      else .ok file

/-- What is returned, and what the stream was given. `opened` is whether the file could be opened. -/
def writeToFile (opened : Bool) : Op (Bool × File) := fun s =>
  if opened then
    match fileLoop s.baseSize (s.cur.elim [] s.nodes.drop) (s.cur.getD 0) s.position s.getReadSize ⟨[], []⟩ with
    | .error cause => .fault cause
    | .ok file => .done (true, file) s
  else .done (false, ⟨[], []⟩) s

end ByteArray

end Sylar
