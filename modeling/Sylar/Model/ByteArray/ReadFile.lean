import Sylar.Model.ByteArray.Storage

/-! # `ByteArray::readFromFile`

An opened stream is what its reads deliver: blocks without a flag, and then one that meets the end of the file or an
I/O error. Only the end of the file sets `eofbit`. After either the stream is not good, and every further read
delivers nothing and leaves `eofbit` as it is.
-/

namespace Sylar

/-- What a stream meets after its last full block. -/
inductive Ending where
  | endOfFile
  | ioError
deriving DecidableEq, Repr

/-- An `std::ifstream` that could be opened: the deliveries to come, and `eofbit`. -/
structure IfStream where
  blocks : List (List Byte)
  last : List Byte
  ending : Ending
  eofbit : Bool
deriving DecidableEq, Repr

namespace IfStream

/-- `ifs.read(buff.get(), m_baseSize)`: the `ifs.gcount()` bytes that are delivered. -/
def read (ifs : IfStream) : List Byte × IfStream :=
  match ifs.blocks with
  | block :: blocks => (block, { ifs with blocks })
  | [] => (ifs.last, { ifs with last := [], eofbit := ifs.ending = .endOfFile })

end IfStream

namespace ByteArray

/-- The `while(!ifs.eof())` loop, followed for at most `rounds` rounds: whether it has ended by then. -/
def readFileLoop : (rounds : ℕ) → IfStream → Op Bool
  | 0, ifs => pure ifs.eofbit
  | rounds + 1, ifs =>
      if ifs.eofbit then pure true
      else do
        write ifs.read.1
        readFileLoop rounds ifs.read.2

/-- What is returned if the loop ends within `rounds` rounds. `opened` is the stream if the file could be opened. -/
def readFromFile (rounds : ℕ) (opened : Option IfStream) : Op (Option Bool) :=
  match opened with
  | none => pure (some false)
  | some ifs => do return if ← readFileLoop rounds ifs then some true else none

end ByteArray

end Sylar
