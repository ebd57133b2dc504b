import Sylar.Model.ByteArray.Storage
import Sylar.ToMathlib.LittleEndian

/-! # The numeric and string codecs of `ByteArray`

Values are bit patterns of their width, signed integers in two's complement and floating-point
numbers in their object representation, so that the casts and the `memcpy` between them are the
identity. Arithmetic on them wraps. What the platform fixes, the byte order of its memory and the
`max_size()` of its strings, is a parameter.
-/

namespace Sylar

/-- `SYLAR_BYTE_ORDER`, the order the machine stores integers in, and `std::string::max_size()`. -/
structure Platform where
  byteOrder : ByteOrder
  stringMaxSize : ℕ
  stringMaxSize_lt : stringMaxSize < 2 ^ 64

/-- The characters of a `std::string`. -/
def Platform.Str (platform : Platform) := { chars : List Byte // chars.length ≤ platform.stringMaxSize }

/-- `bswap_16`, `bswap_32` and `bswap_64`, for `n` bytes. -/
def byteswap (n : ℕ) (value : BitVec (8 * n)) : BitVec (8 * n) :=
  .ofNat _ (Nat.valueLE (Nat.bytesLE n value.toNat).reverse)

namespace Platform

/-- The `n` bytes at `&value`. -/
def toMemory (platform : Platform) (n : ℕ) (value : BitVec (8 * n)) : List Byte :=
  match platform.byteOrder with
  | .littleEndian => Nat.bytesLE n value.toNat
  | .bigEndian => (Nat.bytesLE n value.toNat).reverse

/-- The integer whose `n` bytes are `memory`. -/
def ofMemory (platform : Platform) (n : ℕ) (memory : List Byte) : BitVec (8 * n) :=
  match platform.byteOrder with
  | .littleEndian => .ofNat _ (Nat.valueLE memory)
  | .bigEndian => .ofNat _ (Nat.valueLE memory.reverse)

end Platform

namespace ByteArray

variable (platform : Platform)

/-! ## Fixed width -/

/-- `write(&value, sizeof(value))`. -/
def writeRaw (n : ℕ) (value : BitVec (8 * n)) : Op Unit := write (platform.toMemory n value)

/-- `read(&v, sizeof(v))`. -/
def readRaw (n : ℕ) : Op (BitVec (8 * n)) := do return platform.ofMemory n (← read n)

/-- Swap the bytes first if `m_endian != SYLAR_BYTE_ORDER`. -/
def writeFixed (n : ℕ) (value : BitVec (8 * n)) : Op Unit := fun s =>
  writeRaw platform n (if s.endian ≠ platform.byteOrder then byteswap n value else value) s

/-- The second half of the macro `XX`: `v`, byte-swapped unless `m_endian == SYLAR_BYTE_ORDER`. -/
def hostOrder (n : ℕ) (v : BitVec (8 * n)) : Op (BitVec (8 * n)) := fun s =>
  .done (if s.endian = platform.byteOrder then v else byteswap n v) s

/-- The macro `XX`. -/
def readFixed (n : ℕ) : Op (BitVec (8 * n)) := do
  let v ← readRaw platform n
  hostOrder platform n v

def writeFint8 (value : BitVec 8) : Op Unit := writeRaw platform 1 value
def writeFuint8 (value : BitVec 8) : Op Unit := writeRaw platform 1 value
def writeFint16 (value : BitVec 16) : Op Unit := writeFixed platform 2 value
def writeFuint16 (value : BitVec 16) : Op Unit := writeFixed platform 2 value
def writeFint32 (value : BitVec 32) : Op Unit := writeFixed platform 4 value
def writeFuint32 (value : BitVec 32) : Op Unit := writeFixed platform 4 value
def writeFint64 (value : BitVec 64) : Op Unit := writeFixed platform 8 value
def writeFuint64 (value : BitVec 64) : Op Unit := writeFixed platform 8 value

def readFint8 : Op (BitVec 8) := readRaw platform 1
def readFuint8 : Op (BitVec 8) := readRaw platform 1
def readFint16 : Op (BitVec 16) := readFixed platform 2
def readFuint16 : Op (BitVec 16) := readFixed platform 2
def readFint32 : Op (BitVec 32) := readFixed platform 4
def readFuint32 : Op (BitVec 32) := readFixed platform 4
def readFint64 : Op (BitVec 64) := readFixed platform 8
def readFuint64 : Op (BitVec 64) := readFixed platform 8

/-! ## Varints and zigzag -/

/-- The bytes the `while(value >= 0x80)` loop and the line after it put into `tmp`, which has room
for `room` more of them. -/
def varintBytes {w : ℕ} : ℕ → BitVec w → Except Fault (List Byte)
  | 0, _ => .error .outsideBuffer
  | room + 1, value =>
      if value ≥ 0x80#w then do
        let tail ← varintBytes room (value >>> 7)
        .ok ((value &&& 0x7f#w ||| 0x80#w).setWidth 8 :: tail)
      else .ok [value.setWidth 8]

/-- `writeUint32` and `writeUint64`, whose `tmp` has `room` bytes. -/
def writeVarint {w : ℕ} (room : ℕ) (value : BitVec w) : Op Unit := fun s =>
  match varintBytes room value with
  | .error cause => .fault cause
  | .ok tmp => write tmp s

/-- The loop `for(int i = 0; i < w; i += 7)` from `i` on. It makes at most `rounds` rounds, which
`readVarint` chooses large enough for `i < w` to end it. -/
def readVarintLoop (w : ℕ) : (rounds i : ℕ) → BitVec w → Op (BitVec w)
  | 0, _, result => pure result
  | rounds + 1, i, result =>
      if i < w then do
        let b ← readFuint8 platform
        if b < 0x80#8 then pure (result ||| b.setWidth w <<< i)
        else readVarintLoop w rounds (i + 7) (result ||| (b &&& 0x7f#8).setWidth w <<< i)
      else pure result

def readVarint (w : ℕ) : Op (BitVec w) := readVarintLoop platform w w 0 0#w

/-- `EncodeZigzag32` and `EncodeZigzag64`. -/
def encodeZigzag {w : ℕ} (v : BitVec w) : BitVec w :=
  if v.slt 0#w then -v * 2#w - 1#w else v * 2#w

/-- `DecodeZigzag32` and `DecodeZigzag64`. -/
def decodeZigzag {w : ℕ} (v : BitVec w) : BitVec w := v >>> 1 ^^^ -(v &&& 1#w)

def writeUint32 (value : BitVec 32) : Op Unit := writeVarint 5 value
def writeUint64 (value : BitVec 64) : Op Unit := writeVarint 10 value
def writeInt32 (value : BitVec 32) : Op Unit := writeUint32 (encodeZigzag value)
def writeInt64 (value : BitVec 64) : Op Unit := writeUint64 (encodeZigzag value)

def readUint32 : Op (BitVec 32) := readVarint platform 32
def readUint64 : Op (BitVec 64) := readVarint platform 64
def readInt32 : Op (BitVec 32) := do return decodeZigzag (← readUint32 platform)
def readInt64 : Op (BitVec 64) := do return decodeZigzag (← readUint64 platform)

/-! ## Floating point -/

def writeFloat (value : BitVec 32) : Op Unit := writeFuint32 platform value
def writeDouble (value : BitVec 64) : Op Unit := writeFuint64 platform value
def readFloat : Op (BitVec 32) := readFuint32 platform
def readDouble : Op (BitVec 64) := readFuint64 platform

/-! ## Strings -/

/-- `value.size()` as the unsigned integer of `w` bits it is passed as. -/
def sizeAs {platform : Platform} (w : ℕ) (value : platform.Str) : BitVec w := .ofNat w value.1.length

/-- `buff.resize(len)`, then `read(&buff[0], len)`. A string of any length up to `max_size()` is taken to find the
memory it asks for: that `resize` throws `std::bad_alloc` is not among the outcomes. -/
def readBuff (len : ℕ) : Op (List Byte) := fun s =>
  if len > platform.stringMaxSize then .thrown .lengthError s else read len s

def writeStringF16 (value : platform.Str) : Op Unit := do
  writeFuint16 platform (sizeAs 16 value)
  write value.1

def writeStringF32 (value : platform.Str) : Op Unit := do
  writeFuint32 platform (sizeAs 32 value)
  write value.1

def writeStringF64 (value : platform.Str) : Op Unit := do
  writeFuint64 platform (sizeAs 64 value)
  write value.1

def writeStringVint (value : platform.Str) : Op Unit := do
  writeUint64 (sizeAs 64 value)
  write value.1

def readStringF16 : Op (List Byte) := do
  let len ← readFuint16 platform
  readBuff platform len.toNat

def readStringF32 : Op (List Byte) := do
  let len ← readFuint32 platform
  readBuff platform len.toNat

def readStringF64 : Op (List Byte) := do
  let len ← readFuint64 platform
  readBuff platform len.toNat

def readStringVint : Op (List Byte) := do
  let len ← readUint64 platform
  readBuff platform len.toNat

/-! ## Lists of tagged values -/

/-- A numeric writer with its reader. -/
inductive NumericCodec where
  | fint8 | fuint8 | fint16 | fuint16 | fint32 | fuint32 | fint64 | fuint64
  | int32 | uint32 | int64 | uint64
  | float | double
deriving DecidableEq, Repr

/-- The width of the values of a numeric codec. -/
@[reducible] def NumericCodec.width : NumericCodec → ℕ
  | .fint8 | .fuint8 => 8
  | .fint16 | .fuint16 => 16
  | .fint32 | .fuint32 | .int32 | .uint32 | .float => 32
  | .fint64 | .fuint64 | .int64 | .uint64 | .double => 64

/-- A value with the codec it is written with. -/
abbrev NumericValue := (codec : NumericCodec) × BitVec codec.width

def writeNumeric : (codec : NumericCodec) → BitVec codec.width → Op Unit
  | .fint8, value => writeFint8 platform value
  | .fuint8, value => writeFuint8 platform value
  | .fint16, value => writeFint16 platform value
  | .fuint16, value => writeFuint16 platform value
  | .fint32, value => writeFint32 platform value
  | .fuint32, value => writeFuint32 platform value
  | .fint64, value => writeFint64 platform value
  | .fuint64, value => writeFuint64 platform value
  | .int32, value => writeInt32 value
  | .uint32, value => writeUint32 value
  | .int64, value => writeInt64 value
  | .uint64, value => writeUint64 value
  | .float, value => writeFloat platform value
  | .double, value => writeDouble platform value

def readNumeric : (codec : NumericCodec) → Op (BitVec codec.width)
  | .fint8 => readFint8 platform
  | .fuint8 => readFuint8 platform
  | .fint16 => readFint16 platform
  | .fuint16 => readFuint16 platform
  | .fint32 => readFint32 platform
  | .fuint32 => readFuint32 platform
  | .fint64 => readFint64 platform
  | .fuint64 => readFuint64 platform
  | .int32 => readInt32 platform
  | .uint32 => readUint32 platform
  | .int64 => readInt64 platform
  | .uint64 => readUint64 platform
  | .float => readFloat platform
  | .double => readDouble platform

def writeNumerics : List NumericValue → Op Unit
  | [] => pure ()
  | ⟨codec, value⟩ :: rest => do
      writeNumeric platform codec value
      writeNumerics rest

def readNumerics : List NumericCodec → Op (List NumericValue)
  | [] => pure []
  | codec :: rest => do
      let value ← readNumeric platform codec
      let values ← readNumerics rest
      return ⟨codec, value⟩ :: values

/-- A string writer with its reader, named by the form of the length in front of the characters. -/
inductive StringCodec where
  | f16 | f32 | f64 | vint
deriving DecidableEq, Repr

def writeString : StringCodec → platform.Str → Op Unit
  | .f16 => writeStringF16 platform
  | .f32 => writeStringF32 platform
  | .f64 => writeStringF64 platform
  | .vint => writeStringVint platform

def readString : StringCodec → Op (List Byte)
  | .f16 => readStringF16 platform
  | .f32 => readStringF32 platform
  | .f64 => readStringF64 platform
  | .vint => readStringVint platform

def writeStrings : List (StringCodec × platform.Str) → Op Unit
  | [] => pure ()
  | (codec, value) :: rest => do
      writeString platform codec value
      writeStrings rest

def readStrings : List StringCodec → Op (List (List Byte))
  | [] => pure []
  | codec :: rest => do
      let value ← readString platform codec
      let values ← readStrings rest
      return value :: values

end ByteArray

end Sylar
