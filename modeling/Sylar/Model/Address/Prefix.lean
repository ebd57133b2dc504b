import Sylar.Model.Address.Address
import Sylar.ToMathlib.Signed

/-! # Prefix arithmetic

`CreateMask` shifts an `int`, and the functions on IPv6 addresses index the bytes of `s6_addr`.
-/

namespace Sylar

/-- Why a call has no defined behaviour: a shift by the width or more, a result that is no `int`, an access outside
of the array. -/
inductive Undefined where
  | shift
  | overflow
  | outside
deriving DecidableEq, Repr

/-- `CreateMask<T>`, for a `T` of `w` bits. The shift count is a `size_t`. -/
def createMask (w : ℕ) (bits : BitVec 32) : Except Undefined (BitVec w) :=
  let count := BitVec.ofNat 64 w - bits.setWidth 64
  if 32 ≤ count.toNat then .error .shift
  else
    match signed 32 ((1#32 <<< count.toNat).toInt - 1) with
    | none => .error .overflow
    | some mask => .ok (BitVec.ofInt w mask)

/-- `value &= value - 1` clears a bit. -/
theorem and_sub_one_lt {w : ℕ} {value : BitVec w} (rest : value ≠ 0#w) : (value &&& value - 1#w).toNat < value.toNat := by
  have positive : 0 < value.toNat := Nat.pos_of_ne_zero fun zero => rest (BitVec.eq_of_toNat_eq zero)
  have bound := value.isLt
  have wide : 0 < w := Nat.pos_of_ne_zero fun zero => rest (by subst zero; exact BitVec.of_length_zero)
  have one : 1 % 2 ^ w = 1 := Nat.mod_eq_of_lt (Nat.one_lt_two_pow wide.ne')
  rw [BitVec.toNat_and]
  refine lt_of_le_of_lt Nat.and_le_right ?_
  rw [BitVec.toNat_sub_of_le (BitVec.le_def.mpr (by rw [BitVec.toNat_ofNat, one]; exact positive)),
    BitVec.toNat_ofNat, one]
  exact Nat.sub_lt positive Nat.one_pos

/-- The loop of `CountBytes`. -/
def countBytesLoop {w : ℕ} (value : BitVec w) (result : BitVec 32) : BitVec 32 :=
  if value = 0#w then result else countBytesLoop (value &&& value - 1#w) (result + 1)
termination_by value.toNat
decreasing_by exact and_sub_one_lt ‹_›

def countBytes {w : ℕ} (value : BitVec w) : BitVec 32 := countBytesLoop value 0

/-! ## `IPv4Address` -/

namespace IPv4Address

variable (platform : Platform)

/-- `IPv4Address(address, port)`. -/
def new (address : BitVec 32) (port : BitVec 16) : SockaddrIn :=
  ⟨AF_INET, platform.byteswapOnLittleEndian 2 port, platform.byteswapOnLittleEndian 4 address, .replicate 8 0⟩

def broadcastAddress (m_addr : SockaddrIn) (prefix_len : BitVec 32) : Except Undefined (Option SockaddrIn) :=
  if prefix_len.toNat > 32 then return none
  else do
    let mask ← createMask 32 prefix_len
    return some { m_addr with s_addr := m_addr.s_addr ||| platform.byteswapOnLittleEndian 4 mask }

def networdAddress (m_addr : SockaddrIn) (prefix_len : BitVec 32) : Except Undefined (Option SockaddrIn) :=
  if prefix_len.toNat > 32 then return none
  else do
    let mask ← createMask 32 prefix_len
    return some { m_addr with s_addr := m_addr.s_addr &&& ~~~platform.byteswapOnLittleEndian 4 mask }

/-- The prefix length is not checked here. -/
def subnetMask (prefix_len : BitVec 32) : Except Undefined (Option SockaddrIn) := do
  let mask ← createMask 32 prefix_len
  return some ⟨AF_INET, 0, ~~~platform.byteswapOnLittleEndian 4 mask, .replicate 8 0⟩

end IPv4Address

/-! ## `IPv6Address` -/

/-- `s6_addr[i]`. -/
def s6At (s6_addr : Vector Byte 16) (i : ℕ) : Except Undefined Byte :=
  if inside : i < 16 then .ok s6_addr[i] else .error .outside

/-- `s6_addr[i] = byte`. -/
def s6Set (s6_addr : Vector Byte 16) (i : ℕ) (byte : Byte) : Except Undefined (Vector Byte 16) :=
  if inside : i < 16 then .ok (s6_addr.set i byte) else .error .outside

/-- `for(i; i < bound; ++i) s6_addr[i] = byte`. -/
def s6Fill (byte : Byte) (i bound : ℕ) (s6_addr : Vector Byte 16) : Except Undefined (Vector Byte 16) :=
  if i < bound then do
    let s6_addr ← s6Set s6_addr i byte
    s6Fill byte (i + 1) bound s6_addr
  else return s6_addr
termination_by bound - i

/-- `~mask` of a `uint8_t`, an `int`, taken back to a `uint8_t`. -/
def notByte (mask : Byte) : Byte := (~~~(mask.setWidth 32 : BitVec 32)).setWidth 8

namespace IPv6Address

def broadcastAddress (m_addr : SockaddrIn6) (prefix_len : BitVec 32) : Except Undefined (Option SockaddrIn6) := do
  let byte ← s6At m_addr.s6_addr (prefix_len / 8).toNat
  let mask ← createMask 8 (prefix_len % 8)
  let s6_addr ← s6Set m_addr.s6_addr (prefix_len / 8).toNat (byte ||| mask)
  let s6_addr ← s6Fill 0xff ((prefix_len / 8).toNat + 1) 16 s6_addr
  return some { m_addr with s6_addr }

def networdAddress (m_addr : SockaddrIn6) (prefix_len : BitVec 32) : Except Undefined (Option SockaddrIn6) := do
  let byte ← s6At m_addr.s6_addr (prefix_len / 8).toNat
  let mask ← createMask 8 (prefix_len % 8)
  let s6_addr ← s6Set m_addr.s6_addr (prefix_len / 8).toNat (byte &&& notByte mask)
  let s6_addr ← s6Fill 0x00 ((prefix_len / 8).toNat + 1) 16 s6_addr
  return some { m_addr with s6_addr }

def subnetMask (prefix_len : BitVec 32) : Except Undefined (Option SockaddrIn6) := do
  let mask ← createMask 8 (prefix_len % 8)
  let s6_addr ← s6Set (.replicate 16 0) (prefix_len / 8).toNat (notByte mask)
  let s6_addr ← s6Fill 0xff 0 (prefix_len / 8).toNat s6_addr
  return some ⟨AF_INET6, 0, 0, s6_addr, 0⟩

end IPv6Address

end Sylar
