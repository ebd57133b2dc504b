import Sylar.Model.ByteArray.Codec

/-! # Socket addresses

The structures of the system, and the classes over them. A comparison reads the bytes that a structure has in memory.
-/

namespace Sylar

/-- `byteswapOnLittleEndian`, for `n` bytes. -/
def Platform.byteswapOnLittleEndian (platform : Platform) (n : ℕ) (t : BitVec (8 * n)) : BitVec (8 * n) :=
  match platform.byteOrder with
  | .littleEndian => byteswap n t
  | .bigEndian => t

def AF_UNIX : BitVec 16 := 1
def AF_INET : BitVec 16 := 2
def AF_INET6 : BitVec 16 := 10

/-! ## The structures -/

structure Sockaddr where
  sa_family : BitVec 16
  sa_data : Vector Byte 14
deriving DecidableEq, Repr

structure SockaddrIn where
  sin_family : BitVec 16
  sin_port : BitVec 16
  s_addr : BitVec 32
  sin_zero : Vector Byte 8
deriving DecidableEq, Repr

structure SockaddrIn6 where
  sin6_family : BitVec 16
  sin6_port : BitVec 16
  sin6_flowinfo : BitVec 32
  s6_addr : Vector Byte 16
  sin6_scope_id : BitVec 32
deriving DecidableEq, Repr

structure SockaddrUn where
  sun_family : BitVec 16
  sun_path : Vector Byte 108
deriving DecidableEq, Repr

section Memory

variable (platform : Platform)

def Sockaddr.memory (addr : Sockaddr) : List Byte := platform.toMemory 2 addr.sa_family ++ addr.sa_data.toList

def SockaddrIn.memory (addr : SockaddrIn) : List Byte :=
  platform.toMemory 2 addr.sin_family ++ platform.toMemory 2 addr.sin_port ++ platform.toMemory 4 addr.s_addr ++
    addr.sin_zero.toList

def SockaddrIn6.memory (addr : SockaddrIn6) : List Byte :=
  platform.toMemory 2 addr.sin6_family ++ platform.toMemory 2 addr.sin6_port ++
    platform.toMemory 4 addr.sin6_flowinfo ++ addr.s6_addr.toList ++ platform.toMemory 4 addr.sin6_scope_id

def SockaddrUn.memory (addr : SockaddrUn) : List Byte :=
  platform.toMemory 2 addr.sun_family ++ addr.sun_path.toList

end Memory

/-! ## The classes -/

/-- An object of one of the classes below `Address`. A `UnixAddress` has its `m_length` beside the structure. -/
inductive Address where
  | ipv4 (m_addr : SockaddrIn)
  | ipv6 (m_addr : SockaddrIn6)
  | unix (m_addr : SockaddrUn) (m_length : BitVec 32)
  | unknown (m_addr : Sockaddr)
deriving DecidableEq, Repr

/-- `offsetof(sockaddr_un, sun_path)`. -/
def sunPathOffset : BitVec 32 := 2

/-- `UnixAddress()`. -/
def UnixAddress.new : Address := .unix ⟨AF_UNIX, .replicate 108 0⟩ (sunPathOffset + 107)

/-- `UnixAddress(path)`, or nothing if it throws. -/
def UnixAddress.ofPath (path : List Byte) : Option Address :=
  let m_length := BitVec.ofNat 32 (path.length + 1)
  let m_length := if path.head? = some 0 then m_length - 1 else m_length
  if m_length.toNat > 108 then none
  else
    -- what `memcpy` takes from `path.c_str()`, in front of the zeros
    let sun_path := Vector.ofFn fun i : Fin 108 => if i < m_length.toNat then (path ++ [0]).getD i 0 else 0
    some (.unix ⟨AF_UNIX, sun_path⟩ (m_length + sunPathOffset))

/-- `UnknownAddress(family)`. -/
def UnknownAddress.new (family : BitVec 32) : Address := .unknown ⟨family.setWidth 16, .replicate 14 0⟩

namespace Address

/-- `getFamily`: the `sa_family` that every structure has in front. -/
def getFamily : Address → BitVec 32
  | .ipv4 m_addr => m_addr.sin_family.setWidth 32
  | .ipv6 m_addr => m_addr.sin6_family.setWidth 32
  | .unix m_addr _ => m_addr.sun_family.setWidth 32
  | .unknown m_addr => m_addr.sa_family.setWidth 32

/-- `UnixAddress::setAddrLen`. -/
def setAddrLen (v : BitVec 32) : Address → Address
  | .unix m_addr _ => .unix m_addr v
  | address => address

/-- The memory of the structure that `getAddr` points to. -/
def getAddr (platform : Platform) : Address → List Byte
  | .ipv4 m_addr => m_addr.memory platform
  | .ipv6 m_addr => m_addr.memory platform
  | .unix m_addr _ => m_addr.memory platform
  | .unknown m_addr => m_addr.memory platform

def getAddrLen : Address → ℕ
  | .ipv4 _ => 16
  | .ipv6 _ => 28
  | .unix _ m_length => m_length.toNat
  | .unknown _ => 16

end Address

/-! ## Comparison -/

/-- The order of two byte strings at the first byte where they differ. -/
def firstDifference : List Byte → List Byte → Ordering
  | a :: s, b :: t => if a < b then .lt else if b < a then .gt else firstDifference s t
  | _, _ => .eq

/-- The sign of `memcmp(s, t, n)`, if both have `n` bytes to read. -/
def memcmp (s t : List Byte) (n : ℕ) : Option Ordering :=
  if n ≤ s.length ∧ n ≤ t.length then some (firstDifference (s.take n) (t.take n)) else none

namespace Address

variable (platform : Platform)

/-- `operator<`. -/
def lt (lhs rhs : Address) : Option Bool := do
  let minlen := min lhs.getAddrLen rhs.getAddrLen
  match ← memcmp (lhs.getAddr platform) (rhs.getAddr platform) minlen with
  | .lt => return true
  | .gt => return false
  | .eq => return lhs.getAddrLen < rhs.getAddrLen

/-- `operator==`. -/
def eq (lhs rhs : Address) : Option Bool :=
  if lhs.getAddrLen = rhs.getAddrLen then do
    return (← memcmp (lhs.getAddr platform) (rhs.getAddr platform) lhs.getAddrLen) = .eq
  else return false

/-- `operator!=`. -/
def ne (lhs rhs : Address) : Option Bool := (eq platform lhs rhs).map not

end Address

end Sylar
