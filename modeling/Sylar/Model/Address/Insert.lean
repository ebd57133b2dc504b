import Sylar.Model.Address.Address
import Sylar.Model.Text

/-! # The text of an IPv6 address

What `insert` puts on a stream that has the default format.
-/

namespace Sylar.IPv6Address

variable (platform : Platform)

/-- `addr[i]`, for `(uint16_t*)m_addr.sin6_addr.s6_addr`. -/
def addrAt (s6_addr : Vector Byte 16) (i : ℕ) : BitVec 16 := platform.ofMemory 2 ((s6_addr.toList.drop (2 * i)).take 2)

/-- One round of the loop, on what has been written and on `used_zeros`. -/
def insertRound (addr : ℕ → BitVec 16) (s : Text × Bool) (i : ℕ) : Text × Bool :=
  let (os, used_zeros) := s
  if addr i = 0 ∧ !used_zeros then (os, used_zeros)
  else
    let (os, used_zeros) :=
      if i ≠ 0 ∧ addr (i - 1) = 0 ∧ !used_zeros then (os ++ [':'], true) else (os, used_zeros)
    let os := if i ≠ 0 then os ++ [':'] else os
    (os ++ Nat.toDigits 16 (platform.byteswapOnLittleEndian 2 (addr i)).toNat, used_zeros)

/-- What stands between the brackets. -/
def insertGroups (s6_addr : Vector Byte 16) : Text :=
  let addr := addrAt platform s6_addr
  let (os, used_zeros) := (List.range 8).foldl (insertRound platform addr) ([], false)
  if !used_zeros ∧ addr 7 = 0 then os ++ [':', ':'] else os

def insert (m_addr : SockaddrIn6) : Text :=
  '[' :: insertGroups platform m_addr.s6_addr ++ [']', ':'] ++
    Nat.toDigits 10 (platform.byteswapOnLittleEndian 2 m_addr.sin6_port).toNat

end Sylar.IPv6Address
