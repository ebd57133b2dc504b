import Sylar.Proofs.Address.Mask

/-! # Prefix arithmetic on IPv4 addresses

The three functions build the same mask. It has no defined value for the two shortest prefixes, whose shift reaches
the width or the sign bit of an `int`, and `subnetMask` does not refuse the prefixes that are too long.
-/

namespace Sylar.IPv4Address

variable {platform : Platform} {m_addr : SockaddrIn} {prefix_len : BitVec 32}

/-- Mask, network and broadcast address are those of the prefix, for a prefix of up to 32 bits, and there are none
for a longer one. The numbers are those in host order. -/
def PrefixArithmetic (platform : Platform) (m_addr : SockaddrIn) (prefix_len : BitVec 32) : Prop :=
  let a := platform.byteswapOnLittleEndian 4 m_addr.s_addr
  let m := leadingOnes 32 prefix_len.toNat
  if prefix_len.toNat ≤ 32 then
    createMask 32 prefix_len ≠ .error .shift ∧
      (∃ mask, subnetMask platform prefix_len = .ok (some mask) ∧
        mask.s_addr = platform.byteswapOnLittleEndian 4 m ∧ countBytes mask.s_addr = prefix_len) ∧
      networdAddress platform m_addr prefix_len =
        .ok (some { m_addr with s_addr := platform.byteswapOnLittleEndian 4 (a &&& m) }) ∧
      broadcastAddress platform m_addr prefix_len =
        .ok (some { m_addr with s_addr := platform.byteswapOnLittleEndian 4 (a ||| ~~~m) })
  else
    subnetMask platform prefix_len = .ok none ∧ networdAddress platform m_addr prefix_len = .ok none ∧
      broadcastAddress platform m_addr prefix_len = .ok none

/-! ## The mask -/

theorem createMask_some (least : 2 ≤ prefix_len.toNat) (most : prefix_len.toNat ≤ 32) :
    createMask 32 prefix_len = .ok (~~~leadingOnes 32 prefix_len.toNat) := by
  rw [createMask_eq le_rfl most (by omega), leadingOnes, BitVec.not_not]

/-- The shift count of a prefix that is too long has wrapped around. -/
theorem createMask_long (long : 32 < prefix_len.toNat) : createMask 32 prefix_len = .error .shift := by
  have bound := prefix_len.isLt
  have extended : (prefix_len.setWidth 64).toNat = prefix_len.toNat := BitVec.toNat_setWidth_of_le (by decide)
  have count : 32 ≤ (BitVec.ofNat 64 32 - prefix_len.setWidth 64).toNat := by
    rw [BitVec.toNat_sub, extended, BitVec.toNat_ofNat]
    omega
  rw [createMask, if_pos count]

theorem createMask_short (short : prefix_len.toNat < 2) (mask : BitVec 32) : createMask 32 prefix_len ≠ .ok mask := by
  have cases : prefix_len = 0#32 ∨ prefix_len = 1#32 := by
    have : prefix_len.toNat = 0 ∨ prefix_len.toNat = 1 := by omega
    exact this.imp (fun zero => BitVec.eq_of_toNat_eq zero) fun one => BitVec.eq_of_toNat_eq one
  rcases cases with rfl | rfl
  · have shift : createMask 32 0#32 = .error .shift := by decide
    rw [shift]
    exact nofun
  · have overflow : createMask 32 1#32 = .error .overflow := by decide
    rw [overflow]
    exact nofun

/-! ## The functions -/

theorem subnetMask_eq_some {mask : SockaddrIn} (built : subnetMask platform prefix_len = .ok (some mask)) :
    ∃ bits, createMask 32 prefix_len = .ok bits := by
  unfold subnetMask at built
  cases created : createMask 32 prefix_len with
  | error cause =>
    rw [created] at built
    cases built
  | ok bits => exact ⟨bits, rfl⟩

section Masked

variable {m : BitVec 32} (created : createMask 32 prefix_len = .ok (~~~m))

include created

theorem subnetMask_eq : subnetMask platform prefix_len =
    .ok (some ⟨AF_INET, 0, platform.byteswapOnLittleEndian 4 m, .replicate 8 0⟩) := by
  have swapped : ~~~platform.byteswapOnLittleEndian 4 (~~~m) = platform.byteswapOnLittleEndian 4 m := by
    have complement := platform.byteswapOnLittleEndian_not (n := 4) m
    exact (BitVec.not_eq_comm.mp complement.symm).symm
  rw [subnetMask, created, ← swapped]
  rfl

theorem networdAddress_eq (most : prefix_len.toNat ≤ 32) :
    networdAddress platform m_addr prefix_len = .ok (some { m_addr with
      s_addr := platform.byteswapOnLittleEndian 4 (platform.byteswapOnLittleEndian 4 m_addr.s_addr &&& m) }) := by
  have swapped : platform.byteswapOnLittleEndian 4 (platform.byteswapOnLittleEndian 4 m_addr.s_addr &&& m) =
      m_addr.s_addr &&& ~~~platform.byteswapOnLittleEndian 4 (~~~m) := by
    have complement := platform.byteswapOnLittleEndian_not (n := 4) m
    have both := platform.byteswapOnLittleEndian_and (n := 4) (platform.byteswapOnLittleEndian 4 m_addr.s_addr) m
    have back := platform.byteswapOnLittleEndian_twice (n := 4) m_addr.s_addr
    exact both.trans (congrArg₂ (· &&& ·) back (BitVec.not_eq_comm.mp complement.symm))
  rw [networdAddress, if_neg (not_lt.mpr most), created, swapped]
  rfl

theorem broadcastAddress_eq (most : prefix_len.toNat ≤ 32) :
    broadcastAddress platform m_addr prefix_len = .ok (some { m_addr with
      s_addr := platform.byteswapOnLittleEndian 4 (platform.byteswapOnLittleEndian 4 m_addr.s_addr ||| ~~~m) }) := by
  have swapped : platform.byteswapOnLittleEndian 4 (platform.byteswapOnLittleEndian 4 m_addr.s_addr ||| ~~~m) =
      m_addr.s_addr ||| platform.byteswapOnLittleEndian 4 (~~~m) := by
    have both := platform.byteswapOnLittleEndian_or (n := 4) (platform.byteswapOnLittleEndian 4 m_addr.s_addr) (~~~m)
    have back := platform.byteswapOnLittleEndian_twice (n := 4) m_addr.s_addr
    exact both.trans (congrArg₂ (· ||| ·) back rfl)
  rw [broadcastAddress, if_neg (not_lt.mpr most), created, swapped]
  rfl

end Masked

theorem countBytes_mask (most : prefix_len.toNat ≤ 32) :
    countBytes (platform.byteswapOnLittleEndian 4 (leadingOnes 32 prefix_len.toNat)) = prefix_len := by
  have counted := platform.bitCount_byteswapOnLittleEndian (n := 4) (leadingOnes 32 prefix_len.toNat)
  rw [countBytes_eq]
  refine (congrArg (BitVec.ofNat 32) (counted.trans (bitCount_leadingOnes most))).trans ?_
  exact BitVec.eq_of_toNat_eq (by rw [BitVec.toNat_ofNat, Nat.mod_eq_of_lt prefix_len.isLt])

/-- Prefix arithmetic is right exactly for the prefixes of 2 to 32 bits. -/
theorem ipv4_prefix_iff (platform : Platform) (m_addr : SockaddrIn) (prefix_len : BitVec 32) :
    PrefixArithmetic platform m_addr prefix_len ↔ 2 ≤ prefix_len.toNat ∧ prefix_len.toNat ≤ 32 := by
  constructor
  · intro right
    unfold PrefixArithmetic at right
    split at right
    · next most =>
      obtain ⟨mask, built, -⟩ := right.2.1
      obtain ⟨bits, created⟩ := subnetMask_eq_some built
      exact ⟨not_lt.mp fun short => createMask_short short bits created, most⟩
    · next long =>
      have unchecked := right.1
      rw [subnetMask, createMask_long (not_le.mp long)] at unchecked
      cases unchecked
  · rintro ⟨least, most⟩
    have created := createMask_some least most
    unfold PrefixArithmetic
    rw [if_pos most]
    refine ⟨?_, ⟨_, subnetMask_eq created, rfl, countBytes_mask most⟩, networdAddress_eq created most,
      broadcastAddress_eq created most⟩
    rw [created]
    exact nofun

/-- The address 192.168.1.7 with the prefixes of no bit, of one bit and of 33 bits. -/
theorem prefixes_undefined :
    let platform : Platform := ⟨.littleEndian, 1000, by decide⟩
    let m_addr := IPv4Address.new platform 0xc0a80107 80
    broadcastAddress platform m_addr 0 = .error .shift ∧ networdAddress platform m_addr 0 = .error .shift ∧
      subnetMask platform 0 = .error .shift ∧ broadcastAddress platform m_addr 1 = .error .overflow ∧
      networdAddress platform m_addr 1 = .error .overflow ∧ subnetMask platform 1 = .error .overflow ∧
      broadcastAddress platform m_addr 33 = .ok none ∧ networdAddress platform m_addr 33 = .ok none ∧
      subnetMask platform 33 = .error .shift :=
  ⟨rfl, rfl, rfl, rfl, rfl, rfl, rfl, rfl, rfl⟩

end Sylar.IPv4Address
