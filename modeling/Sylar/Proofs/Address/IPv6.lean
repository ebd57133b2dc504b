import Sylar.Proofs.Address.Mask

/-! # Prefix arithmetic on IPv6 addresses

The bytes of a mask are ones in front of the byte where the prefix ends and zeros behind it. For a prefix of all the
128 bits that byte is the one behind the address.
-/

namespace Sylar.IPv6Address

variable {m_addr : SockaddrIn6} {prefix_len : BitVec 32} {a b : Vector Byte 16}

/-- The number of an address, whose first byte is the highest one. -/
def number (s6_addr : Vector Byte 16) : BitVec 128 := BitVec.ofNat 128 (Nat.valueLE s6_addr.toList.reverse)

/-- Mask, network and broadcast address are those of the prefix, for a prefix of up to 128 bits, with every other
member as it was. There are none for a longer one. -/
def PrefixArithmetic (m_addr : SockaddrIn6) (prefix_len : BitVec 32) : Prop :=
  let a := number m_addr.s6_addr
  let m := leadingOnes 128 prefix_len.toNat
  if prefix_len.toNat ≤ 128 then
    (∃ mask, subnetMask prefix_len = .ok (some mask) ∧ number mask.s6_addr = m) ∧
      (∃ network, networdAddress m_addr prefix_len = .ok (some { m_addr with s6_addr := network }) ∧
        number network = a &&& m) ∧
      ∃ broadcast, broadcastAddress m_addr prefix_len = .ok (some { m_addr with s6_addr := broadcast }) ∧
        number broadcast = a ||| ~~~m
  else
    subnetMask prefix_len = .ok none ∧ networdAddress m_addr prefix_len = .ok none ∧
      broadcastAddress m_addr prefix_len = .ok none

/-! ## Numbers and bytes -/

/-- The bits of an address run through its bytes. -/
theorem getMsbD_number (s6_addr : Vector Byte 16) {j k : ℕ} (byte : j < 16) (bit : k < 8) :
    (number s6_addr).getMsbD (8 * j + k) = s6_addr[j].getMsbD k := by
  have position : 128 - 1 - (8 * j + k) = 8 * (15 - j) + (7 - k) := by omega
  have high : (8 * (15 - j) + (7 - k)) / 8 = 15 - j := by omega
  have low : (8 * (15 - j) + (7 - k)) % 8 = 7 - k := by omega
  have mirrored : s6_addr.toList.reverse.getD (15 - j) 0 = s6_addr[j] := by
    have inside : 15 - j < s6_addr.toList.length := by
      rw [Vector.length_toList]
      omega
    have back : 16 - 1 - (15 - j) = j := by omega
    rw [List.getD_eq_getElem?_getD, List.getElem?_reverse inside, Vector.length_toList, back]
    simp [byte]
  rw [BitVec.getMsbD_eq_getLsbD, BitVec.getMsbD_eq_getLsbD, number, position, BitVec.getLsbD_ofNat, Nat.testBit_valueLE,
    high, low, mirrored, decide_eq_true (show 8 * j + k < 128 by omega), decide_eq_true bit,
    decide_eq_true (show 8 * (15 - j) + (7 - k) < 128 by omega)]
  rfl

/-- Two numbers agree if they do in every bit of every byte. -/
theorem number_ext {u v : BitVec 128} (same : ∀ j k, j < 16 → k < 8 → u.getMsbD (8 * j + k) = v.getMsbD (8 * j + k)) :
    u = v := by
  apply BitVec.eq_of_getMsbD_eq
  intro i inside
  have here := same (i / 8) (i % 8) (by omega) (Nat.mod_lt i (by decide))
  rwa [Nat.div_add_mod] at here

theorem number_and : number (.ofFn fun j => a[j] &&& b[j]) = number a &&& number b := by
  apply number_ext
  intro j k byte bit
  rw [getMsbD_number _ byte bit, BitVec.getMsbD_and, getMsbD_number _ byte bit, getMsbD_number _ byte bit,
    Vector.getElem_ofFn]
  exact BitVec.getMsbD_and

theorem number_or_not : number (.ofFn fun j => a[j] ||| ~~~b[j]) = number a ||| ~~~number b := by
  apply number_ext
  intro j k byte bit
  rw [getMsbD_number _ byte bit, BitVec.getMsbD_or, BitVec.getMsbD_not, getMsbD_number _ byte bit,
    getMsbD_number _ byte bit, Vector.getElem_ofFn, decide_eq_true (show 8 * j + k < 128 by omega)]
  simp [bit]

/-- The bytes of the mask. -/
def maskBytes (p : ℕ) : Vector Byte 16 :=
  .ofFn fun j => if j < p / 8 then 0xff else if j = p / 8 then leadingOnes 8 (p % 8) else 0

theorem number_maskBytes (p : ℕ) : number (maskBytes p) = leadingOnes 128 p := by
  apply number_ext
  intro j k byte bit
  rw [getMsbD_number _ byte bit, getMsbD_leadingOnes (by omega), maskBytes, Vector.getElem_ofFn]
  dsimp only
  rcases Nat.lt_trichotomy j (p / 8) with before | here | behind
  · have ones : (0xff : Byte) = BitVec.allOnes 8 := rfl
    rw [if_pos before, ones, BitVec.getMsbD_allOnes, decide_eq_true bit, decide_eq_true (by omega)]
  · rw [if_neg here.not_lt, if_pos here, getMsbD_leadingOnes bit]
    exact decide_eq_decide.mpr (by omega)
  · rw [if_neg behind.not_gt, if_neg behind.ne', decide_eq_false (by omega)]
    exact BitVec.getMsbD_zero

/-! ## The functions -/

theorem notByte_eq (mask : Byte) : notByte mask = ~~~mask := by
  apply BitVec.eq_of_getLsbD_eq
  intro i inside
  simp only [notByte, BitVec.getLsbD_setWidth, BitVec.getLsbD_not, inside, show i < 32 by omega, decide_true,
    Bool.true_and]

theorem s6Fill_eq {byte : Byte} {i bound : ℕ} (inside : bound ≤ 16) :
    s6Fill byte i bound a = .ok (.ofFn fun j => if i ≤ j ∧ j < bound then byte else a[j]) := by
  induction rest : bound - i generalizing i a with
  | zero =>
    rw [s6Fill, if_neg (by omega)]
    refine congrArg Except.ok (Vector.ext fun j byte => ?_)
    simp only [Vector.getElem_ofFn, Fin.getElem_fin]
    rw [if_neg (by omega)]
  | succ k ih =>
    have here : i < 16 := by omega
    rw [s6Fill, if_pos (by omega), s6Set, dif_pos here]
    refine (ih (by omega)).trans (congrArg Except.ok (Vector.ext fun j byte => ?_))
    simp only [Vector.getElem_ofFn, Fin.getElem_fin]
    rcases Nat.lt_trichotomy j i with before | rfl | behind
    · rw [if_neg (by omega), if_neg (by omega), Vector.getElem_set_ne _ _ (by omega)]
    · rw [if_neg (by omega), if_pos (by omega), Vector.getElem_set_self]
    · have same : i + 1 ≤ j ∧ j < bound ↔ i ≤ j ∧ j < bound := by omega
      simp only [same]
      rw [Vector.getElem_set_ne _ _ (by omega)]

theorem createMask_byte (prefix_len : BitVec 32) :
    createMask 8 (prefix_len % 8) = .ok (~~~leadingOnes 8 (prefix_len.toNat % 8)) := by
  have rest : (prefix_len % 8).toNat = prefix_len.toNat % 8 := BitVec.toNat_umod ..
  rw [createMask_eq (by decide) (by omega) (by omega), rest, leadingOnes, BitVec.not_not]

theorem toNat_div_eight (prefix_len : BitVec 32) : (prefix_len / 8).toNat = prefix_len.toNat / 8 :=
  BitVec.toNat_udiv ..

section Inside

variable (inside : prefix_len.toNat / 8 < 16)

include inside

theorem subnetMask_eq : subnetMask prefix_len = .ok (some ⟨AF_INET6, 0, 0, maskBytes prefix_len.toNat, 0⟩) := by
  rw [subnetMask, createMask_byte, toNat_div_eight]
  simp only [s6Set, dif_pos inside, bind, Except.bind, s6Fill_eq inside.le, notByte_eq, BitVec.not_not]
  refine congrArg (fun bytes => Except.ok (some (SockaddrIn6.mk AF_INET6 0 0 bytes 0))) (Vector.ext fun j byte => ?_)
  simp only [maskBytes, Vector.getElem_ofFn, Fin.getElem_fin]
  rcases Nat.lt_trichotomy j (prefix_len.toNat / 8) with before | rfl | behind
  · rw [if_pos ⟨Nat.zero_le _, before⟩, if_pos before]
  · rw [if_neg (by omega), if_neg (by omega), if_pos rfl, Vector.getElem_set_self]
  · rw [if_neg (by omega), if_neg (by omega), if_neg (by omega), Vector.getElem_set_ne _ _ (by omega),
      Vector.getElem_replicate]

theorem networdAddress_eq : networdAddress m_addr prefix_len = .ok (some { m_addr with
    s6_addr := .ofFn fun j => m_addr.s6_addr[j] &&& (maskBytes prefix_len.toNat)[j] }) := by
  rw [networdAddress, createMask_byte, toNat_div_eight]
  simp only [s6At, s6Set, dif_pos inside, bind, Except.bind, s6Fill_eq le_rfl, notByte_eq, BitVec.not_not]
  refine congrArg (fun s6_addr => Except.ok (some { m_addr with s6_addr })) (Vector.ext fun j byte => ?_)
  simp only [maskBytes, Vector.getElem_ofFn, Fin.getElem_fin]
  rcases Nat.lt_trichotomy j (prefix_len.toNat / 8) with before | rfl | behind
  · rw [if_neg (by omega), if_pos before, Vector.getElem_set_ne _ _ (by omega)]
    exact BitVec.and_allOnes.symm
  · rw [if_neg (by omega), if_neg (by omega), if_pos rfl, Vector.getElem_set_self]
  · rw [if_pos (by omega), if_neg (by omega), if_neg (by omega)]
    exact BitVec.and_zero.symm

theorem broadcastAddress_eq : broadcastAddress m_addr prefix_len = .ok (some { m_addr with
    s6_addr := .ofFn fun j => m_addr.s6_addr[j] ||| ~~~(maskBytes prefix_len.toNat)[j] }) := by
  rw [broadcastAddress, createMask_byte, toNat_div_eight]
  simp only [s6At, s6Set, dif_pos inside, bind, Except.bind, s6Fill_eq le_rfl]
  refine congrArg (fun s6_addr => Except.ok (some { m_addr with s6_addr })) (Vector.ext fun j byte => ?_)
  simp only [maskBytes, Vector.getElem_ofFn, Fin.getElem_fin]
  rcases Nat.lt_trichotomy j (prefix_len.toNat / 8) with before | rfl | behind
  · rw [if_neg (by omega), if_pos before, Vector.getElem_set_ne _ _ (by omega)]
    exact BitVec.or_zero.symm
  · rw [if_neg (by omega), if_neg (by omega), if_pos rfl, Vector.getElem_set_self]
  · rw [if_pos (by omega), if_neg (by omega), if_neg (by omega)]
    exact BitVec.or_allOnes.symm

end Inside

/-- With 128 bits or more the byte where the prefix ends is none of the address. -/
theorem outside (m_addr : SockaddrIn6) (long : 128 ≤ prefix_len.toNat) : subnetMask prefix_len = .error .outside ∧
    networdAddress m_addr prefix_len = .error .outside ∧ broadcastAddress m_addr prefix_len = .error .outside := by
  have behind : ¬prefix_len.toNat / 8 < 16 := by omega
  refine ⟨?_, ?_, ?_⟩
  · rw [subnetMask, createMask_byte, toNat_div_eight]
    simp only [s6Set, dif_neg behind]
    rfl
  · rw [networdAddress, toNat_div_eight, s6At, dif_neg behind]
    rfl
  · rw [broadcastAddress, toNat_div_eight, s6At, dif_neg behind]
    rfl

/-- Prefix arithmetic is right exactly for the prefixes of less than 128 bits. -/
theorem ipv6_prefix_iff (m_addr : SockaddrIn6) (prefix_len : BitVec 32) :
    PrefixArithmetic m_addr prefix_len ↔ prefix_len.toNat < 128 := by
  constructor
  · intro right
    by_contra long
    obtain ⟨undefined, -⟩ := outside m_addr (not_lt.mp long)
    unfold PrefixArithmetic at right
    rw [undefined] at right
    split at right
    · obtain ⟨mask, built, -⟩ := right.1
      cases built
    · cases right.1
  · intro short
    have inside : prefix_len.toNat / 8 < 16 := by omega
    unfold PrefixArithmetic
    rw [if_pos short.le]
    refine ⟨⟨_, subnetMask_eq inside, number_maskBytes _⟩, ⟨_, networdAddress_eq inside, ?_⟩,
      ⟨_, broadcastAddress_eq inside, ?_⟩⟩
    · rw [number_and, number_maskBytes]
    · rw [number_or_not, number_maskBytes]

/-- The prefix that is the whole address. -/
theorem whole_prefix_outside :
    let m_addr : SockaddrIn6 := ⟨AF_INET6, 0, 0, .replicate 16 1, 7⟩
    broadcastAddress m_addr 128 = .error .outside ∧ networdAddress m_addr 128 = .error .outside ∧
      subnetMask 128 = .error .outside ∧ subnetMask 200 = .error .outside :=
  ⟨rfl, rfl, rfl, rfl⟩

end Sylar.IPv6Address
