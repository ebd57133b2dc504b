import Mathlib.Data.List.Lex
import Mathlib.Data.Nat.Basic
import Mathlib.Order.Basic
import Sylar.Model.Address.Address
import Sylar.Proofs.ByteArray.Fixed

/-! # Addresses are totally ordered

An address has a key, the bytes of its structure up to its length. `operator<` is the lexicographic order of the keys
and `operator==` their equality.
-/

namespace Sylar

/-! ## Byte strings -/

private theorem firstDifference_take_min (s t : List Byte) :
    firstDifference (s.take (min s.length t.length)) (t.take (min s.length t.length)) = firstDifference s t := by
  induction s generalizing t with
  | nil => simp [firstDifference]
  | cons a s ih =>
    cases t with
    | nil => simp [firstDifference]
    | cons b t =>
      rw [List.length_cons, List.length_cons, Nat.succ_min_succ, List.take_succ_cons, List.take_succ_cons,
        firstDifference, firstDifference, ih]

/-- The first difference decides, and where there is none the longer string is the greater one. -/
theorem lt_iff_firstDifference (s t : List Byte) :
    s.map BitVec.toNat < t.map BitVec.toNat ↔
      firstDifference s t = .lt ∨ firstDifference s t = .eq ∧ s.length < t.length := by
  induction s generalizing t with
  | nil => cases t <;> simp [firstDifference]
  | cons a s ih =>
    cases t with
    | nil => simp [firstDifference]
    | cons b t =>
      rw [List.map_cons, List.map_cons, List.cons_lt_cons_iff, ih, firstDifference, List.length_cons,
        List.length_cons, Nat.succ_lt_succ_iff]
      rcases Nat.lt_trichotomy a.toNat b.toNat with less | same | greater
      · rw [if_pos (BitVec.lt_def.mpr less)]
        exact iff_of_true (.inl less) (.inl rfl)
      · obtain rfl := BitVec.eq_of_toNat_eq same
        rw [if_neg (BitVec.lt_irrefl a), if_neg (BitVec.lt_irrefl a)]
        simp
      · rw [if_neg (BitVec.not_lt.mpr (BitVec.le_of_lt (BitVec.lt_def.mpr greater))),
          if_pos (BitVec.lt_def.mpr greater)]
        refine iff_of_false ?_ (by simp)
        rintro (less | ⟨same, -⟩) <;> omega

/-- Two strings of the same length without a difference are equal. -/
theorem eq_iff_firstDifference {s t : List Byte} (length : s.length = t.length) :
    firstDifference s t = .eq ↔ s = t := by
  induction s generalizing t with
  | nil => simpa [firstDifference] using (List.length_eq_zero_iff.mp length.symm).symm
  | cons a s ih =>
    obtain ⟨b, t, rfl⟩ := List.exists_cons_of_length_eq_add_one length.symm
    rw [firstDifference]
    rcases Nat.lt_trichotomy a.toNat b.toNat with less | same | greater
    · rw [if_pos (BitVec.lt_def.mpr less)]
      refine iff_of_false nofun fun same => ?_
      rw [(List.cons.inj same).1] at less
      exact Nat.lt_irrefl _ less
    · obtain rfl := BitVec.eq_of_toNat_eq same
      rw [if_neg (BitVec.lt_irrefl a), if_neg (BitVec.lt_irrefl a), ih (Nat.succ.inj length), List.cons.injEq,
        and_iff_right rfl]
    · rw [if_neg (BitVec.not_lt.mpr (BitVec.le_of_lt (BitVec.lt_def.mpr greater))),
        if_pos (BitVec.lt_def.mpr greater)]
      refine iff_of_false nofun fun same => ?_
      rw [(List.cons.inj same).1] at greater
      exact Nat.lt_irrefl _ greater

namespace Address

variable {platform : Platform} {x y z : Address}

/-! ## The structures -/

/-- `sizeof(m_addr)`. -/
def size : Address → ℕ
  | .ipv4 _ => 16
  | .ipv6 _ => 28
  | .unix _ _ => 110
  | .unknown _ => 16

@[simp] theorem length_getAddr (x : Address) : (x.getAddr platform).length = x.size := by
  cases x <;> simp only [getAddr, SockaddrIn.memory, SockaddrIn6.memory, SockaddrUn.memory, Sockaddr.memory,
    List.length_append, Platform.length_toMemory, Vector.length_toList] <;> rfl

/-- The length of the address is at most that of its structure. Only `setAddrLen` can make it greater. -/
def Within (x : Address) : Prop := x.getAddrLen ≤ x.size

instance : Decidable x.Within := inferInstanceAs (Decidable (_ ≤ _))

theorem within_of_not_unix (other : ∀ m_addr m_length, x ≠ .unix m_addr m_length) : x.Within := by
  cases x with
  | unix m_addr m_length => exact absurd rfl (other m_addr m_length)
  | _ => exact le_rfl

theorem within_new : UnixAddress.new.Within := by decide

theorem within_ofPath {path : List Byte} (built : UnixAddress.ofPath path = some x) : x.Within := by
  unfold UnixAddress.ofPath at built
  extract_lets first m_length sun_path at built
  split at built
  · cases built
  · next fits =>
    obtain rfl := Option.some.inj built
    have bound : m_length.toNat ≤ 108 := not_lt.mp fits
    change (m_length + sunPathOffset).toNat ≤ 110
    rw [BitVec.toNat_add, Nat.mod_eq_of_lt]
    · exact Nat.add_le_add_right bound 2
    · exact lt_of_le_of_lt (Nat.add_le_add_right bound 2) (by decide)

theorem within_setAddrLen {v : BitVec 32} (within : x.Within) (fits : v.toNat ≤ 110) : (x.setAddrLen v).Within := by
  cases x with
  | unix => exact fits
  | _ => exact within

/-! ## Keys -/

/-- The bytes of the address. -/
def bytes (platform : Platform) (x : Address) : List Byte := (x.getAddr platform).take x.getAddrLen

/-- The bytes as numbers, in their lexicographic order. -/
def key (platform : Platform) (x : Address) : List ℕ := (x.bytes platform).map BitVec.toNat

theorem length_bytes (within : x.Within) : (x.bytes platform).length = x.getAddrLen := by
  rw [bytes, List.length_take, length_getAddr]
  exact min_eq_left within

theorem key_inj : x.key platform = y.key platform ↔ x.bytes platform = y.bytes platform :=
  (List.map_injective_iff.mpr fun _ _ => BitVec.eq_of_toNat_eq).eq_iff

theorem memcmp_bytes {n : ℕ} (inx : x.Within) (iny : y.Within) (left : n ≤ x.getAddrLen) (right : n ≤ y.getAddrLen) :
    memcmp (x.getAddr platform) (y.getAddr platform) n =
      some (firstDifference ((x.bytes platform).take n) ((y.bytes platform).take n)) := by
  have inside : n ≤ (x.getAddr platform).length ∧ n ≤ (y.getAddr platform).length := by
    rw [length_getAddr, length_getAddr]
    exact ⟨left.trans inx, right.trans iny⟩
  rw [memcmp, if_pos inside, bytes, bytes, List.take_take, List.take_take, min_eq_left left, min_eq_left right]

theorem lt_eq (inx : x.Within) (iny : y.Within) :
    lt platform x y = some (decide (x.key platform < y.key platform)) := by
  have difference := firstDifference_take_min (x.bytes platform) (y.bytes platform)
  rw [length_bytes inx, length_bytes iny] at difference
  have order := lt_iff_firstDifference (x.bytes platform) (y.bytes platform)
  rw [length_bytes inx, length_bytes iny] at order
  rw [lt, memcmp_bytes inx iny (min_le_left _ _) (min_le_right _ _), difference]
  simp only [key, order]
  cases firstDifference (x.bytes platform) (y.bytes platform) <;> simp

theorem eq_eq (inx : x.Within) (iny : y.Within) :
    eq platform x y = some (decide (x.key platform = y.key platform)) := by
  unfold eq
  split
  · next same =>
    have length : (x.bytes platform).length = (y.bytes platform).length := by
      rw [length_bytes inx, length_bytes iny, same]
    have whole : (y.bytes platform).take x.getAddrLen = y.bytes platform := by
      apply List.take_of_length_le
      rw [← length, length_bytes inx]
    rw [memcmp_bytes inx iny le_rfl same.le, whole, List.take_of_length_le (length_bytes inx).le]
    simp only [key_inj, Option.bind_eq_bind, Option.bind_some, eq_iff_firstDifference length]
    rfl
  · next different =>
    have unequal : x.key platform ≠ y.key platform := by
      intro same
      apply different
      exact (length_bytes inx).symm.trans ((congrArg List.length (key_inj.mp same)).trans (length_bytes iny))
    simp [unequal]

/-- Of addresses within their structures `operator<` is a strict order, and of `x < y`, `y < x` and `x == y` exactly
one holds. -/
theorem comparison_total (platform : Platform) (inx : x.Within) (iny : y.Within) (inz : z.Within) :
    lt platform x x = some false ∧
      (lt platform x y = some true → lt platform y z = some true → lt platform x z = some true) ∧
      ((lt platform x y, lt platform y x, eq platform x y) = (some true, some false, some false) ∨
        (lt platform x y, lt platform y x, eq platform x y) = (some false, some true, some false) ∨
        (lt platform x y, lt platform y x, eq platform x y) = (some false, some false, some true)) := by
  rw [lt_eq inx inx, lt_eq inx iny, lt_eq iny inz, lt_eq inx inz, lt_eq iny inx, eq_eq inx iny]
  refine ⟨by simp, ?_, ?_⟩
  · simp only [Option.some.injEq, decide_eq_true_eq]
    exact lt_trans
  · rcases lt_trichotomy (x.key platform) (y.key platform) with less | same | greater
    · left
      simp [less, less.ne, less.asymm]
    · right; right
      simp [same]
    · right; left
      simp [greater, greater.ne', greater.asymm]

/-- An empty path in front of a longer one, and an address of another family behind both. -/
theorem comparison_total_paths :
    let platform : Platform := ⟨.littleEndian, 1000, by decide⟩
    let path : Address := .unix ⟨AF_UNIX, .replicate 108 0⟩ 3
    let other : Address := .ipv4 ⟨AF_INET, 80, 1, .replicate 8 0⟩
    lt platform path path = some false ∧ lt platform path other = some true :=
  have order := comparison_total ⟨.littleEndian, 1000, by decide⟩
    (x := .unix ⟨AF_UNIX, .replicate 108 0⟩ 3) (y := UnixAddress.new)
    (z := .ipv4 ⟨AF_INET, 80, 1, .replicate 8 0⟩) (by decide) (by decide) (by decide)
  ⟨order.1, order.2.1 (by decide +kernel) (by decide +kernel)⟩

end Address

end Sylar
