import Mathlib.Algebra.Group.Nat.Defs
import Mathlib.Data.Nat.Log
import Mathlib.InformationTheory.Coding.UniquelyDecodable

/-! # Base-128 groups with a continuation flag

A varint is a list of bytes, each with seven bits of the value and a flag that says whether another byte follows. Here
are the bytes that are one varint, their value, and the shortest varint of a number. No varint is a proper prefix of
another, so that concatenated varints can be told apart.
-/

namespace Leb128

variable {byte : BitVec 8} {d e rest l : List (BitVec 8)} {n : ℕ}

/-- The flag is set: another byte follows. -/
def Flagged (byte : BitVec 8) : Prop := 128 ≤ byte.toNat

instance : DecidablePred Flagged := fun byte => inferInstanceAs (Decidable (128 ≤ byte.toNat))

/-- The bytes are one varint: all but the last are flagged. -/
inductive Complete : List (BitVec 8) → Prop
  | last {byte : BitVec 8} : ¬ Flagged byte → Complete [byte]
  | more {byte : BitVec 8} {rest : List (BitVec 8)} : Flagged byte → Complete rest → Complete (byte :: rest)

/-- The number whose groups of seven bits are in the bytes, least significant first. -/
def value : List (BitVec 8) → ℕ
  | [] => 0
  | byte :: rest => byte.toNat % 128 + 128 * value rest

namespace Complete

theorem ne_nil (complete : Complete d) : d ≠ [] := by
  cases complete with
  | last _ => exact List.cons_ne_nil _ _
  | more _ _ => exact List.cons_ne_nil _ _

theorem not_all_flagged (complete : Complete d) : ¬ ∀ byte ∈ d, Flagged byte := by
  intro flagged
  induction complete with
  | last stop => exact stop (flagged _ List.mem_cons_self)
  | more _ _ ih =>
    apply ih
    intro byte member
    exact flagged byte (List.mem_cons_of_mem _ member)

/-- A varint that is a prefix of another is that other. -/
theorem eq_of_front (complete : Complete d) (complete' : Complete e) (front : d <+: e) : d = e := by
  induction complete generalizing e with
  | last stop =>
    cases complete' with
    | last _ => exact front.eq_of_length rfl
    | more go _ =>
      obtain ⟨rfl, _⟩ := List.cons_prefix_cons.mp front
      exact absurd go stop
  | more go _ ih =>
    cases complete' with
    | last stop =>
      obtain ⟨rfl, _⟩ := List.cons_prefix_cons.mp front
      exact absurd go stop
    | more _ complete' =>
      obtain ⟨rfl, behind⟩ := List.cons_prefix_cons.mp front
      rw [ih complete' behind]

/-- Two varints at the front of the same bytes are the same. -/
theorem eq_of_fronts (complete : Complete d) (complete' : Complete e) (front : d <+: l) (front' : e <+: l) :
    d = e := by
  rcases List.prefix_or_prefix_of_prefix front front' with shorter | longer
  · exact complete.eq_of_front complete' shorter
  · exact (complete'.eq_of_front complete longer).symm

end Complete

/-- Concatenated varints can be told apart. -/
theorem uniquelyDecodable : InformationTheory.UniquelyDecodable {d | Complete d} := by
  intro first second complete complete' same
  induction first generalizing second with
  | nil =>
    cases second with
    | nil => rfl
    | cons e others =>
      have empty := List.append_eq_nil_iff.mp (List.flatten_cons ▸ same.symm)
      exact absurd empty.1 (complete' e List.mem_cons_self).ne_nil
  | cons d rest ih =>
    cases second with
    | nil =>
      have empty := List.append_eq_nil_iff.mp (List.flatten_cons ▸ same)
      exact absurd empty.1 (complete d List.mem_cons_self).ne_nil
    | cons e others =>
      rw [List.flatten_cons, List.flatten_cons] at same
      have here : d = e := (complete d List.mem_cons_self).eq_of_fronts (complete' e List.mem_cons_self)
        (List.prefix_append d rest.flatten) (same ▸ List.prefix_append e others.flatten)
      subst here
      have behind := ih others (fun x member => complete x (List.mem_cons_of_mem _ member))
        (fun x member => complete' x (List.mem_cons_of_mem _ member)) (List.append_cancel_left same)
      rw [behind]

/-- Bytes that are not all flagged start with a varint. -/
theorem flagged_or_complete (l : List (BitVec 8)) : (∀ byte ∈ l, Flagged byte) ∨ ∃ d, d <+: l ∧ Complete d := by
  induction l with
  | nil => exact .inl (List.forall_mem_nil _)
  | cons byte rest ih =>
    rcases Nat.lt_or_ge byte.toNat 128 with stop | go
    · exact .inr ⟨[byte], ⟨rest, rfl⟩, .last (Nat.not_le.mpr stop)⟩
    · rcases ih with flagged | ⟨d, front, complete⟩
      · exact .inl (List.forall_mem_cons.mpr ⟨go, flagged⟩)
      · exact .inr ⟨byte :: d, List.cons_prefix_cons.mpr ⟨rfl, front⟩, .more go complete⟩

/-! ## The shortest varint of a number -/

/-- The groups of a number, up to the last one that is not zero. -/
def encode (n : ℕ) : List (BitVec 8) :=
  if n < 128 then [.ofNat 8 n] else .ofNat 8 (n % 128 + 128) :: encode (n / 128)
termination_by n
decreasing_by omega

theorem encode_of_lt (small : n < 128) : encode n = [.ofNat 8 n] := by rw [encode, if_pos small]

theorem encode_of_le (large : 128 ≤ n) : encode n = .ofNat 8 (n % 128 + 128) :: encode (n / 128) := by
  rw [encode, if_neg (by omega)]

/-- A number below 256 is the value of its byte. -/
theorem toNat_byte (small : n < 256) : (BitVec.ofNat 8 n).toNat = n := by
  rw [BitVec.toNat_ofNat]
  exact Nat.mod_eq_of_lt small

theorem complete_encode (n : ℕ) : Complete (encode n) := by
  induction n using Nat.strong_induction_on with
  | _ n ih =>
    rcases Nat.lt_or_ge n 128 with small | large
    · rw [encode_of_lt small]
      apply Complete.last
      rw [Flagged, toNat_byte (by omega)]
      omega
    · rw [encode_of_le large]
      apply Complete.more _ (ih (n / 128) (by omega))
      rw [Flagged, toNat_byte (by omega)]
      omega

theorem value_encode (n : ℕ) : value (encode n) = n := by
  induction n using Nat.strong_induction_on with
  | _ n ih =>
    rcases Nat.lt_or_ge n 128 with small | large
    · rw [encode_of_lt small, value, value, toNat_byte (by omega)]
      omega
    · rw [encode_of_le large, value, ih (n / 128) (by omega), toNat_byte (by omega)]
      omega

theorem length_encode (n : ℕ) : (encode n).length = Nat.log 128 n + 1 := by
  induction n using Nat.strong_induction_on with
  | _ n ih =>
    rcases Nat.lt_or_ge n 128 with small | large
    · rw [encode_of_lt small, Nat.log_of_lt small, List.length_singleton]
    · rw [encode_of_le large, List.length_cons, ih (n / 128) (by omega), Nat.log_of_one_lt_of_le (by decide) large]

/-- The shortest varint has the least positive number of groups that hold the number. -/
theorem length_encode_le_iff {k : ℕ} (positive : 1 ≤ k) : (encode n).length ≤ k ↔ n < 128 ^ k := by
  rw [length_encode, Nat.succ_le_iff]
  constructor
  · exact Nat.lt_pow_of_log_lt (by decide)
  · exact Nat.log_lt_of_lt_pow' (by omega)

end Leb128
