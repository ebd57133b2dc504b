import Mathlib.Data.Nat.Basic
import Mathlib.Tactic.IntervalCases

/-! # Groups of hexadecimal digits between colons

The text form of a 128-bit address: eight groups of one to four digits with single colons between them, or fewer with
one `::` that stands for the zero groups missing there.
-/

namespace ColonHex

variable {c : Char} {text front back : List Char} {l : List ℕ} {n : ℕ}

/-! ## The form -/

def hexDigit (c : Char) : Option ℕ :=
  if '0' ≤ c ∧ c ≤ '9' then some (c.toNat - '0'.toNat)
  else if 'a' ≤ c ∧ c ≤ 'f' then some (c.toNat - 'a'.toNat + 10)
  else if 'A' ≤ c ∧ c ≤ 'F' then some (c.toNat - 'A'.toNat + 10)
  else none

/-- The number that digits stand for, behind others that stand for `n`. -/
def digitsValue (n : ℕ) (text : List Char) : Option ℕ := text.foldlM (fun n c => (hexDigit c).map (16 * n + ·)) n

/-- A group has at least one digit and at most four. -/
def groupValue (text : List Char) : Option ℕ := if 1 ≤ text.length ∧ text.length ≤ 4 then digitsValue 0 text else none

/-- The groups between single colons, on one side of `::`. -/
def groups (text : List Char) : Option (List ℕ) :=
  if text = [] then some [] else (text.splitOn ':').mapM groupValue

/-- The text in front of the first `::`, and that behind it. -/
def cut : List Char → Option (List Char × List Char)
  | [] => none
  | c :: text =>
      if c = ':' ∧ text.head? = some ':' then some ([], text.tail)
      else (cut text).map fun parts => (c :: parts.1, parts.2)

/-- The eight groups of an address. -/
def address (text : List Char) : Option (List ℕ) :=
  match cut text with
  | none => do
      let whole ← (text.splitOn ':').mapM groupValue
      if whole.length = 8 then some whole else none
  | some (before, behind) => do
      let front ← groups before
      let back ← groups behind
      if front.length + back.length < 8 then
        some (front ++ List.replicate (8 - (front.length + back.length)) 0 ++ back)
      else none

/-- The places where a colon follows a colon. -/
def doubleColons : List Char → ℕ
  | [] => 0
  | c :: text => (if c = ':' ∧ text.head? = some ':' then 1 else 0) + doubleColons text

/-! ## Writing groups -/

def hex (n : ℕ) : List Char := Nat.toDigits 16 n

def join (l : List ℕ) : List Char := [':'].intercalate (l.map hex)

@[simp] theorem join_nil : join [] = [] := rfl

@[simp] theorem join_singleton (n : ℕ) : join [n] = hex n := List.intercalate_singleton

theorem join_cons_cons (n m : ℕ) (l : List ℕ) : join (n :: m :: l) = hex n ++ ':' :: join (m :: l) := by
  rw [join, List.map_cons, List.map_cons, List.intercalate_cons_cons, join, List.map_cons, List.append_assoc]
  rfl

theorem join_concat (l : List ℕ) (n : ℕ) : join (l ++ [n]) = if l = [] then hex n else join l ++ ':' :: hex n := by
  induction l with
  | nil => simp
  | cons m l ih =>
    cases l with
    | nil => simp [join_cons_cons]
    | cons k l =>
      rw [List.cons_append, List.cons_append, join_cons_cons, join_cons_cons, ← List.cons_append, ih]
      simp

theorem hexDigit_digitChar (small : n < 16) : hexDigit n.digitChar = some n := by
  interval_cases n <;> rfl

/-- The digits of a number are its value in front of the last digit, and the last digit. -/
theorem hex_induction {motive : ℕ → Prop} (digit : ∀ n < 16, motive n) (more : ∀ n, 16 ≤ n → motive (n / 16) → motive n)
    (n : ℕ) : motive n := by
  induction n using Nat.strong_induction_on with
  | h n ih =>
    by_cases small : n < 16
    · exact digit n small
    · exact more n (Nat.not_lt.mp small) (ih (n / 16) (by omega))

theorem digitsValue_hex (n : ℕ) : digitsValue 0 (hex n) = some n := by
  induction n using hex_induction with
  | digit n small =>
    rw [hex, Nat.toDigits_of_lt_base small, digitsValue, List.foldlM_cons, hexDigit_digitChar small]
    simp
  | more n large ih =>
    have last : n % 16 < 16 := Nat.mod_lt n (by decide)
    rw [digitsValue, hex] at ih
    rw [hex, Nat.toDigits_of_base_le (by decide) large, digitsValue, List.foldlM_append, ih, Option.bind_eq_bind,
      Option.bind_some, List.foldlM_cons, hexDigit_digitChar last]
    simp [Nat.div_add_mod]

theorem hexDigit_of_mem_hex (member : c ∈ hex n) : ∃ digit, hexDigit c = some digit := by
  induction n using hex_induction with
  | digit n small =>
    rw [hex, Nat.toDigits_of_lt_base small, List.mem_singleton] at member
    exact ⟨n, member ▸ hexDigit_digitChar small⟩
  | more n large ih =>
    rw [hex, Nat.toDigits_of_base_le (by decide) large, List.mem_append, List.mem_singleton] at member
    rcases member with member | rfl
    · exact ih member
    · exact ⟨_, hexDigit_digitChar (Nat.mod_lt n (by decide))⟩

theorem colon_notMem_hex (n : ℕ) : ':' ∉ hex n := by
  intro member
  obtain ⟨digit, value⟩ := hexDigit_of_mem_hex member
  exact nomatch value

theorem groupValue_hex (bound : n < 2 ^ 16) : groupValue (hex n) = some n := by
  have short : (hex n).length ≤ 4 := (Nat.length_toDigits_le_iff (by decide) (by decide)).mpr bound
  rw [groupValue, if_pos ⟨Nat.length_toDigits_pos, short⟩, digitsValue_hex]

/-! ## Reading what has been written -/

theorem mapM_groupValue_hex (bounds : ∀ n ∈ l, n < 2 ^ 16) : (l.map hex).mapM groupValue = some l := by
  induction l with
  | nil => rfl
  | cons n l ih =>
    obtain ⟨bound, bounds⟩ := List.forall_mem_cons.mp bounds
    rw [List.map_cons, List.mapM_cons, groupValue_hex bound, ih bounds]
    rfl

theorem splitOn_join (nonempty : l ≠ []) : (join l).splitOn ':' = l.map hex := by
  apply List.splitOn_intercalate
  · intro text member
    obtain ⟨n, -, rfl⟩ := List.mem_map.mp member
    exact colon_notMem_hex n
  · exact List.map_eq_nil_iff.not.mpr nonempty

theorem join_eq_nil : join l = [] ↔ l = [] := by
  cases l with
  | nil => exact iff_of_true rfl rfl
  | cons n l =>
    refine iff_of_false (fun empty => ?_) nofun
    have digits : hex n ≠ [] := Nat.toDigits_ne_nil
    cases l with
    | nil => exact digits (by simpa using empty)
    | cons m l =>
      rw [join_cons_cons] at empty
      exact digits (List.append_eq_nil_iff.mp empty).1

theorem groups_join (bounds : ∀ n ∈ l, n < 2 ^ 16) : groups (join l) = some l := by
  by_cases nonempty : l = []
  · subst nonempty
    rfl
  · rw [groups, if_neg (join_eq_nil.not.mpr nonempty), splitOn_join nonempty, mapM_groupValue_hex bounds]

/-- Written groups do not start with a colon. -/
theorem head?_join_append (l : List ℕ) (text : List Char) (nonempty : l ≠ []) : (join l ++ text).head? ≠ some ':' := by
  obtain ⟨n, l, rfl⟩ := List.exists_cons_of_ne_nil nonempty
  have digits : hex n ≠ [] := Nat.toDigits_ne_nil
  obtain ⟨c, rest, shape⟩ := List.exists_cons_of_ne_nil digits
  have other : c ≠ ':' := by
    rintro rfl
    exact colon_notMem_hex n (shape ▸ List.mem_cons_self)
  cases l with
  | nil => simpa [shape] using other
  | cons m l => simpa [join_cons_cons, shape] using other

theorem cut_append (absent : ':' ∉ front) : cut (front ++ text) = (cut text).map fun parts => (front ++ parts.1, parts.2) := by
  induction front with
  | nil => simp
  | cons c front ih =>
    obtain ⟨other, absent⟩ := not_or.mp (List.mem_cons.not.mp absent)
    rw [List.cons_append, cut, if_neg (fun both => other both.1.symm), ih absent, Option.map_map]
    rfl

theorem doubleColons_append (absent : ':' ∉ front) : doubleColons (front ++ text) = doubleColons text := by
  induction front with
  | nil => rfl
  | cons c front ih =>
    obtain ⟨other, absent⟩ := not_or.mp (List.mem_cons.not.mp absent)
    rw [List.cons_append, doubleColons, if_neg (fun both => other both.1.symm), ih absent, Nat.zero_add]

/-- Written groups hold no `::`, so that the first one is the one behind them. -/
theorem cut_join_append (l : List ℕ) (text : List Char) :
    cut (join l ++ text) = (cut text).map fun parts => (join l ++ parts.1, parts.2) := by
  induction l with
  | nil => simp
  | cons n l ih =>
    cases l with
    | nil => simpa using cut_append (colon_notMem_hex n)
    | cons m l =>
      have single : ¬(':' = ':' ∧ (join (m :: l) ++ text).head? = some ':') :=
        fun both => head?_join_append (m :: l) text nofun both.2
      rw [join_cons_cons, List.append_assoc, cut_append (colon_notMem_hex n), List.cons_append, cut, if_neg single, ih,
        Option.map_map, Option.map_map]
      simp [Function.comp_def]

theorem doubleColons_join_append (l : List ℕ) (text : List Char) :
    doubleColons (join l ++ text) = doubleColons text := by
  induction l with
  | nil => rfl
  | cons n l ih =>
    cases l with
    | nil => simpa using doubleColons_append (colon_notMem_hex n)
    | cons m l =>
      have single : ¬(':' = ':' ∧ (join (m :: l) ++ text).head? = some ':') :=
        fun both => head?_join_append (m :: l) text nofun both.2
      rw [join_cons_cons, List.append_assoc, doubleColons_append (colon_notMem_hex n), List.cons_append, doubleColons,
        if_neg single, ih, Nat.zero_add]

theorem notMem_join (noColon : c ≠ ':') (noDigit : hexDigit c = none) (l : List ℕ) : c ∉ join l := by
  have absent (n : ℕ) : c ∉ hex n := by
    intro member
    obtain ⟨digit, value⟩ := hexDigit_of_mem_hex member
    exact nomatch noDigit.symm.trans value
  induction l with
  | nil => exact List.not_mem_nil
  | cons n l ih =>
    cases l with
    | nil => exact (join_singleton n).symm ▸ absent n
    | cons m l =>
      rw [join_cons_cons, List.mem_append, List.mem_cons]
      exact not_or.mpr ⟨absent n, not_or.mpr ⟨noColon, ih⟩⟩

/-! ## Whole addresses -/

theorem address_join (length : l.length = 8) (bounds : ∀ n ∈ l, n < 2 ^ 16) : address (join l) = some l := by
  have uncut := cut_join_append l []
  rw [List.append_nil] at uncut
  have nonempty : l ≠ [] := by
    rintro rfl
    cases length
  rw [address, uncut, splitOn_join nonempty, mapM_groupValue_hex bounds]
  simp [cut, length]

theorem doubleColons_join (l : List ℕ) : doubleColons (join l) = 0 := by
  have counted := doubleColons_join_append l []
  rwa [List.append_nil] at counted

variable {front back : List ℕ}

theorem address_compressed (length : front.length + back.length < 8) (bounds : ∀ n ∈ front, n < 2 ^ 16)
    (bounds' : ∀ n ∈ back, n < 2 ^ 16) : address (join front ++ ':' :: ':' :: join back) =
      some (front ++ List.replicate (8 - (front.length + back.length)) 0 ++ back) := by
  have here : cut (':' :: ':' :: join back) = some ([], join back) := rfl
  rw [address, cut_join_append, here, Option.map_some, List.append_nil]
  simp [groups_join bounds, groups_join bounds', length]

theorem doubleColons_compressed (front back : List ℕ) : doubleColons (join front ++ ':' :: ':' :: join back) = 1 := by
  have behind : (join back).head? ≠ some ':' := by
    by_cases nonempty : back = []
    · subst nonempty
      exact nofun
    · have first := head?_join_append back [] nonempty
      rwa [List.append_nil] at first
  rw [doubleColons_join_append, doubleColons, doubleColons, doubleColons_join, if_pos ⟨rfl, rfl⟩,
    if_neg (fun both => behind both.2)]

end ColonHex
