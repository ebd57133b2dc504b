import Sylar.Proofs.Config.LoadFromYaml

/-! # How the keys of a tree spell a name

`ListAllMember` puts a dot in front of every key but the first, and takes an empty name so far for the root.
That it looks at every prefix of a name comes to a look at the whole name, since the prefixes are parts of it.
-/

namespace Sylar.Config

open YAML (Node)

variable {pre : Text} {path keys : List Text}

/-! ## The letters of a name -/

/-- A lower-case letter, a digit, a dot or an underscore. -/
def nameChar (c : Char) : Bool := c.isLower || c.isDigit || c = '.' || c = '_'

/-- These are few, so that what is said of them can be looked at one by one. -/
theorem of_nameChar {P : Char → Bool} (all : ∀ n < 128, nameChar (Char.ofNat n) = true → P (Char.ofNat n) = true)
    {c : Char} (letter : nameChar c = true) : P c = true := by
  have small : c.toNat < 128 := by
    have letter : (decide ('a'.val ≤ c.val) && decide (c.val ≤ 'z'.val) || c.isDigit || c = '.' || c = '_') = true := letter
    simp only [Char.isDigit, Bool.or_eq_true, Bool.and_eq_true, decide_eq_true_eq] at letter
    rcases letter with ((⟨-, most⟩ | ⟨-, most⟩) | rfl) | rfl
    · exact lt_of_le_of_lt (UInt32.le_iff_toNat_le.mp most) (by decide)
    · exact lt_of_le_of_lt (UInt32.le_iff_toNat_le.mp most) (by decide)
    · decide
    · decide
  rw [← Char.ofNat_toNat c] at letter ⊢
  exact all c.toNat small letter

/-- The alphabet as it is written lacks one letter. -/
theorem alphabet_contains {c : Char} (letter : nameChar c = true) : alphabet.contains c = true ↔ c ≠ 'q' := by
  have same := of_nameChar (P := fun c => alphabet.contains c == (c ≠ 'q' : Bool)) (by decide) letter
  rw [eq_of_beq same, decide_eq_true_eq]

theorem tolower_of_nameChar {name : Text} (letters : ∀ c ∈ name, nameChar c = true) : tolower name = name := by
  apply tolower_eq
  intro c here
  exact eq_of_beq (of_nameChar (P := fun c => c.toLower == c) (by decide) (letters c here))

theorem isName_iff {name : Text} (letters : ∀ c ∈ name, nameChar c = true) : isName name = true ↔ 'q' ∉ name := by
  rw [isName, List.all_eq_true]
  constructor
  · intro named here
    exact (alphabet_contains (letters 'q' here)).mp (named 'q' here) rfl
  · intro without c here
    exact (alphabet_contains (letters c here)).mpr fun same => without (same ▸ here)

/-! ## The name of a path -/

/-- What the keys add behind a name. -/
def behind (keys : List Text) : Text := keys.flatMap fun key => '.' :: key

theorem intercalate_cons (key : Text) (keys : List Text) :
    ['.'].intercalate (key :: keys) = key ++ behind keys := by
  induction keys generalizing key with
  | nil => simp [behind]
  | cons next keys ih =>
    rw [List.intercalate_cons_cons, ih]
    simp [behind]

theorem joined_cons (pre key : Text) (keys : List Text) : joined pre (key :: keys) = joined (member pre key) keys :=
  rfl

theorem joined_of_ne_nil (present : pre ≠ []) (keys : List Text) : joined pre keys = pre ++ behind keys := by
  induction keys generalizing pre with
  | nil => exact (List.append_nil pre).symm
  | cons key keys ih =>
    rw [joined_cons, member, if_neg present, ih (List.append_ne_nil_of_left_ne_nil present _)]
    simp [behind]

/-- With a key in front that is not empty the keys are joined with dots. -/
theorem joined_root {key : Text} (present : key ≠ []) (keys : List Text) :
    joined [] (key :: keys) = ['.'].intercalate (key :: keys) := by
  rw [intercalate_cons, ← joined_of_ne_nil present]
  rfl

theorem length_joined_le (pre : Text) (keys : List Text) : (joined pre keys).length ≤ (pre ++ behind keys).length := by
  rcases eq_or_ne pre [] with rfl | present
  · induction keys with
    | nil => exact le_rfl
    | cons key keys ih =>
      rcases eq_or_ne key [] with rfl | present
      · refine ih.trans ?_
        simp [behind]
      · rw [joined_cons, member, if_pos rfl, joined_of_ne_nil present]
        simp [behind]
  · rw [joined_of_ne_nil present]

/-- At the root the first dot is missing. -/
theorem length_joined_root (present : keys ≠ []) : (joined [] keys).length < (behind keys).length := by
  obtain ⟨key, keys, rfl⟩ := List.exists_cons_of_ne_nil present
  refine (length_joined_le key keys).trans_lt ?_
  simp [behind]

/-- A part of a path that has a name as long as the keys joined with dots is all of the path, and its first key is
not empty. -/
theorem eq_of_length (part : path <+: keys) (present : joined [] path ≠ [])
    (long : (joined [] path).length = (['.'].intercalate keys).length) : path = keys ∧ keys.head? ≠ some [] := by
  obtain ⟨rest, rfl⟩ := part
  cases path with
  | nil => exact absurd rfl present
  | cons key path =>
    have whole : (['.'].intercalate (key :: path ++ rest)).length =
        key.length + ((behind path).length + (behind rest).length) := by
      rw [List.cons_append, intercalate_cons]
      simp [behind]
    rw [whole] at long
    rcases eq_or_ne key [] with rfl | front
    · have below : path ≠ [] := by
        rintro rfl
        exact present rfl
      have short : (joined [] ([] :: path)).length < (behind path).length := length_joined_root below
      rw [List.length_nil] at long
      omega
    · rw [joined_root front, intercalate_cons, List.length_append] at long
      have nothing : rest = [] := by
        cases rest with
        | nil => rfl
        | cons next rest =>
          simp [behind] at long
      subst nothing
      refine ⟨(List.append_nil _).symm, ?_⟩
      simpa using front

theorem isName_of_joined (keys : List Text) (named : isName (joined pre keys) = true) : isName pre = true := by
  induction keys generalizing pre with
  | nil => exact named
  | cons key keys ih =>
    have next : isName (member pre key) = true := ih named
    rw [member] at next
    split_ifs at next with empty
    · rw [empty]
      rfl
    · rw [isName, List.all_append, Bool.and_eq_true] at next
      exact next.1

/-- The looks at the prefixes find what one look at the whole name finds. -/
theorem isPath_eq (pre : Text) (keys : List Text) : isPath pre keys = isName (joined pre keys) := by
  induction keys generalizing pre with
  | nil => exact isPath_nil pre
  | cons key keys ih =>
    rw [isPath_cons, ih, joined_cons]
    cases named : isName (joined (member pre key) keys) with
    | false => exact Bool.and_false _
    | true => rw [isName_of_joined (key :: keys) named, Bool.and_true]

theorem mem_listAllMember {name : Text} {root node : Node} :
    (name, node) ∈ listAllMember [] root ↔
      isName name = true ∧ ∃ keys, (keys, node) ∈ preorder root ∧ joined [] keys = name := by
  simp only [listAllMember_eq, listed, isPath_eq, List.mem_map, List.mem_filter, Prod.exists, Prod.mk.injEq]
  constructor
  · rintro ⟨keys, node, ⟨here, named⟩, rfl, rfl⟩
    exact ⟨named, keys, here, rfl⟩
  · rintro ⟨named, keys, here, rfl⟩
    exact ⟨keys, node, ⟨here, named⟩, rfl, rfl⟩

/-! ## A tree with one path -/

def chain : List Text → Node → Node
  | [], leaf => leaf
  | key :: keys, leaf => .map [(key, chain keys leaf)]

theorem preorder_chain_cons (key : Text) (keys : List Text) (leaf : Node) :
    preorder (chain (key :: keys) leaf) = ([], chain (key :: keys) leaf) ::
      (preorder (chain keys leaf)).map fun path => (key :: path.1, path.2) := by
  rw [chain, preorder, preorderEntries, preorderEntries, List.append_nil]

theorem mem_chain (keys : List Text) (text : Text) :
    (keys, .scalar text) ∈ preorder (chain keys (.scalar text)) := by
  induction keys with
  | nil => exact List.mem_cons_self
  | cons key keys ih =>
    rw [preorder_chain_cons]
    exact List.mem_cons_of_mem _ (List.mem_map.mpr ⟨_, ih, rfl⟩)

theorem of_mem_chain {text : Text} {node : Node} (here : (path, node) ∈ preorder (chain keys (.scalar text))) :
    path <+: keys := by
  induction keys generalizing path node with
  | nil =>
    obtain ⟨rfl, -⟩ := Prod.mk.inj (List.mem_singleton.mp here)
    exact List.nil_prefix
  | cons key keys ih =>
    rw [preorder_chain_cons, List.mem_cons, List.mem_map] at here
    rcases here with same | ⟨below, here, same⟩
    · rw [(Prod.mk.inj same).1]
      exact List.nil_prefix
    · rw [← (Prod.mk.inj same).1]
      exact List.cons_prefix_cons.mpr ⟨rfl, ih here⟩

end Sylar.Config
