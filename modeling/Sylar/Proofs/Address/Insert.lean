import Sylar.Model.Address.Insert
import Sylar.Proofs.Address.Mask
import Sylar.ToMathlib.ColonHex
import Sylar.ToMathlib.Separator

/-! # The text of an IPv6 address is faithful

The loop writes the groups in front of the first zeros, `::` for those zeros once it has got past them, and all the
groups behind.
-/

namespace Sylar

open ColonHex

variable {platform : Platform}

/-! ## Groups -/

namespace Platform

theorem byteswapOnLittleEndian_ofMemory {n : ℕ} {memory : List Byte} (length : memory.length = n) :
    platform.byteswapOnLittleEndian n (platform.ofMemory n memory) = .ofNat _ (Nat.valueLE memory.reverse) := by
  unfold byteswapOnLittleEndian ofMemory
  cases platform.byteOrder with
  | littleEndian => exact congrArg (fun bytes => BitVec.ofNat _ (Nat.valueLE (List.reverse bytes))) (bytesLE_ofNat_valueLE length)
  | bigEndian => rfl

theorem byteswapOnLittleEndian_eq_zero {v : BitVec 16} :
    (platform.byteswapOnLittleEndian 2 v).toNat = 0 ↔ v = 0 := by
  have zero : platform.byteswapOnLittleEndian 2 0 = 0 := by
    unfold byteswapOnLittleEndian
    cases platform.byteOrder <;> rfl
  constructor
  · intro swapped
    have back := platform.byteswapOnLittleEndian_twice (n := 2) v
    rw [BitVec.eq_of_toNat_eq (swapped.trans BitVec.toNat_zero.symm)] at back
    exact back.symm.trans zero
  · rintro rfl
    rw [zero]
    rfl

end Platform

namespace IPv6Address

variable {addr : ℕ → BitVec 16} {i : ℕ} {s : Text × Bool}

/-- The groups in front of index `i`, as numbers. -/
def groupsTo (platform : Platform) (addr : ℕ → BitVec 16) (i : ℕ) : List ℕ :=
  (List.range i).map fun k => (platform.byteswapOnLittleEndian 2 (addr k)).toNat

theorem groupsTo_succ (addr : ℕ → BitVec 16) (i : ℕ) : groupsTo platform addr (i + 1) =
    groupsTo platform addr i ++ [(platform.byteswapOnLittleEndian 2 (addr i)).toNat] := by
  rw [groupsTo, List.range_succ, List.map_append]
  rfl

@[simp] theorem length_groupsTo : (groupsTo platform addr i).length = i := by
  rw [groupsTo, List.length_map, List.length_range]

theorem groupsTo_lt : ∀ n ∈ groupsTo platform addr i, n < 2 ^ 16 := by
  intro n member
  obtain ⟨k, -, rfl⟩ := List.mem_map.mp member
  exact BitVec.isLt _

/-- The group that a round looks back at. -/
theorem looksBack {front : List ℕ} {last : ℕ} (shape : groupsTo platform addr i = front ++ [last]) :
    i ≠ 0 ∧ (addr (i - 1) = 0 ↔ last = 0) := by
  obtain ⟨k, rfl⟩ : ∃ k, i = k + 1 := by
    apply Nat.exists_eq_succ_of_ne_zero
    rintro rfl
    simp [groupsTo] at shape
  rw [groupsTo_succ] at shape
  obtain ⟨-, same⟩ := List.append_inj' shape rfl
  rw [Nat.add_sub_cancel, ← platform.byteswapOnLittleEndian_eq_zero, (List.cons.inj same).1]
  exact ⟨Nat.succ_ne_zero k, Iff.rfl⟩

/-- Behind groups none of which is zero it finds no zero. -/
theorem looksBack_nonzero (nonzero : 0 ∉ groupsTo platform addr i) (here : i ≠ 0) : addr (i - 1) ≠ 0 := by
  have nonempty : groupsTo platform addr i ≠ [] := by
    intro empty
    apply here
    have length : (groupsTo platform addr i).length = i := length_groupsTo
    rw [← length, empty, List.length_nil]
  have shape := List.dropLast_append_getLast nonempty
  intro zero
  have last := (looksBack shape.symm).2.mp zero
  exact nonzero (last ▸ List.getLast_mem nonempty)

/-! ## The loop -/

/-- What has been written for some groups. -/
inductive Printed : List ℕ → Text × Bool → Prop
  | front (front : List ℕ) (nonzero : 0 ∉ front) (zeros : ℕ) :
      Printed (front ++ List.replicate zeros 0) (join front, false)
  | back (front : List ℕ) (zeros first : ℕ) (back : List ℕ) :
      Printed (front ++ List.replicate (zeros + 1) 0 ++ first :: back) (join front ++ ':' :: ':' :: join (first :: back), true)

theorem insertRound_zero (zero : addr i = 0) (text : Text) :
    insertRound platform addr (text, false) i = (text, false) := by
  rw [insertRound, if_pos ⟨zero, rfl⟩]

/-- The first group behind zeros. -/
theorem insertRound_behind (here : i ≠ 0) (nonzero : addr i ≠ 0) (zero : addr (i - 1) = 0) (text : Text) :
    insertRound platform addr (text, false) i =
      (text ++ ':' :: ':' :: hex (platform.byteswapOnLittleEndian 2 (addr i)).toNat, true) := by
  have goes : ¬(addr i = 0 ∧ (!false) = true) := fun both => nonzero both.1
  rw [insertRound, if_neg goes, if_pos ⟨here, zero, rfl⟩]
  simp [here, hex]

/-- Any other group that is written. -/
theorem insertRound_next {used : Bool} (written : addr i ≠ 0 ∨ used = true)
    (single : i ≠ 0 → addr (i - 1) = 0 → used = true) (text : Text) :
    insertRound platform addr (text, used) i =
      ((if i = 0 then text else text ++ [':']) ++ hex (platform.byteswapOnLittleEndian 2 (addr i)).toNat, used) := by
  have goes : ¬(addr i = 0 ∧ (!used) = true) := by
    rintro ⟨zero, unused⟩
    exact written.elim (fun nonzero => nonzero zero) fun used => by simp [used] at unused
  have joined : ¬(i ≠ 0 ∧ addr (i - 1) = 0 ∧ (!used) = true) := by
    rintro ⟨here, zero, unused⟩
    simp [single here zero] at unused
  rw [insertRound, if_neg goes, if_neg joined]
  by_cases start : i = 0 <;> simp [start, hex]

theorem Printed.round (printed : Printed (groupsTo platform addr i) s) :
    Printed (groupsTo platform addr (i + 1)) (insertRound platform addr s i) := by
  rw [groupsTo_succ]
  generalize groups : groupsTo platform addr i = before at printed
  have length : before.length = i := by rw [← groups, length_groupsTo]
  cases printed with
  | front front nonzero zeros =>
    by_cases zero : addr i = 0
    · rw [insertRound_zero zero, platform.byteswapOnLittleEndian_eq_zero.mpr zero, List.append_assoc,
        ← List.replicate_succ']
      exact .front front nonzero (zeros + 1)
    have group := platform.byteswapOnLittleEndian_eq_zero.not.mpr zero
    cases zeros with
    | zero =>
      rw [List.replicate_zero, List.append_nil] at groups length ⊢
      have single : i ≠ 0 → addr (i - 1) = 0 → false = true := by
        intro here last
        exact absurd last (looksBack_nonzero (groups ▸ nonzero) here)
      have absent : 0 ∉ front ++ [(platform.byteswapOnLittleEndian 2 (addr i)).toNat] := by
        intro member
        rcases List.mem_append.mp member with member | member
        · exact nonzero member
        · exact group (List.mem_singleton.mp member).symm
      have next := Printed.front _ absent 0
      rw [List.replicate_zero, List.append_nil, join_concat] at next
      rw [insertRound_next (.inl zero) single]
      convert next using 2
      by_cases empty : front = []
      · subst empty
        simp [← length]
      · have here : i ≠ 0 := by
          rw [← length]
          exact List.length_eq_zero_iff.not.mpr empty
        simp [empty, here]
    | succ zeros =>
      rw [List.replicate_succ', ← List.append_assoc] at groups
      obtain ⟨here, last⟩ := looksBack groups
      rw [insertRound_behind here zero (last.mpr rfl)]
      have next := Printed.back front zeros (platform.byteswapOnLittleEndian 2 (addr i)).toNat []
      rwa [join_singleton] at next
  | back front zeros first back =>
    have here : i ≠ 0 := by
      rw [← length]
      simp
    rw [insertRound_next (.inr rfl) (fun _ _ => rfl), if_neg here]
    have next := Printed.back front zeros first (back ++ [(platform.byteswapOnLittleEndian 2 (addr i)).toNat])
    rw [← List.cons_append, join_concat, if_neg (List.cons_ne_nil _ _)] at next
    simpa using next

theorem printed_foldl (platform : Platform) (addr : ℕ → BitVec 16) (i : ℕ) :
    Printed (groupsTo platform addr i) ((List.range i).foldl (insertRound platform addr) ([], false)) := by
  induction i with
  | zero => exact .front [] nofun 0
  | succ i ih =>
    rw [List.range_succ, List.foldl_append]
    exact ih.round

/-- The text that stands for eight groups. -/
inductive Written : List ℕ → Text → Prop
  | whole (groups : List ℕ) : Written groups (join groups)
  | compressed (front : List ℕ) (zeros : ℕ) (back : List ℕ) :
      Written (front ++ List.replicate (zeros + 1) 0 ++ back) (join front ++ ':' :: ':' :: join back)

theorem written_insertGroups (s6_addr : Vector Byte 16) :
    Written (groupsTo platform (addrAt platform s6_addr) 8) (insertGroups platform s6_addr) := by
  have printed := printed_foldl platform (addrAt platform s6_addr) 8
  rw [insertGroups]
  generalize groups : groupsTo platform (addrAt platform s6_addr) 8 = before at printed
  generalize (List.range 8).foldl (insertRound platform (addrAt platform s6_addr)) ([], false) = s at printed
  cases printed with
  | front front nonzero zeros =>
    cases zeros with
    | zero =>
      rw [List.replicate_zero, List.append_nil] at groups ⊢
      have last : addrAt platform s6_addr 7 ≠ 0 := looksBack_nonzero (groups ▸ nonzero) (by decide)
      dsimp only
      rw [if_neg (fun both => last both.2)]
      exact .whole front
    | succ zeros =>
      have shape := groups
      rw [List.replicate_succ', ← List.append_assoc] at shape
      have last : addrAt platform s6_addr 7 = 0 := (looksBack shape).2.mpr rfl
      have written := Written.compressed front zeros []
      rw [List.append_nil] at written
      dsimp only
      rw [if_pos ⟨rfl, last⟩]
      exact written
  | back front zeros first back => simpa using Written.compressed front zeros (first :: back)

/-! ## Reading the text -/

/-- The two bytes of a group. -/
def groupBytes (n : ℕ) : List Byte := (Nat.bytesLE 2 n).reverse

theorem flatMap_pairs {α : Type*} (l : List α) (n : ℕ) (fits : 2 * n ≤ l.length) :
    (List.range n).flatMap (fun k => (l.drop (2 * k)).take 2) = l.take (2 * n) := by
  induction n with
  | zero => rfl
  | succ n ih =>
    rw [List.range_succ, List.flatMap_append, ih (by omega), List.flatMap_singleton, Nat.mul_succ, List.take_add]

theorem groupBytes_ofMemory {memory : List Byte} (length : memory.length = 2) :
    groupBytes (platform.byteswapOnLittleEndian 2 (platform.ofMemory 2 memory)).toNat = memory := by
  have reversed : memory.reverse.length = 2 := by rw [List.length_reverse, length]
  have value := bytesLE_ofNat_valueLE reversed
  rw [groupBytes, platform.byteswapOnLittleEndian_ofMemory length]
  exact (congrArg List.reverse value).trans (List.reverse_reverse memory)

theorem flatMap_groupBytes (s6_addr : Vector Byte 16) :
    (groupsTo platform (addrAt platform s6_addr) 8).flatMap groupBytes = s6_addr.toList := by
  have pair (k : ℕ) (member : k ∈ List.range 8) :
      groupBytes (platform.byteswapOnLittleEndian 2 (addrAt platform s6_addr k)).toNat =
        (s6_addr.toList.drop (2 * k)).take 2 := by
    apply groupBytes_ofMemory
    have := List.mem_range.mp member
    rw [List.length_take, List.length_drop, Vector.length_toList]
    omega
  rw [groupsTo, List.flatMap_map, List.flatMap_congr pair, flatMap_pairs _ _ (by rw [Vector.length_toList])]
  exact List.take_of_length_le (by rw [Vector.length_toList])

/-- A text that stands for eight groups has `::` at most once, and is read as these groups. -/
theorem Written.faithful {groups : List ℕ} {text : Text} (written : Written groups text) (length : groups.length = 8)
    (bounds : ∀ n ∈ groups, n < 2 ^ 16) : doubleColons text ≤ 1 ∧ address text = some groups := by
  cases written with
  | whole =>
    rw [doubleColons_join]
    exact ⟨Nat.zero_le 1, address_join length bounds⟩
  | compressed front zeros back =>
    rw [List.length_append, List.length_append, List.length_replicate] at length
    have rest : 8 - (front.length + back.length) = zeros + 1 := by omega
    have read : address (join front ++ ':' :: ':' :: join back) =
        some (front ++ List.replicate (8 - (front.length + back.length)) 0 ++ back) :=
      address_compressed (by omega) (fun n member => bounds n (by simp [member]))
        (fun n member => bounds n (by simp [member]))
    rw [rest] at read
    exact ⟨(doubleColons_compressed front back).le, read⟩

theorem Written.bracket_notMem {groups : List ℕ} {text : Text} (written : Written groups text) : ']' ∉ text := by
  cases written with
  | whole => exact notMem_join (by decide) (by decide) _
  | compressed front zeros back =>
    have absent (l : List ℕ) : ']' ∉ join l := notMem_join (by decide) (by decide) l
    simp [absent]

theorem address_insertGroups (platform : Platform) (s6_addr : Vector Byte 16) :
    doubleColons (insertGroups platform s6_addr) ≤ 1 ∧
      address (insertGroups platform s6_addr) = some (groupsTo platform (addrAt platform s6_addr) 8) :=
  (written_insertGroups s6_addr).faithful length_groupsTo groupsTo_lt

theorem insertGroups_inj {a b : Vector Byte 16} (same : insertGroups platform a = insertGroups platform b) : a = b := by
  have first := (address_insertGroups platform a).2
  rw [same, (address_insertGroups platform b).2] at first
  have bytes := congrArg (List.flatMap groupBytes) (Option.some.inj first)
  rw [flatMap_groupBytes, flatMap_groupBytes] at bytes
  exact (Vector.toList_inj.mp bytes).symm

theorem port_inj {a b : BitVec 16} (same : Nat.toDigits 10 (platform.byteswapOnLittleEndian 2 a).toNat =
    Nat.toDigits 10 (platform.byteswapOnLittleEndian 2 b).toNat) : a = b := by
  have number := congrArg (fun digits => Nat.ofDigitChars 10 digits 0) same
  simp only [Nat.ofDigitChars_ten_toDigits] at number
  have back := congrArg (platform.byteswapOnLittleEndian 2) (BitVec.eq_of_toNat_eq number)
  exact (platform.byteswapOnLittleEndian_twice (n := 2) a).symm.trans
    (back.trans (platform.byteswapOnLittleEndian_twice (n := 2) b))

/-- The text in the brackets has `::` at most once and is read as the sixteen bytes, and so the whole text is that of
one address and port. -/
theorem insert_faithful (platform : Platform) (m_addr other : SockaddrIn6) :
    doubleColons (insertGroups platform m_addr.s6_addr) ≤ 1 ∧
      (address (insertGroups platform m_addr.s6_addr)).map (·.flatMap groupBytes) = some m_addr.s6_addr.toList ∧
      (insert platform m_addr = insert platform other ↔
        m_addr.s6_addr = other.s6_addr ∧ m_addr.sin6_port = other.sin6_port) := by
  obtain ⟨once, read⟩ := address_insertGroups platform m_addr.s6_addr
  refine ⟨once, ?_, ?_, ?_⟩
  · rw [read, Option.map_some, flatMap_groupBytes]
  · intro same
    have unclosed (s6_addr : Vector Byte 16) : ']' ∉ '[' :: insertGroups platform s6_addr :=
      List.mem_cons.not.mpr (not_or.mpr ⟨by decide, (written_insertGroups s6_addr).bracket_notMem⟩)
    rw [insert, insert, List.append_assoc, List.append_assoc] at same
    obtain ⟨groups, port⟩ := List.append_cons_unique (unclosed _) (unclosed _) same
    exact ⟨insertGroups_inj (List.cons.inj groups).2, port_inj (List.cons.inj port).2⟩
  · rintro ⟨bytes, port⟩
    rw [insert, insert, bytes, port]

end IPv6Address

end Sylar
