import Mathlib.Data.List.Count
import Sylar.Model.Address.Lookup
import Sylar.ToMathlib.Separator

/-! # How `Address::Lookup` splits a host

The first pass takes what stands in brackets whatever follows them, and the second one leaves `service` at the first
colon when it finds another.
-/

namespace Sylar

variable {host node skip rest front back : Text} {c : Char}

/-! ## Reading the host -/

theorem cStr_append (skip rest : Text) : cStr (skip ++ rest) = skip ++ cStr rest := List.append_assoc ..

theorem drop_cStr (skip rest : Text) : (cStr (skip ++ rest)).drop skip.length = cStr rest := by
  rw [cStr_append, List.drop_left]

/-- A search up to the terminator. -/
theorem memchr_rest (skip rest : Text) (c : Char) :
    memchr (skip ++ rest) skip.length c rest.length = some ((rest.idxOf? c).map (skip.length + ·)) := by
  have inside : skip.length + rest.length ≤ (cStr (skip ++ rest)).length := by simp [cStr]
  rw [memchr, if_pos inside, drop_cStr, cStr, List.take_left]

theorem memchr_found (skip back : Text) (absent : c ∉ front) :
    memchr (skip ++ (front ++ c :: back)) skip.length c (front ++ c :: back).length =
      some (some (skip.length + front.length)) := by
  rw [memchr_rest, List.idxOf?_append_cons absent]
  rfl

theorem memchr_missing (skip : Text) (absent : c ∉ rest) :
    memchr (skip ++ rest) skip.length c rest.length = some none := by
  rw [memchr_rest, List.idxOf?_eq_none_iff.mpr absent]
  rfl

/-- A string without a NUL is read to its end. -/
theorem stringAt_rest (skip rest : Text) (noNul : '\x00' ∉ rest) : stringAt (skip ++ rest) skip.length = some rest := by
  have inside : skip.length < (cStr (skip ++ rest)).length := by simp [cStr]
  have characters : ∀ c ∈ rest, decide (c ≠ '\x00') = true := by
    intro c member
    exact decide_eq_true (ne_of_mem_of_not_mem member noNul)
  rw [stringAt, if_pos inside, drop_cStr, cStr, List.takeWhile_append_of_pos characters]
  simp

theorem stringAt_zero (noNul : '\x00' ∉ rest) : stringAt rest 0 = some rest := stringAt_rest [] _ noNul

theorem charAt_rest (skip rest : Text) : charAt (skip ++ rest) skip.length = some (rest.head?.getD '\x00') := by
  rw [charAt, cStr_append, List.getElem?_append_right (Nat.le_refl _), Nat.sub_self]
  cases rest <;> rfl

namespace Address

/-! ## The two passes -/

/-- The host starts with a name in brackets, and `tail` stands behind them. -/
def Bracketed (host n tail : Text) : Prop := host = '[' :: (n ++ ']' :: tail) ∧ ']' ∉ n

theorem Bracketed.unique {n n' tail tail' : Text} (one : Bracketed host n tail) (other : Bracketed host n' tail') :
    n = n' ∧ tail = tail' := by
  obtain ⟨rfl, absent⟩ := one
  obtain ⟨same, absent'⟩ := other
  exact List.append_cons_unique absent absent' (List.cons.inj same).2

theorem ipv6Service_bracketed {n tail : Text} (shape : Bracketed host n tail) :
    ipv6Service host = some (n, if tail.head? = some ':' then some (n.length + 3) else none) := by
  obtain ⟨rfl, absent⟩ := shape
  have found := memchr_found ['['] tail absent
  have next := charAt_rest ('[' :: (n ++ [']'])) tail
  have node : Text.substr ('[' :: (n ++ ']' :: tail)) 1 n.length = some n := by
    simp [Text.substr]
  have position : ('[' :: (n ++ [']'])).length = n.length + 2 := by simp
  rw [position, show '[' :: (n ++ [']']) ++ tail = '[' :: (n ++ ']' :: tail) by simp] at next
  rw [show ['['] ++ (n ++ ']' :: tail) = '[' :: (n ++ ']' :: tail) from rfl, List.length_singleton,
    Nat.add_comm 1 n.length] at found
  have starts : ('[' :: (n ++ ']' :: tail) : Text).head? = some '[' := rfl
  rw [ipv6Service, if_pos starts, List.length_cons, Nat.add_sub_cancel, found]
  simp only [Option.bind_eq_bind, Option.bind_some, next, Nat.add_sub_cancel, node]
  cases tail with
  | nil => rfl
  | cons c tail => by_cases colon : c = ':' <;> simp [colon, Nat.add_assoc]

theorem ipv6Service_plain (plain : ∀ n tail, ¬Bracketed host n tail) : ipv6Service host = some ([], none) := by
  rw [ipv6Service]
  split
  · next starts =>
    obtain ⟨inside, rfl⟩ : ∃ inside, host = '[' :: inside := by
      cases host with
      | nil => cases starts
      | cons c inside =>
        obtain rfl := Option.some.inj starts
        exact ⟨inside, rfl⟩
    have absent : ']' ∉ inside := by
      intro member
      obtain ⟨n, tail, rfl, absent⟩ := List.eq_append_cons_of_mem member
      exact plain n tail ⟨rfl, absent⟩
    have missing := memchr_missing ['['] absent
    rw [List.length_cons, Nat.add_sub_cancel, show '[' :: inside = ['['] ++ inside from rfl]
    rw [List.length_singleton] at missing
    rw [missing]
    rfl
  · rfl

theorem nodeService_whole (service : Option ℕ) (absent : ':' ∉ host) : nodeService host [] service = some ([], none) := by
  have missing := memchr_missing [] absent
  rw [List.nil_append, List.length_nil] at missing
  rw [nodeService, if_pos rfl, missing]
  rfl

/-- A host with a colon, before it is looked for another. -/
theorem nodeService_colon (service : Option ℕ) (back : Text) (absent : ':' ∉ front) :
    nodeService (front ++ ':' :: back) [] service =
      some (if ':' ∈ back then ([], some front.length) else (front, some (front.length + 1))) := by
  have first := memchr_found [] back absent
  rw [List.nil_append, List.length_nil, Nat.zero_add] at first
  have second := memchr_rest (front ++ [':']) back ':'
  rw [List.length_append, List.length_singleton, List.append_assoc, List.singleton_append] at second
  have count : (front ++ ':' :: back).length - front.length - 1 = back.length := by
    rw [List.length_append, List.length_cons]
    omega
  rw [nodeService, if_pos rfl, first]
  simp only [Option.bind_eq_bind, Option.bind_some, count, second]
  by_cases more : ':' ∈ back
  · obtain ⟨position, found⟩ := Option.isSome_iff_exists.mp (List.isSome_idxOf?.mpr more)
    rw [found, if_pos more]
    rfl
  · rw [List.idxOf?_eq_none_iff.mpr more, if_neg more]
    simp [Text.substr]

/-! ## The arguments -/

/-- With a name in brackets the host is not searched for a colon. -/
theorem lookupArguments_bracketed {n tail : Text} (shape : Bracketed host n tail) (nonempty : n ≠ [])
    (noNul : '\x00' ∉ host) :
    lookupArguments host = some (n, if tail.head? = some ':' then some tail.tail else none) := by
  have first := ipv6Service_bracketed shape
  obtain ⟨rfl, absent⟩ := shape
  have nameNul : '\x00' ∉ n := fun member => noNul (by simp [member])
  rw [lookupArguments, first]
  simp only [Option.bind_eq_bind, Option.bind_some, nodeService, if_neg nonempty, Option.pure_def,
    stringAt_zero nameNul]
  cases tail with
  | nil => rfl
  | cons c tail =>
    by_cases colon : c = ':'
    · subst colon
      have tailNul : '\x00' ∉ tail := fun member => noNul (by simp [member])
      have service := stringAt_rest ('[' :: (n ++ [']', ':'])) tail tailNul
      have position : ('[' :: (n ++ [']', ':'])).length = n.length + 3 := by simp
      rw [position, show '[' :: (n ++ [']', ':']) ++ tail = '[' :: (n ++ ']' :: ':' :: tail) by simp] at service
      simp [service]
    · simp [colon]

section Plain

variable (plain : ∀ n tail, n ≠ [] → ¬Bracketed host n tail) (noNul : '\x00' ∉ host)

include plain

/-- What the first pass leaves in `node` is empty, and the second one sets `service` anew. -/
theorem exists_ipv6Service : ∃ service, ipv6Service host = some ([], service) := by
  by_cases empty : ∃ tail, Bracketed host [] tail
  · obtain ⟨tail, shape⟩ := empty
    exact ⟨_, ipv6Service_bracketed shape⟩
  · refine ⟨none, ipv6Service_plain fun n tail shape => ?_⟩
    by_cases nonempty : n = []
    · subst nonempty
      exact empty ⟨tail, shape⟩
    · exact plain n tail nonempty shape

include noNul

theorem lookupArguments_whole (absent : ':' ∉ host) : lookupArguments host = some (host, none) := by
  obtain ⟨service, first⟩ := exists_ipv6Service plain
  rw [lookupArguments, first]
  simp only [Option.bind_eq_bind, Option.bind_some, nodeService_whole service absent, if_pos, stringAt_zero noNul]
  rfl

/-- With more than one colon the host is passed whole, and the rest of it from the first colon on as the service. -/
theorem lookupArguments_colon (shape : host = front ++ ':' :: back) (absent : ':' ∉ front) :
    lookupArguments host = some (if ':' ∈ back then (host, some (':' :: back))
      else (if front = [] then host else front, some back)) := by
  obtain ⟨service, first⟩ := exists_ipv6Service plain
  have second := nodeService_colon service back absent
  rw [← shape] at second
  rw [lookupArguments, first]
  simp only [Option.bind_eq_bind, Option.bind_some, second]
  split
  · have rest := stringAt_rest front (':' :: back) (fun member => noNul (by simp [shape, member]))
    rw [← shape] at rest
    simp only [if_pos, stringAt_zero noNul, Option.bind_some, rest]
    rfl
  · have rest := stringAt_rest (front ++ [':']) back (fun member => noNul (by simp [shape, member]))
    rw [List.append_assoc, List.singleton_append, ← shape, List.length_append, List.length_singleton] at rest
    have node : '\x00' ∉ (if front = [] then host else front) := by
      split
      · exact noNul
      · exact fun member => noNul (by simp [shape, member])
    simp only [stringAt_zero node, Option.bind_some, rest]
    rfl

end Plain

/-! ## The split by cases -/

/-- A name in brackets that ends the host or has a colon behind it. -/
def InBrackets (host : Text) : Prop := ∃ n tail, Bracketed host n tail ∧ n ≠ [] ∧ (tail = [] ∨ tail.head? = some ':')

/-- The node and the service of a host, by the first case that applies. -/
inductive Expected (host : Text) : Text × Option Text → Prop
  | bracketsService (n s : Text) (shape : Bracketed host n (':' :: s)) (nonempty : n ≠ []) : Expected host (n, some s)
  | brackets (n : Text) (shape : Bracketed host n []) (nonempty : n ≠ []) : Expected host (n, none)
  | service (n s : Text) (plain : ¬InBrackets host) (once : host.count ':' = 1) (shape : host = n ++ ':' :: s)
      (nonempty : n ≠ []) : Expected host (n, some s)
  | whole (plain : ¬InBrackets host) (absent : host.count ':' = 0) : Expected host (host, none)
  | bareIPv6 (more : 2 ≤ host.count ':') (bare : host.head? ≠ some '[') : Expected host (host, none)

/-- Two colons or more, and no bracket in front. -/
def Bare (host : Text) : Prop := 2 ≤ host.count ':' ∧ host.head? ≠ some '['

/-- A name in brackets with something other than a colon behind it, and at most one colon. -/
def Trailing (host : Text) : Prop :=
  (∃ n tail, Bracketed host n tail ∧ n ≠ [] ∧ tail ≠ [] ∧ tail.head? ≠ some ':') ∧ host.count ':' ≤ 1

theorem not_bracketed_of_head (bare : host.head? ≠ some '[') (n tail : Text) : ¬Bracketed host n tail := by
  rintro ⟨rfl, -⟩
  exact bare rfl

/-- Without the trailing kind, a host that is not one of the two bracketed ones is plain. -/
theorem not_bracketed (plain : ¬InBrackets host) (few : host.count ':' ≤ 1) (notTrailing : ¬Trailing host)
    (n tail : Text) (nonempty : n ≠ []) : ¬Bracketed host n tail := by
  intro shape
  by_cases ends : tail = [] ∨ tail.head? = some ':'
  · exact plain ⟨n, tail, shape, nonempty, ends⟩
  · obtain ⟨rest, other⟩ := not_or.mp ends
    exact notTrailing ⟨⟨n, tail, shape, nonempty, rest, other⟩, few⟩

/-- Whatever the host is, nothing behind its terminator is read. -/
theorem exists_lookupArguments (noNul : '\x00' ∉ host) : ∃ arguments, lookupArguments host = some arguments := by
  by_cases bracketed : ∃ n tail, n ≠ [] ∧ Bracketed host n tail
  · obtain ⟨n, tail, nonempty, shape⟩ := bracketed
    exact ⟨_, lookupArguments_bracketed shape nonempty noNul⟩
  · have plain (n tail : Text) (nonempty : n ≠ []) : ¬Bracketed host n tail :=
      fun shape => bracketed ⟨n, tail, nonempty, shape⟩
    by_cases colon : ':' ∈ host
    · obtain ⟨front, back, shape, absent⟩ := List.eq_append_cons_of_mem colon
      exact ⟨_, lookupArguments_colon plain noNul shape absent⟩
    · exact ⟨_, lookupArguments_whole plain noNul colon⟩

theorem bare_refuted (noNul : '\x00' ∉ host) (more : 2 ≤ host.count ':') (bare : host.head? ≠ some '[') :
    lookupArguments host ≠ some (host, none) := by
  have colon : ':' ∈ host := List.count_pos_iff.mp (by omega)
  obtain ⟨front, back, shape, absent⟩ := List.eq_append_cons_of_mem colon
  have another : ':' ∈ back := by
    apply List.count_pos_iff.mp
    rw [shape, List.count_append, List.count_eq_zero.mpr absent, List.count_cons_self] at more
    omega
  rw [lookupArguments_colon (fun n tail _ => not_bracketed_of_head bare n tail) noNul shape absent, if_pos another]
  exact fun same => nomatch same

theorem trailing_refuted (noNul : '\x00' ∉ host) (trailing : Trailing host) :
    ∃ expected, Expected host expected ∧ lookupArguments host ≠ some expected := by
  obtain ⟨⟨n, tail, shape, nonempty, rest, other⟩, few⟩ := trailing
  have computed := lookupArguments_bracketed shape nonempty noNul
  rw [if_neg other] at computed
  have plain : ¬InBrackets host := by
    rintro ⟨n', tail', shape', -, ends⟩
    obtain ⟨-, rfl⟩ := shape.unique shape'
    exact ends.elim rest other
  by_cases colon : ':' ∈ host
  · obtain ⟨front, back, split, absent⟩ := List.eq_append_cons_of_mem colon
    have once : host.count ':' = 1 := Nat.le_antisymm few (List.count_pos_iff.mpr colon)
    have named : front ≠ [] := by
      rintro rfl
      rw [shape.1] at split
      cases split
    refine ⟨_, .service front back plain once split named, ?_⟩
    rw [computed]
    exact fun same => nomatch same
  · refine ⟨_, .whole plain (List.count_eq_zero.mpr colon), ?_⟩
    rw [computed]
    intro same
    have whole : n.length = host.length := congrArg (fun p : Option (Text × Option Text) => p.elim 0 (·.1.length)) same
    rw [shape.1] at whole
    simp at whole
    omega

/-- Nothing behind the terminator is read, and the node and the service are those of the first case that applies
exactly if the host is neither a bare IPv6 address nor has something else behind a name in brackets. -/
theorem lookupArguments_iff (noNul : '\x00' ∉ host) : (∃ arguments, lookupArguments host = some arguments) ∧
    ((∀ expected, Expected host expected → lookupArguments host = some expected) ↔ ¬Bare host ∧ ¬Trailing host) := by
  refine ⟨exists_lookupArguments noNul, ?_, ?_⟩
  · intro right
    constructor
    · rintro ⟨more, bare⟩
      exact bare_refuted noNul more bare (right _ (.bareIPv6 more bare))
    · intro trailing
      obtain ⟨expected, applies, different⟩ := trailing_refuted noNul trailing
      exact different (right expected applies)
  · rintro ⟨notBare, notTrailing⟩ expected applies
    cases applies with
    | bracketsService n s shape nonempty => exact lookupArguments_bracketed shape nonempty noNul
    | brackets n shape nonempty => exact lookupArguments_bracketed shape nonempty noNul
    | service n s plain once shape nonempty =>
      have counted := once
      rw [shape, List.count_append, List.count_cons_self] at counted
      have before : ':' ∉ n := List.count_eq_zero.mp (by omega)
      have behind : ':' ∉ s := List.count_eq_zero.mp (by omega)
      rw [lookupArguments_colon (not_bracketed plain (Nat.le_of_eq once) notTrailing) noNul shape before, if_neg behind,
        if_neg nonempty]
    | whole plain absent =>
      exact lookupArguments_whole (not_bracketed plain (by omega) notTrailing) noNul (List.count_eq_zero.mp absent)
    | bareIPv6 more bare => exact absurd ⟨more, bare⟩ notBare

/-- A name with a port. -/
theorem lookupArguments_iff_port : (∃ arguments, lookupArguments "a:80".toList = some arguments) ∧
    ((∀ expected, Expected "a:80".toList expected → lookupArguments "a:80".toList = some expected) ↔
      ¬Bare "a:80".toList ∧ ¬Trailing "a:80".toList) :=
  lookupArguments_iff (by decide)

/-- The loopback address gets itself as the service, and what stands behind a name in brackets is lost with them. -/
theorem hosts_split_wrong :
    Expected "::1".toList ("::1".toList, none) ∧ lookupArguments "::1".toList = some ("::1".toList, some "::1".toList) ∧
      Expected "[a]b:80".toList ("[a]b".toList, some "80".toList) ∧
      lookupArguments "[a]b:80".toList = some ("a".toList, none) := by
  have plain : ¬InBrackets "[a]b:80".toList := by
    rintro ⟨n, tail, shape, -, ends⟩
    have direct : Bracketed "[a]b:80".toList ['a'] "b:80".toList := ⟨rfl, by decide⟩
    obtain ⟨-, rfl⟩ := shape.unique direct
    revert ends
    decide
  exact ⟨.bareIPv6 (by decide) (by decide), rfl, .service _ _ plain (by decide) rfl (by decide), rfl⟩

end Address

end Sylar
