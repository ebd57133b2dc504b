import Sylar.Proofs.Config.Registry

/-! # The routes to a variable

`Lookup` turns what it is given into lower case before it looks, `LookupBase` does not, and `LoadFromYaml`
does after `ListAllMember` has dropped every path with a character that is not in the alphabet. A name that
the alphabet covers is made as it is and reached through any keys that spell it.
-/

namespace Sylar.Config.Registry

open YAML (Node)

variable {τ : Type} [DecidableEq τ] {V : τ → Type} {r : Registry V} {name spelling : Text} {p : VarPtr}
  {base : VarBase V} {keys : List Text}

/-! ## Any spelling of a registered name -/

omit [DecidableEq τ] in
theorem Sound.tolower (sound : r.Sound) (registered : r.datas name = some p) : tolower name = name :=
  tolower_of_isName (sound.named name p registered)

theorem find_spelling (sound : r.Sound) (registered : r.datas name = some p) (held : r.vars[p]? = some base)
    (same : Config.tolower spelling = Config.tolower name) : r.find base.type spelling = some p := by
  rw [find, same, sound.tolower registered, registered, Option.bind_some, cast, held]
  exact if_pos rfl

theorem lookup_spelling (sound : r.Sound) (registered : r.datas name = some p) (held : r.vars[p]? = some base)
    (same : Config.tolower spelling = Config.tolower name) (default_value : V base.type) :
    r.lookup base.type spelling default_value = .ok (some p, r) := by
  have found : r.datas (Config.tolower spelling) = some p := by
    rw [same, sound.tolower registered, registered]
  have asked := find_spelling sound registered held same
  rw [find, found, Option.bind_some] at asked
  rw [lookup, found]
  exact congrArg (fun answer => Except.ok (answer, r)) asked

omit [DecidableEq τ] in
theorem lookupBase_spelling_iff (sound : r.Sound) (registered : r.datas name = some p)
    (same : Config.tolower spelling = Config.tolower name) :
    r.lookupBase spelling = some p ↔ Config.tolower spelling = spelling := by
  rw [same, sound.tolower registered]
  constructor
  · intro found
    exact sound.once _ _ p registered found
  · rintro rfl
    exact registered

omit [DecidableEq τ] in
/-- Every tree in which the keys spell the name leads to the variable, unless a letter is in upper case or the
first key is empty. -/
theorem calls_spelling_iff (emit : Node → Text) (sound : r.Sound) (registered : r.datas name = some p)
    (same : Config.tolower spelling = Config.tolower name) (present : keys ≠ [])
    (spelled : ['.'].intercalate keys = spelling) :
    (∀ root node, (keys, node) ∈ preorder root → (p, textOf emit node) ∈ r.calls emit root) ↔
      Config.tolower spelling = spelling ∧ keys.head? ≠ some [] := by
  have lower := sound.tolower registered
  constructor
  · intro reached
    obtain ⟨⟨text, node⟩, listed, nonempty, found, -⟩ :=
      mem_calls.mp (reached (chain keys (.scalar [])) _ (mem_chain keys []))
    obtain ⟨named, path, here, rfl⟩ := mem_listAllMember.mp listed
    obtain rfl : joined [] path = name := by
      rw [← sound.once _ _ p found registered]
      exact (tolower_of_isName named).symm
    have long : (joined [] path).length = (['.'].intercalate keys).length := by
      have lengths := congrArg List.length same
      rw [Config.tolower, Config.tolower, List.length_map, List.length_map] at lengths
      rw [spelled, lengths]
    obtain ⟨rfl, front⟩ := eq_of_length (of_mem_chain here) nonempty long
    obtain ⟨key, rest, rfl⟩ := List.exists_cons_of_ne_nil present
    have first : key ≠ [] := fun empty => front (congrArg some empty)
    rw [← spelled, ← joined_root first]
    exact ⟨lower, front⟩
  · rintro ⟨small, front⟩ root node here
    obtain ⟨key, rest, rfl⟩ := List.exists_cons_of_ne_nil present
    have first : key ≠ [] := fun empty => front (congrArg some empty)
    have whole : joined [] (key :: rest) = name := by
      rw [joined_root first, spelled, ← small, same, lower]
    have nonempty : name ≠ [] := by
      rw [← whole, joined_root first, intercalate_cons]
      exact List.append_ne_nil_of_left_ne_nil first _
    refine mem_calls.mpr ⟨(name, node), ?_, nonempty, ?_, rfl⟩
    · exact mem_listAllMember.mpr ⟨sound.named name p registered, _, here, whole⟩
    · rw [lower, registered]

section Machine

variable [∀ type, DecidableEq (V type)] {emit : Node → Text} {conv : ∀ type, Text → Option (V type)}

/-- For a registered variable, a spelling of its name and keys that make up the spelling: every route leads to the
variable if and only if no letter is in upper case and the first key is not empty. -/
theorem every_route_iff (reachable : (machine emit conv).Reachable r) (registered : r.datas name = some p)
    (held : r.vars[p]? = some base) (same : Config.tolower spelling = Config.tolower name) (present : keys ≠ [])
    (spelled : ['.'].intercalate keys = spelling) :
    ((∀ default_value, r.lookup base.type spelling default_value = .ok (some p, r)) ∧
        r.find base.type spelling = some p ∧ r.lookupBase spelling = some p ∧
        ∀ root node, (keys, node) ∈ preorder root → (p, textOf emit node) ∈ r.calls emit root) ↔
      Config.tolower spelling = spelling ∧ keys.head? ≠ some [] := by
  have sound := sound_of_reachable reachable
  have loaded := calls_spelling_iff emit sound registered same present spelled
  constructor
  · rintro ⟨-, -, -, reached⟩
    exact loaded.mp reached
  · intro plain
    refine ⟨lookup_spelling sound registered held same, find_spelling sound registered held same, ?_, ?_⟩
    · exact (lookupBase_spelling_iff sound registered same).mpr plain.1
    · exact loaded.mpr plain

/-- `A` is no spelling of `a` to `LookupBase`, nor in a tree. -/
theorem every_route_misses :
    ∃ r : Registry fun _ : Unit => ℕ, (machine (fun _ => []) fun _ _ => some 1).Reachable r ∧
      r.datas ['a'] = some 0 ∧ Config.tolower ['A'] = Config.tolower ['a'] ∧ r.find () ['A'] = some 0 ∧
      r.lookupBase ['A'] = none ∧ (['.'].intercalate [['A']] = ['A']) ∧
      ([['A']], .scalar ['1']) ∈ preorder (.map [(['A'], .scalar ['1'])]) ∧
      r.calls (fun _ => []) (.map [(['A'], .scalar ['1'])]) = [] := by
  refine ⟨_, ⟨empty, [.lookup () ['a'] 0], rfl, .cons rfl (.nil _)⟩, ?_⟩
  refine ⟨rfl, rfl, rfl, rfl, rfl, ?_, rfl⟩
  exact List.mem_cons_of_mem _ List.mem_cons_self

theorem every_route_of_lower :
    ∃ r : Registry fun _ : Unit => ℕ,
      r.lookup () "tcp.connect.timeout".toList 7 = .ok (some 1, r) ∧
      r.find () "tcp.connect.timeout".toList = some 1 ∧ r.lookupBase "tcp.connect.timeout".toList = some 1 ∧
      (∀ root node, (["tcp".toList, "connect".toList, "timeout".toList], node) ∈ preorder root →
        (1, textOf (fun _ => []) node) ∈ r.calls (fun _ => []) root) ∧
      (1, "5000".toList) ∈ r.calls (fun _ => []) (.map [
        ("tcp".toList, .map [("read".toList, .null),
          ("connect".toList, .map [("timeout".toList, .scalar "5000".toList)])]),
        ("fiber".toList, .map [("stack_size".toList, .scalar "1024".toList)])]) := by
  let actions : List (Action fun _ : Unit => ℕ) :=
    [.lookup () "fiber.stack_size".toList 0, .lookup () "tcp.connect.timeout".toList 5]
  have reachable : (machine (fun _ => []) fun _ _ => some 1).Reachable
      (actions.foldl (fun r => r.perform (fun _ => []) fun _ _ => some 1) empty) :=
    ⟨empty, actions, rfl, .cons rfl (.cons rfl (.nil _))⟩
  have spelled : ['.'].intercalate ["tcp".toList, "connect".toList, "timeout".toList] =
      "tcp.connect.timeout".toList := by decide
  obtain ⟨looked, found, based, loaded⟩ :=
    (every_route_iff reachable rfl rfl rfl (by decide) spelled).mpr (by decide)
  refine ⟨_, looked 7, found, based, loaded, loaded _ (.scalar "5000".toList) ?_⟩
  simp [preorder, preorderEntries]

end Machine

/-! ## A name that is new -/

/-- A name over the lower-case letters, the digits, the dot and the underscore that is not registered is made under
just this name, and the keys that spell it lead to it, if and only if it has no `q`. -/
theorem new_name_iff (emit : Node → Text) (r : Registry V) (type : τ) (default_value : V type) (present : name ≠ [])
    (letters : ∀ c ∈ name, nameChar c = true) (free : r.datas name = none) :
    (∃ after, r.lookup type name default_value = .ok (some r.vars.length, after) ∧
        after.datas = Function.update r.datas name (some r.vars.length) ∧
        after.vars = r.vars ++ [⟨type, ⟨default_value, [], []⟩⟩] ∧
        ∀ root keys node, keys ≠ [] → (∀ key ∈ keys, key ≠ []) → ['.'].intercalate keys = name →
          (keys, node) ∈ preorder root →
          (name, node) ∈ listAllMember [] root ∧ (r.vars.length, textOf emit node) ∈ after.calls emit root) ↔
      'q' ∉ name := by
  rw [← isName_iff letters]
  have lower : Config.tolower name = name := tolower_of_nameChar letters
  rw [lookup_of_none type default_value (by rw [lower, free])]
  constructor
  · rintro ⟨after, made, -⟩
    by_contra invalid
    rw [if_neg invalid] at made
    cases made
  · intro named
    refine ⟨_, if_pos named, rfl, rfl, fun root keys node some full spelled here => ?_⟩
    obtain ⟨key, rest, rfl⟩ := List.exists_cons_of_ne_nil some
    have first : key ≠ [] := full key List.mem_cons_self
    have listed : (name, node) ∈ listAllMember [] root :=
      mem_listAllMember.mpr ⟨named, _, here, (joined_root first rest).trans spelled⟩
    refine ⟨listed, mem_calls.mpr ⟨_, listed, present, ?_, rfl⟩⟩
    rw [lower]
    exact Function.update_self ..

theorem new_name_made :
    ∃ after : Registry fun _ : Unit => ℕ, empty.lookup () ['a', '.', 'b'] 3 = .ok (some 0, after) ∧
      (0, ['1']) ∈ after.calls (fun _ => []) (.map [(['a'], .map [(['b'], .scalar ['1'])])]) := by
  obtain ⟨after, made, -, -, loaded⟩ :=
    (@new_name_iff _ _ _ ['a', '.', 'b'] (fun _ => []) (empty : Registry fun _ : Unit => ℕ) () 3 (by decide)
      (List.all_eq_true.mp rfl) rfl).mpr (by decide)
  have here : ([['a'], ['b']], .scalar ['1']) ∈ preorder (.map [(['a'], .map [(['b'], .scalar ['1'])])]) :=
    mem_chain [['a'], ['b']] ['1']
  exact ⟨after, made, (loaded _ _ _ (by decide) (by decide) rfl here).2⟩

/-- No variable can be called `mq`, and what a tree has under it is dropped. -/
theorem new_name_refused :
    (∀ c ∈ ['m', 'q'], nameChar c = true) ∧ (empty : Registry fun _ : Unit => ℕ).datas ['m', 'q'] = none ∧
      (empty : Registry fun _ : Unit => ℕ).lookup () ['m', 'q'] 0 = .error (.invalidArgument ['m', 'q']) ∧
      ([['m', 'q']], .scalar ['1']) ∈ preorder (.map [(['m', 'q'], .scalar ['1'])]) ∧
      (['m', 'q'], .scalar ['1']) ∉ listAllMember [] (.map [(['m', 'q'], .scalar ['1'])]) := by
  refine ⟨List.all_eq_true.mp rfl, rfl, rfl, mem_chain [['m', 'q']] ['1'], fun listed => ?_⟩
  obtain ⟨named, -⟩ := mem_listAllMember.mp listed
  exact absurd named (by decide)

end Sylar.Config.Registry
