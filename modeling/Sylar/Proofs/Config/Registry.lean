import Sylar.Model.Config.Registry
import Sylar.Proofs.Config.Names

/-! # The table of variables

A variable stands under one name, which is made of the alphabet, whatever calls of `Lookup` and rounds of
`LoadFromYaml` come after one another. A load calls `fromString` of a variable for the nodes of its name.
-/

namespace Sylar.Config.Registry

open YAML (Node)

variable {τ : Type} [DecidableEq τ] {V : τ → Type} {r : Registry V} {name spelling : Text} {p : VarPtr}
  {base : VarBase V}

/-! ## The table -/

omit [DecidableEq τ] in
/-- Every variable stands under one name. -/
structure Sound (r : Registry V) : Prop where
  named : ∀ name p, r.datas name = some p → isName name = true
  made : ∀ name p, r.datas name = some p → p < r.vars.length
  once : ∀ name other p, r.datas name = some p → r.datas other = some p → name = other

omit [DecidableEq τ] in
theorem sound_empty : (empty : Registry V).Sound := ⟨nofun, nofun, nofun⟩

omit [DecidableEq τ] in
/-- The table does not look into the variables. -/
theorem Sound.change (sound : r.Sound) (f : ∀ type, Var (V type) → Var (V type)) : (r.change p f).Sound := by
  refine ⟨sound.named, fun name q here => ?_, sound.once⟩
  have made := sound.made name q here
  rwa [Registry.change, List.length_modify]

theorem lookup_of_none (type : τ) (default_value : V type) (free : r.datas (tolower name) = none) :
    r.lookup type name default_value =
      if isName name then
        .ok (some r.vars.length, {
          datas := Function.update r.datas name (some r.vars.length)
          vars := r.vars ++ [⟨type, ⟨default_value, [], []⟩⟩] })
      else .error (.invalidArgument name) := by
  rw [lookup, free]

theorem Sound.lookup {type : τ} {default_value : V type} {result : Option VarPtr × Registry V} (sound : r.Sound)
    (returned : r.lookup type name default_value = .ok result) : result.2.Sound := by
  cases found : r.datas (tolower name) with
  | some p =>
    rw [Registry.lookup, found] at returned
    cases returned
    exact sound
  | none =>
    rw [lookup_of_none type default_value found] at returned
    split_ifs at returned with named
    cases returned
    have old {other : Text} {q : VarPtr} (here : Function.update r.datas name (some r.vars.length) other = some q) :
        (other = name ∧ q = r.vars.length) ∨ r.datas other = some q := by
      rcases eq_or_ne other name with rfl | ne
      · rw [Function.update_self] at here
        exact .inl ⟨rfl, (Option.some.inj here).symm⟩
      · rw [Function.update_of_ne ne] at here
        exact .inr here
    refine ⟨fun other q here => ?_, fun other q here => ?_, fun one other q here there => ?_⟩
    · rcases old here with ⟨rfl, -⟩ | here
      · exact named
      · exact sound.named other q here
    · rw [List.length_append]
      rcases old here with ⟨-, rfl⟩ | here
      · exact Nat.lt_succ_self _
      · exact Nat.lt_succ_of_lt (sound.made other q here)
    · rcases old here with ⟨one', new⟩ | here
      · rcases old there with ⟨other', -⟩ | there
        · exact one'.trans other'.symm
        · exact absurd (sound.made other q there) (new ▸ lt_irrefl _)
      · rcases old there with ⟨-, new⟩ | there
        · exact absurd (sound.made one q here) (new ▸ lt_irrefl _)
        · exact sound.once one other q here there

section Load

variable [∀ type, DecidableEq (V type)] {emit : Node → Text} {conv : ∀ type, Text → Option (V type)}

omit [DecidableEq τ] in
theorem loadNode_eq (r : Registry V) (i : Text × Node) :
    r.loadNode emit conv i = (r.call emit i).toList.foldl (fromString conv) r := by
  rw [loadNode]
  cases r.call emit i <;> rfl

omit [DecidableEq τ] in
theorem Sound.loadNode (sound : r.Sound) (i : Text × Node) : (r.loadNode emit conv i).Sound := by
  rw [Registry.loadNode]
  cases r.call emit i with
  | none => exact sound
  | some call => exact sound.change _

theorem Sound.perform (sound : r.Sound) (action : Action V) : (r.perform emit conv action).Sound := by
  cases action with
  | loadNode i => exact sound.loadNode i
  | change p f => exact sound.change f
  | lookup type name default_value =>
    rw [Registry.perform]
    cases returned : r.lookup type name default_value with
    | error fault => exact sound
    | ok result => exact sound.lookup returned

theorem sound_of_reachable (reachable : (machine emit conv).Reachable r) : r.Sound := by
  obtain ⟨initial, actions, rfl, path⟩ := reachable
  refine path.preserves (fun s action t sound step => ?_) sound_empty
  obtain rfl := Option.some.inj step
  exact sound.perform action

/-! ## The calls of one load -/

omit [DecidableEq τ] [∀ type, DecidableEq (V type)] in
theorem mem_calls {text : Text} {root : Node} :
    (p, text) ∈ r.calls emit root ↔
      ∃ i ∈ listAllMember [] root, i.1 ≠ [] ∧ r.datas (tolower i.1) = some p ∧ textOf emit i.2 = text := by
  rw [calls, List.mem_filterMap]
  refine exists_congr fun i => and_congr_right fun _ => ?_
  rw [call]
  split_ifs with empty
  · simp [empty]
  · simp [empty, lookupBase]

omit [DecidableEq τ] in
theorem foldl_loadNode {s : Registry V} (same : s.datas = r.datas) (is : List (Text × Node)) :
    is.foldl (loadNode emit conv) s = (is.filterMap (r.call emit)).foldl (fromString conv) s := by
  induction is generalizing s with
  | nil => rfl
  | cons i is ih =>
    have unchanged : s.call emit i = r.call emit i := by
      rw [call, call, lookupBase, lookupBase, same]
    rw [List.foldl_cons, loadNode_eq, unchanged, List.filterMap_cons]
    cases r.call emit i with
    | none => exact ih same
    | some call => exact ih same

omit [DecidableEq τ] in
/-- A load makes the calls that the table says when it starts. -/
theorem loadFromYaml_eq (r : Registry V) (root : Node) :
    r.loadFromYaml emit conv root = (r.calls emit root).foldl (fromString conv) r :=
  foldl_loadNode rfl _

omit [DecidableEq τ] [∀ type, DecidableEq (V type)] in
/-- The texts that a variable is given are those of the nodes of its name. -/
theorem calls_eq (sound : r.Sound) (registered : r.datas name = some p) (root : Node) :
    ((r.calls emit root).filter fun call => call.1 = p).map Prod.snd = (nodesOf name root).map (textOf emit) := by
  rw [← nodesOf_eq, List.map_map, calls]
  induction listAllMember [] root with
  | nil => rfl
  | cons i is ih =>
    have found : r.datas (tolower i.1) = some p ↔ tolower i.1 = name := by
      constructor
      · intro here
        exact sound.once _ _ p here registered
      · rintro rfl
        exact registered
    have called : (r.call emit i).filter (fun call => call.1 = p) =
        if i.1 ≠ [] ∧ tolower i.1 = name then some (p, textOf emit i.2) else none := by
      rw [call, lookupBase]
      by_cases empty : i.1 = []
      · simp [empty]
      · simp only [if_neg empty, ← found]
        cases r.datas (tolower i.1) with
        | none => simp
        | some q =>
          by_cases same : q = p <;> simp [same, empty]
    rw [List.filter_filterMap] at ih ⊢
    rw [List.filterMap_cons, called, List.filter_cons]
    by_cases here : i.1 ≠ [] ∧ tolower i.1 = name
    · simpa [here] using ih
    · simpa [here] using ih

omit [DecidableEq τ] in
theorem foldl_fromString_vars (calls : List (VarPtr × Text)) (r : Registry V) (p : VarPtr) :
    (calls.foldl (fromString conv) r).vars[p]? = r.vars[p]?.map fun base =>
      ⟨base.type, ((calls.filter fun call => call.1 = p).map Prod.snd).foldl
        (fun var text => var.fromString (conv base.type) text) base.var⟩ := by
  induction calls generalizing r with
  | nil => simp
  | cons call calls ih =>
    rw [List.foldl_cons, ih, fromString, change, List.getElem?_modify]
    by_cases here : call.1 = p
    · simp [here, Function.comp_def]
    · simp [here]

omit [DecidableEq τ] in
/-- A variable of the table is left as `LoadFromYaml` leaves the one variable of its name. -/
theorem loadFromYaml_vars (sound : r.Sound) (registered : r.datas name = some p) (root : Node) :
    (r.loadFromYaml emit conv root).vars[p]? = r.vars[p]?.map fun base =>
      ⟨base.type, base.var.after ((nodesOf name root).filterMap fun node => conv base.type (textOf emit node))⟩ := by
  rw [loadFromYaml_eq, foldl_fromString_vars, calls_eq sound registered]
  congr 1
  funext base
  rw [Var.foldl_fromString, List.filterMap_map]
  rfl

end Load

end Sylar.Config.Registry
