import Mathlib.Data.Finset.Dedup
import Sylar.Model.Config.LexicalCast
import Sylar.ToMathlib.FoldlM

/-! # A container is read as it was written

The node of a container holds the nodes that its elements load to, and an element is converted from what its
node is emitted as. An element that is a container is therefore read from a second text of its node, so that
for the induction over the type every text that loads to the node of a container has to be read as its value.
-/

namespace Sylar

open YAML (Node)

instance : Inhabited Node := ⟨.null⟩

/-- What is emitted of the node loads to an equal node. -/
def Yaml.Restores (y : Yaml) (node : Option Node) : Prop := y.load (y.emit node) = some (node.getD .null)

/-! ## Nodes of sequences and of maps -/

namespace YAML.Node

/-- The node that items were pushed back to. -/
def ofItems : List Node → Option Node
  | [] => none
  | item :: items => some (.sequence (item :: items))

/-- The node that entries were assigned in. -/
def ofEntries : List (Text × Node) → Option Node
  | [] => none
  | entry :: entries => some (.map (entry :: entries))

theorem pushBack_ofItems (items : List Node) (item : Node) :
    (pushBack (ofItems items) item).map some = some (ofItems (items ++ [item])) := by
  cases items with
  | nil => rfl
  | cons first items => rfl

theorem setEntry_of_notMem {key : Text} (value : Node) {entries : List (Text × Node)}
    (fresh : key ∉ entries.map Prod.fst) :
    setEntry key value entries = entries ++ [(key, value)] := by
  induction entries with
  | nil => rfl
  | cons entry entries ih =>
    rw [List.map_cons, List.mem_cons, not_or] at fresh
    rw [setEntry, if_neg (Ne.symm fresh.1), ih fresh.2, List.cons_append]

theorem assign_ofEntries {key : Text} (value : Node) {entries : List (Text × Node)}
    (fresh : key ∉ entries.map Prod.fst) :
    (assign (ofEntries entries) key value).map some = some (ofEntries (entries ++ [(key, value)])) := by
  cases entries with
  | nil => rfl
  | cons entry entries =>
    rw [ofEntries, assign, setEntry_of_notMem value fresh]
    rfl

theorem size_ofItems (items : List Node) : ((ofItems items).getD .null).size = items.length := by
  cases items with
  | nil => rfl
  | cons item items => rfl

theorem get_ofItems (index : Text → Option ℕ) (items : List Node) (i : ℕ) :
    ((ofItems items).getD .null).get index i = items[i]? := by
  cases items with
  | nil => rfl
  | cons item items => rfl

theorem pairs_ofEntries (entries : List (Text × Node)) : ((ofEntries entries).getD .null).pairs = some entries := by
  cases entries with
  | nil => rfl
  | cons entry entries => rfl

end YAML.Node

/-! ## One container -/

namespace LexicalCast

variable (y : Yaml) {r : CppType} (cast : LexicalCast r)

/-- The text of an element loads to the node, and the element is read from what is emitted of the node. -/
structure Carried (i : r.Obj) (node : Node) : Prop where
  loads : (cast.toStr i).bind y.load = some node
  reads : cast.fromStr (y.emit (some node)) = some (r.value i)

/-- The text of a container is emitted of a node, and every text that loads to this node is read as its value. -/
structure Emitted (v : r.Obj) (node : Option Node) : Prop where
  emits : cast.toStr v = some (y.emit node)
  restores : y.Restores node
  reads : ∀ text, y.load text = some (node.getD .null) → cast.fromStr text = some (r.value v)

variable {y cast}

theorem Emitted.toStr_bind_fromStr {v : r.Obj} {node : Option Node} (emitted : Emitted y cast v node) :
    (cast.toStr v).bind cast.fromStr = some (r.value v) := by
  rw [emitted.emits]
  exact emitted.reads _ emitted.restores

theorem Emitted.carried {v : r.Obj} {node : Option Node} (emitted : Emitted y cast v node)
    (again : ∀ node, (cast.toStr v).bind y.load = some node → y.Restores (some node)) :
    Carried y cast v (node.getD .null) := by
  have loads : (cast.toStr v).bind y.load = some (node.getD .null) := by
    rw [emitted.emits]
    exact emitted.restores
  exact ⟨loads, emitted.reads _ (again _ loads)⟩

/-- The elements are pushed back one after the other. -/
theorem sequenceNode_eq {v : List r.Obj} {node : r.Obj → Node} (carried : ∀ i ∈ v, Carried y cast i (node i)) :
    sequenceNode y cast v = some (Node.ofItems (v.map node)) := by
  have pushed (items : List Node) : v.foldlM (fun node i => do
      return some (← Node.pushBack node (← y.load (← cast.toStr i)))) (Node.ofItems items) =
        some (Node.ofItems (items ++ v.map node)) := by
    induction v generalizing items with
    | nil => simp
    | cons i v ih =>
      have loads := (carried i List.mem_cons_self).loads
      obtain ⟨text, written, loaded⟩ := Option.bind_eq_some_iff.mp loads
      have step := Node.pushBack_ofItems items (node i)
      obtain ⟨next, put, same⟩ := Option.map_eq_some_iff.mp step
      have rest := ih (fun i here => carried i (List.mem_cons_of_mem _ here)) (items ++ [node i])
      rw [← same] at rest
      simpa [written, loaded, put] using rest
  exact pushed []

/-- The elements are read from their nodes one after the other. -/
theorem sequenceFromStr_eq {C : Type} (put : C → r.Val → C) (empty : C) {v : List r.Obj} {node : r.Obj → Node}
    (carried : ∀ i ∈ v, Carried y cast i (node i)) {text : Text}
    (loaded : y.load text = some ((Node.ofItems (v.map node)).getD .null)) :
    sequenceFromStr y cast put empty text = some ((v.map r.value).foldl put empty) := by
  have walked (vec : C) : v.foldlM (fun vec i => do
      return put vec (← cast.fromStr (y.emit (some (node i))))) vec = some ((v.map r.value).foldl put vec) := by
    clear loaded
    induction v generalizing vec with
    | nil => rfl
    | cons i v ih =>
      have rest := ih (fun i here => carried i (List.mem_cons_of_mem _ here)) (put vec (r.value i))
      simpa [(carried i List.mem_cons_self).reads] using rest
  let read (vec : C) (node : Option Node) : Option C := do return put vec (← cast.fromStr (y.emit node))
  have ranged := List.foldlM_range_getElem? read (v.map node) empty
  rw [List.foldlM_map] at ranged
  unfold sequenceFromStr
  rw [loaded]
  simp only [Option.bind_eq_bind, Option.bind_some, Node.size_ofItems, Node.get_ofItems]
  exact ranged.trans (walked empty)

/-- The entries are assigned one after the other, each under a key of its own. -/
theorem mapNode_eq {v : List (Σ _ : Text, r.Obj)} (fresh : v.NodupKeys) {node : r.Obj → Node}
    (carried : ∀ i ∈ v, Carried y cast i.2 (node i.2)) :
    mapNode y cast v = some (Node.ofEntries (v.map fun i => (i.1, node i.2))) := by
  have assigned (entries : List (Text × Node)) (apart : ∀ key ∈ v.keys, key ∉ entries.map Prod.fst) :
      v.foldlM (fun node i => do return some (← Node.assign node i.1 (← y.load (← cast.toStr i.2))))
        (Node.ofEntries entries) = some (Node.ofEntries (entries ++ v.map fun i => (i.1, node i.2))) := by
    induction v generalizing entries with
    | nil => simp
    | cons i v ih =>
      rw [List.nodupKeys_cons] at fresh
      rw [List.keys_cons] at apart
      have loads := (carried i List.mem_cons_self).loads
      obtain ⟨text, written, loaded⟩ := Option.bind_eq_some_iff.mp loads
      have step := Node.assign_ofEntries (node i.2) (apart i.1 List.mem_cons_self)
      obtain ⟨next, put, same⟩ := Option.map_eq_some_iff.mp step
      have rest := ih fresh.2 (fun i here => carried i (List.mem_cons_of_mem _ here)) (entries ++ [(i.1, node i.2)]) (by
        intro key here there
        rw [List.map_append, List.mem_append, List.map_singleton, List.mem_singleton] at there
        rcases there with there | rfl
        · exact apart key (List.mem_cons_of_mem _ here) there
        · exact fresh.1 here)
      rw [← same] at rest
      simpa [written, loaded, put] using rest
  exact assigned [] fun _ _ => List.not_mem_nil

theorem lookup_insertPair (vec : Finmap fun _ : Text => r.Val) (key other : Text) (i : r.Val) :
    (insertPair vec key i).lookup other = (vec.lookup other).or (if other = key then some i else none) := by
  unfold insertPair
  split_ifs with here same same
  · subst same
    obtain ⟨value, found⟩ := Finmap.mem_iff.mp here
    rw [found, Option.some_or]
  · rw [Option.or_none]
  · subst same
    rw [Finmap.lookup_insert, Finmap.lookup_eq_none.mpr here, Option.none_or]
  · rw [Finmap.lookup_insert_of_ne _ same, Option.or_none]

/-- Of several entries under a key the first one stays. -/
theorem lookup_foldl_insertPair (l : List (Σ _ : Text, r.Val)) (vec : Finmap fun _ : Text => r.Val) (key : Text) :
    (l.foldl (fun vec i => insertPair vec i.1 i.2) vec).lookup key = (vec.lookup key).or (l.dlookup key) := by
  induction l generalizing vec with
  | nil => simp
  | cons i l ih =>
    rw [List.foldl_cons, ih, lookup_insertPair, Option.or_assoc]
    congr 1
    obtain ⟨first, value⟩ := i
    rcases eq_or_ne key first with rfl | other
    · rw [if_pos rfl, List.dlookup_cons_eq, Option.some_or]
    · rw [if_neg other, Option.none_or]
      exact (List.dlookup_cons_ne (β := fun _ => r.Val) l ⟨first, value⟩ other).symm

/-- The entries are read from their nodes one after the other. -/
theorem mapFromStr_eq {v : AList fun _ : Text => r.Obj} {node : r.Obj → Node}
    (carried : ∀ i ∈ v.entries, Carried y cast i.2 (node i.2)) {text : Text}
    (loaded : y.load text = some ((Node.ofEntries (v.entries.map fun i => (i.1, node i.2))).getD .null)) :
    mapFromStr y cast text = some (r.map.value v) := by
  have walked (entries : List (Σ _ : Text, r.Obj)) (carried : ∀ i ∈ entries, Carried y cast i.2 (node i.2))
      (vec : Finmap fun _ : Text => r.Val) :
      (entries.map fun i => (i.1, node i.2)).foldlM (fun vec it => do
        return insertPair vec it.1 (← cast.fromStr (y.emit (some it.2)))) vec =
      some ((entries.map (.map id fun _ => r.value)).foldl
        (fun vec (i : Σ _ : Text, r.Val) => insertPair vec i.1 i.2) vec) := by
    induction entries generalizing vec with
    | nil => rfl
    | cons i entries ih =>
      have rest := ih (fun i here => carried i (List.mem_cons_of_mem _ here)) (insertPair vec i.1 (r.value i.2))
      simpa [(carried i List.mem_cons_self).reads, Sigma.map] using rest
  unfold mapFromStr
  rw [loaded]
  simp only [Option.bind_eq_bind, Option.bind_some, Node.pairs_ofEntries]
  refine (walked v.entries carried ∅).trans (congrArg some (Finmap.ext_lookup fun key => ?_))
  rw [lookup_foldl_insertPair, Finmap.lookup_empty, Option.none_or]
  exact (Finmap.lookup_toFinmap (β := fun _ => r.Val) key (AList.mk _ (v.nodupKeys.map₂ fun _ => r.value))).symm

theorem foldl_insert {α : Type} [DecidableEq α] (items : List α) (vec : Finset α) :
    items.foldl (fun vec i => insert i vec) vec = vec ∪ items.toFinset := by
  induction items generalizing vec with
  | nil => simp
  | cons i items ih =>
    rw [List.foldl_cons, ih, List.toFinset_cons, Finset.insert_union, Finset.union_insert]

section Written

variable (y cast) (written : r.Obj → List (Option Node))

/-- The nodes that are emitted for an element: those of its own conversions, and the one that it is read from. -/
def elementWritten (i : r.Obj) : List (Option Node) := written i ++ ((cast.toStr i).bind y.load).toList.map some

/-- The nodes that are emitted for a sequence. -/
def sequenceWritten (v : List r.Obj) : List (Option Node) :=
  (sequenceNode y cast v).toList ++ v.flatMap (elementWritten y cast written)

/-- The nodes that are emitted for a map. -/
def mapWritten (v : List (Σ _ : Text, r.Obj)) : List (Option Node) :=
  (mapNode y cast v).toList ++ v.flatMap fun i => elementWritten y cast written i.2

end Written

section Containers

variable {written : r.Obj → List (Option Node)}

theorem mem_sequenceWritten {v : List r.Obj} {i : r.Obj} {node : Option Node} (here : i ∈ v)
    (element : node ∈ elementWritten y cast written i) : node ∈ sequenceWritten y cast written v :=
  List.mem_append_right _ (List.mem_flatMap.mpr ⟨i, here, element⟩)

theorem mem_mapWritten {v : List (Σ _ : Text, r.Obj)} {i : Σ _ : Text, r.Obj} {node : Option Node} (here : i ∈ v)
    (element : node ∈ elementWritten y cast written i.2) : node ∈ mapWritten y cast written v :=
  List.mem_append_right _ (List.mem_flatMap.mpr ⟨i, here, element⟩)

theorem exists_sequenceNode {v : List r.Obj} (carried : ∀ i ∈ v, ∃ node, Carried y cast i node)
    (restores : ∀ node ∈ sequenceWritten y cast written v, y.Restores node) :
    ∃ node, sequenceToStr y cast v = some (y.emit node) ∧ y.Restores node ∧
      ∀ {C : Type} (put : C → r.Val → C) (empty : C) (text : Text), y.load text = some (node.getD .null) →
        sequenceFromStr y cast put empty text = some ((v.map r.value).foldl put empty) := by
  choose! node carried using carried
  have built := sequenceNode_eq carried
  refine ⟨Node.ofItems (v.map node), ?_, ?_, ?_⟩
  · rw [sequenceToStr, built]
    rfl
  · apply restores
    simp [sequenceWritten, built]
  · intro C put empty text loaded
    exact sequenceFromStr_eq put empty carried loaded

theorem vector_emitted {v : List r.Obj} (carried : ∀ i ∈ v, ∃ node, Carried y cast i node)
    (restores : ∀ node ∈ sequenceWritten y cast written v, y.Restores node) :
    ∃ node, Emitted y (vector y cast) v node := by
  obtain ⟨node, emits, restored, reads⟩ := exists_sequenceNode carried restores
  refine ⟨node, emits, restored, fun text loaded => ?_⟩
  have read := reads (fun (vec : List r.Val) i => vec ++ [i]) [] text loaded
  rwa [List.foldl_append_eq_append, List.nil_append, ← List.flatMap_def, List.flatMap_singleton'] at read

theorem set_emitted {v : r.set.Obj} (carried : ∀ i ∈ v.1, ∃ node, Carried y cast i node)
    (restores : ∀ node ∈ sequenceWritten y cast written v.1, y.Restores node) :
    ∃ node, Emitted y (set y cast) v node := by
  obtain ⟨node, emits, restored, reads⟩ := exists_sequenceNode carried restores
  refine ⟨node, emits, restored, fun text loaded => ?_⟩
  have read := reads (fun (vec : Finset r.Val) i => insert i vec) ∅ text loaded
  rwa [foldl_insert, Finset.empty_union] at read

theorem map_emitted {v : r.map.Obj} (carried : ∀ i ∈ v.entries, ∃ node, Carried y cast i.2 node)
    (restores : ∀ node ∈ mapWritten y cast written v.entries, y.Restores node) :
    ∃ node, Emitted y (map y cast) v node := by
  have carried : ∀ obj ∈ v.entries.map Sigma.snd, ∃ node, Carried y cast obj node := by
    intro obj member
    obtain ⟨i, here, rfl⟩ := List.mem_map.mp member
    exact carried i here
  choose! node carried using carried
  have carried : ∀ i ∈ v.entries, Carried y cast i.2 (node i.2) := fun i here =>
    carried i.2 (List.mem_map_of_mem here)
  have built := mapNode_eq v.nodupKeys carried
  refine ⟨_, ?_, restores _ ?_, fun text loaded => mapFromStr_eq carried loaded⟩
  · show (mapNode y cast v.entries).map y.emit = _
    rw [built]
    rfl
  · simp [mapWritten, built]

end Containers

end LexicalCast

/-! ## Every nesting -/

namespace ConfigType

open LexicalCast

variable (y : Yaml) {T : Type} [DecidableEq T] (ofScalar : LexicalCast (.scalar T))

/-- The nodes that are emitted while an object is converted to text and the text is converted back. -/
def written : ∀ t, (cppType T t).Obj → List (Option Node)
  | scalar, _ => []
  | vector t, v => sequenceWritten y (cast y ofScalar t) (written t) v
  | list t, v => sequenceWritten y (cast y ofScalar t) (written t) v
  | set t, v => sequenceWritten y (cast y ofScalar t) (written t) v.1
  | unorderedSet t, v => sequenceWritten y (cast y ofScalar t) (written t) v.1
  | map t, v => mapWritten y (cast y ofScalar t) (written t) v.entries
  | unorderedMap t, v => mapWritten y (cast y ofScalar t) (written t) v.entries

variable {y ofScalar}

/-- An element is carried by its node if it is a scalar or a container that is. -/
theorem carried {t : ConfigType} {i : (cppType T t).Obj} (scalars : ∀ x : T, ∃ node, Carried y ofScalar x node)
    (emitted : (∀ node ∈ written y ofScalar t i, y.Restores node) → t ≠ scalar →
      ∃ node, Emitted y (cast y ofScalar t) i node)
    (restores : ∀ node ∈ elementWritten y (cast y ofScalar t) (written y ofScalar t) i, y.Restores node) :
    ∃ node, Carried y (cast y ofScalar t) i node := by
  rcases eq_or_ne t scalar with rfl | container
  · exact scalars i
  · obtain ⟨node, emitted⟩ := emitted (fun node here => restores node (List.mem_append_left _ here)) container
    refine ⟨node.getD .null, emitted.carried fun node loads => restores _ (List.mem_append_right _ ?_)⟩
    rw [loads]
    exact List.mem_singleton_self _

theorem exists_emitted (scalars : ∀ x : T, ∃ node, Carried y ofScalar x node) (t : ConfigType) (v : (cppType T t).Obj)
    (restores : ∀ node ∈ written y ofScalar t v, y.Restores node) (container : t ≠ scalar) :
    ∃ node, Emitted y (cast y ofScalar t) v node := by
  induction t with
  | scalar => exact absurd rfl container
  | vector t ih =>
    apply vector_emitted _ restores
    intro i here
    exact carried scalars (ih i) fun node element => restores node (mem_sequenceWritten here element)
  | list t ih =>
    apply vector_emitted _ restores
    intro i here
    exact carried scalars (ih i) fun node element => restores node (mem_sequenceWritten here element)
  | set t ih =>
    apply set_emitted _ restores
    intro i here
    exact carried scalars (ih i) fun node element => restores node (mem_sequenceWritten here element)
  | unorderedSet t ih =>
    apply set_emitted _ restores
    intro i here
    exact carried scalars (ih i) fun node element => restores node (mem_sequenceWritten here element)
  | map t ih =>
    apply map_emitted _ restores
    intro i here
    exact carried scalars (ih i.2) fun node element => restores node (mem_mapWritten here element)
  | unorderedMap t ih =>
    apply map_emitted _ restores
    intro i here
    exact carried scalars (ih i.2) fun node element => restores node (mem_mapWritten here element)

/-- A container of any nesting is converted to a text that is converted back to its value, if what is emitted of
the nodes loads to equal nodes and every scalar is read from what is emitted of the node that its text loads to. -/
theorem fromStr_toStr (t : ConfigType) (container : t ≠ scalar) (v : (cppType T t).Obj)
    (restores : ∀ node ∈ written y ofScalar t v, y.load (y.emit node) = some (node.getD .null))
    (scalars : ∀ x : T, ∃ node, (ofScalar.toStr x).bind y.load = some node ∧
      ofScalar.fromStr (y.emit (some node)) = some x) :
    ((cast y ofScalar t).toStr v).bind (cast y ofScalar t).fromStr = some ((cppType T t).value v) := by
  have carried (x : T) : ∃ node, Carried y ofScalar x node := by
    obtain ⟨node, loads, reads⟩ := scalars x
    exact ⟨node, loads, reads⟩
  obtain ⟨node, emitted⟩ := exists_emitted carried t v restores container
  exact emitted.toStr_bind_fromStr

/-- Sequences of scalars and a sequence of one of them and an empty one, in the block style. -/
def blocks : Yaml where
  emit
    | none => []
    | some .null => "~".toList
    | some (.scalar text) => text
    | some (.sequence [.scalar a, .scalar b]) => "- ".toList ++ a ++ "\n- ".toList ++ b
    | some (.sequence [.sequence [.scalar a, .scalar b], .null]) =>
      "-\n  - ".toList ++ a ++ "\n  - ".toList ++ b ++ "\n- ~".toList
    | some _ => []
  load text :=
    if text = [] ∨ text = "~".toList then some .null
    else if text = "- 0\n- 1".toList then some (.sequence [.scalar ['0'], .scalar ['1']])
    else if text = "-\n  - 0\n  - 1\n- ~".toList then
      some (.sequence [.sequence [.scalar ['0'], .scalar ['1']], .null])
    else some (.scalar text)
  index _ := none

/-- `boost::lexical_cast` of a `bool`. -/
def ofBool : LexicalCast (.scalar Bool) where
  toStr := fun (x : Bool) => some (if x then ['1'] else ['0'])
  fromStr text := if text = ['1'] then some true else if text = ['0'] then some false else none

/-- A list of two sets of `bool`, one of them empty. -/
def sets : (cppType Bool (list (set scalar))).Obj := [⟨[false, true], by decide⟩, ⟨[], by decide⟩]

theorem sets_written : written blocks ofBool (list (set scalar)) sets =
    [some (.sequence [.sequence [.scalar ['0'], .scalar ['1']], .null]),
      some (.sequence [.scalar ['0'], .scalar ['1']]), some (.scalar ['0']), some (.scalar ['1']),
      some (.sequence [.scalar ['0'], .scalar ['1']]), none, some .null] := rfl

/-- The two sets are put into `-\n  - 0\n  - 1\n- ~` and are read from it. -/
theorem fromStr_toStr_sets : ((cast blocks ofBool (list (set scalar))).toStr sets).bind
      (cast blocks ofBool (list (set scalar))).fromStr = some ((cppType Bool (list (set scalar))).value sets) := by
  apply fromStr_toStr (list (set scalar)) ConfigType.noConfusion sets
  · rw [sets_written]
    simp only [List.forall_mem_cons]
    exact ⟨rfl, rfl, rfl, rfl, rfl, rfl, rfl, List.forall_mem_nil _⟩
  · intro x
    cases x with
    | true => exact ⟨.scalar ['1'], rfl, rfl⟩
    | false => exact ⟨.scalar ['0'], rfl, rfl⟩

end ConfigType

end Sylar
