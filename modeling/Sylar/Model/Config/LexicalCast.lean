import Mathlib.Data.Finmap
import Sylar.Model.Config.Yaml

/-! # `LexicalCast`

The conversions of the containers to text and from text, for every nesting of them. An object is given with the
order it is iterated in, and its value is what its `==` compares. The library of YAML and the conversions of the
scalars are parameters. A conversion that throws has no result.
-/

namespace Sylar

open YAML (Node)

/-- What the conversions use of YAML: `<<`, of a default-constructed node where there is none, `YAML::Load`, whose
default-constructed result reads as null, and the number that a key reads as. -/
structure Yaml where
  emit : Option Node → Text
  load : Text → Option Node
  index : Text → Option ℕ

/-- The objects of a type and their values. -/
structure CppType where
  Obj : Type
  Val : Type
  eq : DecidableEq Val
  value : Obj → Val

namespace CppType

instance (r : CppType) : DecidableEq r.Val := r.eq

def scalar (T : Type) [DecidableEq T] : CppType := ⟨T, T, inferInstance, id⟩

/-- `std::vector` and `std::list`. -/
def sequence (r : CppType) : CppType := ⟨List r.Obj, List r.Val, inferInstance, List.map r.value⟩

/-- `std::set` and `std::unordered_set`. -/
def set (r : CppType) : CppType where
  Obj := {items : List r.Obj // (items.map r.value).Nodup}
  Val := Finset r.Val
  eq := inferInstance
  value v := (v.1.map r.value).toFinset

/-- `std::map` and `std::unordered_map`, with keys that are strings. -/
def map (r : CppType) : CppType where
  Obj := AList fun _ : Text => r.Obj
  Val := Finmap fun _ : Text => r.Val
  eq := inferInstance
  value v := (AList.mk _ (v.nodupKeys.map₂ fun _ => r.value)).toFinmap

end CppType

/-- `LexicalCast<F, std::string>` and `LexicalCast<std::string, F>`. -/
structure LexicalCast (r : CppType) where
  toStr : r.Obj → Option Text
  fromStr : Text → Option r.Val

namespace LexicalCast

variable (y : Yaml) {r : CppType} (cast : LexicalCast r)

/-- The node that the elements are put into. -/
def sequenceNode (v : List r.Obj) : Option (Option Node) :=
  v.foldlM (fun node i => do return some (← Node.pushBack node (← y.load (← cast.toStr i)))) none

def sequenceToStr (v : List r.Obj) : Option Text := (sequenceNode y cast v).map y.emit

/-- The elements of a node, each put into the container. -/
def sequenceFromStr {C : Type} (put : C → r.Val → C) (empty : C) (v : Text) : Option C := do
  let node ← y.load v
  (List.range node.size).foldlM (fun vec i => do return put vec (← cast.fromStr (y.emit (node.get y.index i)))) empty

def vector : LexicalCast r.sequence where
  toStr := sequenceToStr y cast
  fromStr := sequenceFromStr (C := List r.Val) y cast (fun vec i => vec ++ [i]) []

def list : LexicalCast r.sequence where
  toStr := sequenceToStr y cast
  fromStr := sequenceFromStr (C := List r.Val) y cast (fun vec i => vec ++ [i]) []

def set : LexicalCast r.set where
  toStr v := sequenceToStr y cast v.1
  fromStr := sequenceFromStr (C := Finset r.Val) y cast (fun vec i => insert i vec) ∅

def unorderedSet : LexicalCast r.set where
  toStr v := sequenceToStr y cast v.1
  fromStr := sequenceFromStr (C := Finset r.Val) y cast (fun vec i => insert i vec) ∅

/-- The node that the entries are put into. -/
def mapNode (v : List (Σ _ : Text, r.Obj)) : Option (Option Node) :=
  v.foldlM (fun node i => do return some (← Node.assign node i.1 (← y.load (← cast.toStr i.2)))) none

def mapToStr (v : AList fun _ : Text => r.Obj) : Option Text := (mapNode y cast v.entries).map y.emit

/-- `insert` of a pair, which leaves an entry of the key as it is. -/
def insertPair (vec : Finmap fun _ : Text => r.Val) (key : Text) (i : r.Val) : Finmap fun _ : Text => r.Val :=
  if key ∈ vec then vec else vec.insert key i

def mapFromStr (v : Text) : Option (Finmap fun _ : Text => r.Val) := do
  let node ← y.load v
  (← node.pairs).foldlM (fun vec it => do return insertPair vec it.1 (← cast.fromStr (y.emit (some it.2)))) ∅

def map : LexicalCast r.map where
  toStr := mapToStr y cast
  fromStr := mapFromStr y cast

def unorderedMap : LexicalCast r.map where
  toStr := mapToStr y cast
  fromStr := mapFromStr y cast

end LexicalCast

/-- The types that are built from a scalar type by the containers. -/
inductive ConfigType where
  | scalar
  | vector (t : ConfigType)
  | list (t : ConfigType)
  | set (t : ConfigType)
  | unorderedSet (t : ConfigType)
  | map (t : ConfigType)
  | unorderedMap (t : ConfigType)

namespace ConfigType

def cppType (T : Type) [DecidableEq T] : ConfigType → CppType
  | scalar => .scalar T
  | vector t => (t.cppType T).sequence
  | list t => (t.cppType T).sequence
  | set t => (t.cppType T).set
  | unorderedSet t => (t.cppType T).set
  | map t => (t.cppType T).map
  | unorderedMap t => (t.cppType T).map

/-- The specialisation of a type, from the one of the scalars. -/
def cast (y : Yaml) {T : Type} [DecidableEq T] (ofScalar : LexicalCast (.scalar T)) : ∀ t, LexicalCast (cppType T t)
  | scalar => ofScalar
  | vector t => .vector y (cast y ofScalar t)
  | list t => .list y (cast y ofScalar t)
  | set t => .set y (cast y ofScalar t)
  | unorderedSet t => .unorderedSet y (cast y ofScalar t)
  | map t => .map y (cast y ofScalar t)
  | unorderedMap t => .unorderedMap y (cast y ofScalar t)

end ConfigType

end Sylar
