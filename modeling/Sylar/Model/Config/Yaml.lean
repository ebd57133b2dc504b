import Sylar.Model.Text

/-! # `YAML::Node`

The trees that the configuration is read from and written to, with maps in the order they are iterated in. How
a tree is written as text and read back is a parameter wherever it is needed.
-/

namespace Sylar.YAML

inductive Node where
  | null
  | scalar (text : Text)
  | sequence (items : List Node)
  | map (entries : List (Text × Node))

namespace Node

/-- `push_back` on a default-constructed node or on a node, or nothing where it throws. -/
def pushBack : Option Node → Node → Option Node
  | none, item => some (.sequence [item])
  | some .null, item => some (.sequence [item])
  | some (.sequence items), item => some (.sequence (items ++ [item]))
  | some (.scalar _), _ => none
  | some (.map _), _ => none

/-- An entry is replaced in its place, or is put at the end. -/
def setEntry (key : Text) (value : Node) : List (Text × Node) → List (Text × Node)
  | [] => [(key, value)]
  | entry :: entries => if entry.1 = key then (key, value) :: entries else entry :: setEntry key value entries

/-- `node[key] = value`, or nothing where it throws. A sequence becomes a map of its indices. -/
def assign : Option Node → Text → Node → Option Node
  | none, key, value => some (.map [(key, value)])
  | some .null, key, value => some (.map [(key, value)])
  | some (.sequence items), key, value =>
    some (.map (setEntry key value (items.zipIdx.map fun item => (Nat.toDigits 10 item.2, item.1))))
  | some (.map entries), key, value => some (.map (setEntry key value entries))
  | some (.scalar _), _, _ => none

def size : Node → ℕ
  | .sequence items => items.length
  | .map entries => entries.length
  | .null => 0
  | .scalar _ => 0

/-- `node[i]` for `i < size()`. In a map it is the node of a key that reads as the number, which may be undefined. -/
def get (index : Text → Option ℕ) : Node → ℕ → Option Node
  | .sequence items, i => items[i]?
  | .map entries, i => (entries.find? fun entry => index entry.1 = some i).map Prod.snd
  | .null, _ => none
  | .scalar _, _ => none

/-- What `it->first.Scalar()` and `it->second` are from `begin()` to `end()`. An item of a sequence has no key, and
to ask it for one throws. -/
def pairs : Node → Option (List (Text × Node))
  | .map entries => some entries
  | .sequence [] => some []
  | .sequence (_ :: _) => none
  | .null => some []
  | .scalar _ => some []

end Node

end Sylar.YAML
