import Mathlib.Logic.Function.Basic
import Sylar.Model.Config.ConfigVar
import Sylar.Model.Config.Yaml

/-! # `Config::LoadFromYaml`

The tree is first written down as a list of the names and nodes in it, and then each node that has a name of a
variable is converted to a value of it. A conversion that throws has no result. The emitter of YAML and the
conversions are parameters.
-/

namespace Sylar.Config

open ConfigVar (Notification)
open YAML (Node)

/-- A variable, with the calls of its listeners so far. -/
structure Var (V : Type) where
  val : V
  cbs : List ℕ
  notified : List (Notification V)

namespace Var

variable {V : Type} [DecidableEq V]

/-- `ConfigVar::setValue`, alone. -/
def setValue (v : V) (var : Var V) : Var V :=
  if v = var.val then var
  else { var with val := v, notified := var.notified ++ var.cbs.map fun listener => ⟨listener, var.val, v⟩ }

/-- `ConfigVar::fromString`, which catches what the conversion throws. -/
def fromString (conv : Text → Option V) (val : Text) (var : Var V) : Var V :=
  match conv val with
  | none => var
  | some v => var.setValue v

end Var

/-- The characters of `find_first_not_of`. -/
def alphabet : List Char := "abcdefghijkmlnopkrstuvwxyz._0123456789".toList

/-- `find_first_not_of` finds nothing. -/
def isName (text : Text) : Bool := text.all alphabet.contains

/-- The name of a member. -/
def member (pre key : Text) : Text := if pre = [] then key else pre ++ '.' :: key

mutual

/-- `ListAllMember`. -/
def listAllMember (pre : Text) : Node → List (Text × Node)
  | .map entries => if isName pre then (pre, .map entries) :: listEntries pre entries else []
  | .null => if isName pre then [(pre, .null)] else []
  | .scalar text => if isName pre then [(pre, .scalar text)] else []
  | .sequence items => if isName pre then [(pre, .sequence items)] else []

/-- The loop over the members of a map. -/
def listEntries (pre : Text) : List (Text × Node) → List (Text × Node)
  | [] => []
  | (key, node) :: entries => listAllMember (member pre key) node ++ listEntries pre entries

end

/-- `std::transform` with `tolower`. -/
def tolower (text : Text) : Text := text.map Char.toLower

/-- The text that a node is converted from. -/
def textOf (emit : Node → Text) : Node → Text
  | .scalar text => text
  | node => emit node

section Load

variable {V : Text → Type} [∀ name, DecidableEq (V name)] (emit : Node → Text) (conv : ∀ name, Text → Option (V name))

/-- One round of the loop over the list: the variable under the name in `GetDatas()`, if there is one, is set. -/
def loadNode (datas : ∀ name, Option (Var (V name))) (i : Text × Node) : ∀ name, Option (Var (V name)) :=
  if i.1 = [] then datas
  else
    let key := tolower i.1
    Function.update datas key ((datas key).map (Var.fromString (conv key) (textOf emit i.2)))

/-- `LoadFromYaml`. -/
def loadFromYaml (root : Node) (datas : ∀ name, Option (Var (V name))) : ∀ name, Option (Var (V name)) :=
  (listAllMember [] root).foldl (loadNode emit conv) datas

end Load

end Sylar.Config
