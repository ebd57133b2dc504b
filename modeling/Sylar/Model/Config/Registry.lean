import Sylar.Machine.Path
import Sylar.Model.Config.Config

/-! # `GetDatas()`, with `Lookup` and `LookupBase`

Variables of several types stand in one table under their names. `Lookup` is called with a type and with any
spelling of a name, and makes a new variable where it finds none. The loop of `LoadFromYaml` takes the mutex
anew for every node, so that calls of `Lookup` may come between two rounds of it.
-/

namespace Sylar.Config

open YAML (Node)

variable {τ : Type} [DecidableEq τ]

/-- A `ConfigVarBase::ptr` other than null. -/
abbrev VarPtr := ℕ

/-- A `ConfigVar<T>`, as its base. -/
structure VarBase (V : τ → Type) where
  type : τ
  var : Var (V type)

/-- What `Lookup` throws. -/
inductive LookupFault where
  | invalidArgument (name : Text)
deriving DecidableEq, Repr

/-- `GetDatas()`, and the variables that have been made, in their order. -/
structure Registry (V : τ → Type) where
  datas : Text → Option VarPtr
  vars : List (VarBase V)

namespace Registry

variable {V : τ → Type}

def empty : Registry V where
  datas _ := none
  vars := []

/-- `std::dynamic_pointer_cast<ConfigVar<T>>`. -/
def cast (type : τ) (r : Registry V) (p : VarPtr) : Option VarPtr :=
  match r.vars[p]? with
  | none => none
  | some base => if base.type = type then some p else none

/-- `Lookup<T>(name, default_value)`. -/
def lookup (type : τ) (name : Text) (default_value : V type) (r : Registry V) :
    Except LookupFault (Option VarPtr × Registry V) :=
  match r.datas (tolower name) with
  | some p => .ok (r.cast type p, r)
  | none =>
    if isName name then
      let v := r.vars.length
      .ok (some v, {
        datas := Function.update r.datas name (some v)
        vars := r.vars ++ [⟨type, ⟨default_value, [], []⟩⟩] })
    else .error (.invalidArgument name)

/-- `Lookup<T>(name)`. -/
def find (type : τ) (name : Text) (r : Registry V) : Option VarPtr := (r.datas (tolower name)).bind (r.cast type)

def lookupBase (name : Text) (r : Registry V) : Option VarPtr := r.datas name

/-- What a holder of a pointer does to the variable: `setValue`, `addListener`, `fromString` and the like. -/
def change (p : VarPtr) (f : ∀ type, Var (V type) → Var (V type)) (r : Registry V) : Registry V :=
  { r with vars := r.vars.modify p fun base => { base with var := f base.type base.var } }

section Load

variable [∀ type, DecidableEq (V type)] (emit : Node → Text) (conv : ∀ type, Text → Option (V type))

/-- `var->fromString(val)`. -/
def fromString (r : Registry V) (call : VarPtr × Text) : Registry V :=
  r.change call.1 fun type => Var.fromString (conv type) call.2

/-- The call of `fromString` in one round of the loop of `LoadFromYaml`, if there is one. -/
def call (r : Registry V) (i : Text × Node) : Option (VarPtr × Text) :=
  if i.1 = [] then none else (r.lookupBase (tolower i.1)).map fun var => (var, textOf emit i.2)

def loadNode (r : Registry V) (i : Text × Node) : Registry V :=
  match r.call emit i with
  | none => r
  | some call => r.fromString conv call

def loadFromYaml (root : Node) (r : Registry V) : Registry V :=
  (listAllMember [] root).foldl (loadNode emit conv) r

/-- The calls of `fromString` that `LoadFromYaml` makes. -/
def calls (root : Node) (r : Registry V) : List (VarPtr × Text) := (listAllMember [] root).filterMap (r.call emit)

inductive Action (V : τ → Type) where
  | lookup (type : τ) (name : Text) (default_value : V type)
  | loadNode (i : Text × Node)
  | change (p : VarPtr) (f : ∀ type, Var (V type) → Var (V type))

/-- A call of `Lookup` that throws leaves the table as it is. -/
def perform (r : Registry V) : Action V → Registry V
  | .lookup type name default_value => ((r.lookup type name default_value).toOption.map Prod.snd).getD r
  | .loadNode i => r.loadNode emit conv i
  | .change p f => r.change p f

def machine : Machine (Registry V) (Action V) := .ofNext (· = empty) fun r action => some (r.perform emit conv action)

end Load

end Registry

end Sylar.Config
