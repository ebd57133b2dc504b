import Sylar.Model.Config.LexicalCast
import Sylar.Model.Log.LogIniter

/-! # The text form of the `logs` variable

A definition is read from a node and printed as one, and `std::set<LogDefine>` is converted as the other containers are,
element by element. What `as<std::string>` makes of a null node, if it does not throw, is a parameter.
-/

namespace Sylar

open YAML (Node)

/-- What a `std::string` made from `s.c_str()` holds. -/
def cText (s : Text) : Text := s.takeWhile (· ≠ '\x00')

namespace LogLevel

/-- The comparisons are those of `strcmp`. -/
def FromString (str : Text) : LogLevel :=
  let str := cText (str.map Char.toUpper)
  if str = "DEBUG".toList then 1
  else if str = "INFO".toList then 2
  else if str = "WARN".toList then 3
  else if str = "ERROR".toList then 4
  else if str = "FATAL".toList then 5
  else UNKNOWN

end LogLevel

namespace YAML.Node

/-- `node[key]`, which may be undefined, or nothing where it throws. A node that is undefined has no entries. -/
def entry (key : Text) : Option Node → Option (Option Node)
  | some (.map entries) => some ((entries.find? (·.1 = key)).map Prod.snd)
  | some (.scalar _) => none
  | _ => some none

/-- `as<std::string>()`, or nothing where it throws. -/
def asString (null : Option Text) : Node → Option Text
  | .scalar text => some text
  | .null => null
  | _ => none

end YAML.Node

section From

variable (y : Yaml) (null : Option Text)

/-- `value = node[key].as<std::string>()` if `node[key]` is defined. -/
def stringOr (default : Text) (key : String) (node : Option Node) : Option Text := do
  match ← Node.entry key.toList node with
  | some value => value.asString null
  | none => return default

/-- `value = LogLevel::FromString(node["level"].as<std::string>().c_str())` if `node["level"]` is defined. -/
def levelOr (default : LogLevel) (node : Option Node) : Option LogLevel := do
  match ← Node.entry "level".toList node with
  | some value => return LogLevel.FromString (cText (← value.asString null))
  | none => return default

namespace LogAppenderDefine

/-- The level and the formatter of an appender whose other members are set. -/
def fillFrom (a : Option Node) (lad : LogAppenderDefine) : Option LogAppenderDefine := do
  let level ← levelOr null lad.level a
  let formatter ← stringOr null lad.formatter "formatter" a
  return { lad with level, formatter }

/-- One round of the loop over the appenders: a definition, or none if the appender is ignored. -/
def fromNode (a : Option Node) : Option (Option LogAppenderDefine) := do
  match ← Node.entry "type".toList a with
  | none => return none
  | some type =>
    let type ← type.asString null
    if type = "FileLogAppender".toList then
      match ← Node.entry "file".toList a with
      | none => return none
      | some file => return some (← fillFrom null a { type := 1, file := ← file.asString null })
    else if type = "StdoutLogAppender".toList then return some (← fillFrom null a { type := 2 })
    else return none

end LogAppenderDefine

namespace LogDefine

/-- The loop over the appenders, if there are any. -/
def appendersFrom (node : Option Node) : Option (List LogAppenderDefine) := do
  match ← Node.entry "appenders".toList node with
  | none => return []
  | some list =>
    (List.range list.size).foldlM (fun appenders x => do
      return appenders ++ (← LogAppenderDefine.fromNode null (list.get y.index x)).toList) []

/-- `LexicalCast<std::string, LogDefine>`. -/
def fromStr (v : Text) : Option LogDefine := do
  let node ← y.load v
  match ← Node.entry "name".toList (some node) with
  | some (.scalar name) =>
    let level ← stringOr null [] "level" (some node)
    let formatter ← stringOr null [] "formatter" (some node)
    let appenders ← appendersFrom y null (some node)
    return { name, level := LogLevel.FromString (cText level), formatter, appenders }
  | _ => return { name := [] }

end LogDefine

end From

/-- `node[key] = text`. -/
def assignText (key : String) (text : Text) (node : Option Node) : Option (Option Node) := do
  return some (← Node.assign node key.toList (.scalar text))

/-- The node `na` of an appender. -/
def LogAppenderDefine.toNode (it : LogAppenderDefine) : Option (Option Node) := do
  let na ← if it.type = 1 then do
      assignText "file" it.file (← assignText "type" "FileLogAppender".toList none)
    else if it.type = 2 then assignText "type" "StdoutLogAppender".toList none
    else some none
  let na ← assignText "level" it.level.ToString na
  assignText "formatter" it.formatter na

namespace LogDefine

/-- `node["appenders"].push_back(na)`. -/
def pushAppender (node : Option Node) (it : LogAppenderDefine) : Option (Option Node) := do
  let na ← it.toNode
  let appenders ← Node.pushBack (← Node.entry "appenders".toList node) (na.getD .null)
  return some (← Node.assign node "appenders".toList appenders)

/-- The node of a definition. -/
def toNode (ld : LogDefine) : Option (Option Node) := do
  let node ← assignText "name" ld.name none
  let node ← assignText "level" ld.level.ToString node
  let node ← assignText "formatter" ld.formatter node
  ld.appenders.foldlM pushAppender node

/-- The conversions of a definition. -/
def cast (y : Yaml) (null : Option Text) : LexicalCast (.scalar LogDefine) where
  toStr := fun (ld : LogDefine) => ld.toNode.map y.emit
  fromStr := fromStr y null

end LogDefine

namespace LogDefines

/-- Where `operator<` puts a definition, unless there is one of its name. -/
def insertSorted (ld : LogDefine) : List LogDefine → List LogDefine
  | [] => [ld]
  | other :: defs =>
      if ld.name < other.name then ld :: other :: defs
      else if other.name < ld.name then other :: insertSorted ld defs
      else other :: defs

theorem mem_insertSorted {ld other : LogDefine} {defs : List LogDefine} (member : other ∈ insertSorted ld defs) :
    other = ld ∨ other ∈ defs := by
  induction defs with
  | nil => exact .inl (List.mem_singleton.mp member)
  | cons first defs ih =>
    rw [insertSorted] at member
    split at member
    · exact List.mem_cons.mp member
    split at member
    · rcases List.mem_cons.mp member with rfl | later
      · exact .inr List.mem_cons_self
      · exact (ih later).imp id (List.mem_cons_of_mem _)
    · exact .inr member

theorem sorted_insertSorted (ld : LogDefine) {defs : List LogDefine}
    (sorted : defs.Pairwise fun one other => one.name < other.name) :
    (insertSorted ld defs).Pairwise fun one other => one.name < other.name := by
  induction defs with
  | nil => exact List.pairwise_singleton _ _
  | cons first defs ih =>
    obtain ⟨least, rest⟩ := List.pairwise_cons.mp sorted
    rw [insertSorted]
    split
    · next before =>
      refine List.pairwise_cons.mpr ⟨fun other member => ?_, sorted⟩
      rcases List.mem_cons.mp member with rfl | later
      · exact before
      · exact List.lt_trans before (least other later)
    split
    · next behind =>
      refine List.pairwise_cons.mpr ⟨fun other member => ?_, ih rest⟩
      rcases mem_insertSorted member with rfl | later
      · exact behind
      · exact least other later
    · exact sorted

theorem sorted_nil : ([] : List LogDefine).Pairwise fun one other => one.name < other.name := .nil

/-- `insert`. -/
def insert (s : LogDefines) (ld : LogDefine) : LogDefines := ⟨insertSorted ld s.defs, sorted_insertSorted ld s.sorted⟩

/-- `LexicalCast<std::set<LogDefine>, std::string>`. -/
def toStr (y : Yaml) (null : Option Text) (s : LogDefines) : Option Text :=
  (LogDefine.cast y null).sequenceToStr y s.defs

/-- `LexicalCast<std::string, std::set<LogDefine>>`. -/
def fromStr (y : Yaml) (null : Option Text) (v : Text) : Option LogDefines :=
  LexicalCast.sequenceFromStr (C := LogDefines) y (LogDefine.cast y null) insert ⟨[], sorted_nil⟩ v

end LogDefines

end Sylar
