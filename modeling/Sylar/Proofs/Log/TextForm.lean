import Mathlib.Tactic.IntervalCases
import Sylar.Model.Log.LogDefineCast
import Sylar.Proofs.Config.LexicalCast

/-! # The text form of the `logs` variable is stable

What has been read from a text has levels that have names, and appenders of the two types, of which only those of files
have a file. A definition of this kind is printed as a node from which it is read again.
-/

namespace Sylar

open YAML (Node)

variable {y : Yaml} {null : Option Text} {a : Option Node} {it lad : LogAppenderDefine} {ld : LogDefine}

/-! ## Levels -/

namespace LogLevel

theorem FromString_le (str : Text) : FromString str ≤ 5 := by
  unfold FromString
  dsimp only
  split_ifs <;> decide

theorem FromString_ToString {level : LogLevel} (named : level ≤ 5) : FromString (cText level.ToString) = level := by
  interval_cases level <;> rfl

end LogLevel

/-! ## What is read -/

namespace LogAppenderDefine

structure Readable (it : LogAppenderDefine) : Prop where
  type : it.type = 1 ∨ it.type = 2 ∧ it.file = []
  level : it.level ≤ 5

theorem levelOr_le {default level : LogLevel} (read : levelOr null default a = some level) (named : default ≤ 5) :
    level ≤ 5 := by
  unfold levelOr at read
  obtain ⟨value, -, read⟩ := Option.bind_eq_some_iff.mp read
  cases value with
  | none =>
    obtain rfl := Option.some.inj read
    exact named
  | some value =>
    obtain ⟨text, -, read⟩ := Option.bind_eq_some_iff.mp read
    obtain rfl := Option.some.inj read
    exact LogLevel.FromString_le _

theorem Readable.fillFrom {filled : LogAppenderDefine} (read : lad.fillFrom null a = some filled)
    (readable : lad.Readable) : filled.Readable := by
  unfold LogAppenderDefine.fillFrom at read
  obtain ⟨level, named, read⟩ := Option.bind_eq_some_iff.mp read
  obtain ⟨formatter, -, read⟩ := Option.bind_eq_some_iff.mp read
  obtain rfl := Option.some.inj read
  exact ⟨readable.type, levelOr_le named readable.level⟩

theorem readable_fromNode (read : fromNode null a = some (some it)) : it.Readable := by
  unfold fromNode at read
  obtain ⟨type, -, read⟩ := Option.bind_eq_some_iff.mp read
  cases type with
  | none => cases read
  | some type =>
    obtain ⟨name, -, read⟩ := Option.bind_eq_some_iff.mp read
    split at read
    · obtain ⟨file, -, read⟩ := Option.bind_eq_some_iff.mp read
      cases file with
      | none => cases read
      | some file =>
        obtain ⟨path, -, read⟩ := Option.bind_eq_some_iff.mp read
        obtain ⟨filled, filling, read⟩ := Option.bind_eq_some_iff.mp read
        obtain rfl := Option.some.inj (Option.some.inj read)
        exact Readable.fillFrom filling ⟨.inl rfl, Nat.zero_le 5⟩
    · split at read
      · obtain ⟨filled, filling, read⟩ := Option.bind_eq_some_iff.mp read
        obtain rfl := Option.some.inj (Option.some.inj read)
        exact Readable.fillFrom filling ⟨.inr ⟨rfl, rfl⟩, Nat.zero_le 5⟩
      · cases read

end LogAppenderDefine

namespace LogDefine

structure Readable (ld : LogDefine) : Prop where
  level : ld.level ≤ 5
  appenders : ∀ it ∈ ld.appenders, it.Readable

theorem readable_appendersFrom {node : Option Node} {appenders : List LogAppenderDefine}
    (read : appendersFrom y null node = some appenders) : ∀ it ∈ appenders, it.Readable := by
  unfold appendersFrom at read
  obtain ⟨list, -, read⟩ := Option.bind_eq_some_iff.mp read
  cases list with
  | none =>
    obtain rfl := Option.some.inj read
    exact nofun
  | some list =>
    refine List.foldlM_invariant (fun before x after readable round => ?_) read (P := fun appenders =>
      ∀ it ∈ appenders, it.Readable) nofun
    obtain ⟨next, parsed, round⟩ := Option.bind_eq_some_iff.mp round
    obtain rfl := Option.some.inj round
    intro it member
    rcases List.mem_append.mp member with member | member
    · exact readable it member
    · obtain rfl := Option.mem_toList.mp member
      exact LogAppenderDefine.readable_fromNode parsed

theorem readable_fromStr {v : Text} (read : fromStr y null v = some ld) : ld.Readable := by
  unfold fromStr at read
  obtain ⟨node, -, read⟩ := Option.bind_eq_some_iff.mp read
  obtain ⟨name, -, read⟩ := Option.bind_eq_some_iff.mp read
  split at read
  · obtain ⟨level, -, read⟩ := Option.bind_eq_some_iff.mp read
    obtain ⟨formatter, -, read⟩ := Option.bind_eq_some_iff.mp read
    obtain ⟨appenders, parsed, read⟩ := Option.bind_eq_some_iff.mp read
    obtain rfl := Option.some.inj read
    exact ⟨LogLevel.FromString_le _, readable_appendersFrom parsed⟩
  · obtain rfl := Option.some.inj read
    exact ⟨Nat.zero_le 5, nofun⟩

end LogDefine

namespace LogDefines

theorem readable_fromStr {v : Text} {s : LogDefines} (read : fromStr y null v = some s) :
    ∀ ld ∈ s.defs, ld.Readable := by
  unfold fromStr LexicalCast.sequenceFromStr at read
  obtain ⟨node, -, read⟩ := Option.bind_eq_some_iff.mp read
  refine List.foldlM_invariant (fun before x after readable round => ?_) read (P := fun s : LogDefines =>
    ∀ ld ∈ s.defs, ld.Readable) nofun
  obtain ⟨next, parsed, round⟩ := Option.bind_eq_some_iff.mp round
  obtain rfl := Option.some.inj round
  intro ld member
  rcases mem_insertSorted member with rfl | earlier
  · exact LogDefine.readable_fromStr parsed
  · exact readable ld earlier

end LogDefines

/-! ## What is printed -/

/-- The entries of an appender. -/
def LogAppenderDefine.entries (it : LogAppenderDefine) : List (Text × Node) :=
  (if it.type = 1 then [("type".toList, .scalar "FileLogAppender".toList), ("file".toList, .scalar it.file)]
    else [("type".toList, .scalar "StdoutLogAppender".toList)]) ++
      [("level".toList, .scalar it.level.ToString), ("formatter".toList, .scalar it.formatter)]

theorem LogAppenderDefine.toNode_eq (readable : it.Readable) : it.toNode = some (some (.map it.entries)) := by
  obtain ⟨type, level, formatter, file⟩ := it
  obtain ⟨rfl | ⟨rfl, -⟩, -⟩ := readable
  · rfl
  · rfl

theorem LogAppenderDefine.fromNode_entries (readable : it.Readable) :
    fromNode null (some (.map it.entries)) = some (some it) := by
  obtain ⟨type, level, formatter, file⟩ := it
  have again := LogLevel.FromString_ToString readable.level
  dsimp only at again
  obtain ⟨rfl | ⟨rfl, empty⟩, -⟩ := readable
  · refine Eq.trans (b := some (some ⟨1, LogLevel.FromString (cText level.ToString), formatter, file⟩)) rfl ?_
    rw [again]
  · obtain rfl : file = [] := empty
    refine Eq.trans (b := some (some ⟨2, LogLevel.FromString (cText level.ToString), formatter, []⟩)) rfl ?_
    rw [again]

namespace LogDefine

/-- The entry for some appenders, if there are any. -/
def appendersEntry : List LogAppenderDefine → List (Text × Node)
  | [] => []
  | it :: rest => [("appenders".toList, .sequence ((it :: rest).map fun it => .map it.entries))]

/-- The entries of a definition. -/
def entries (ld : LogDefine) (appenders : List LogAppenderDefine) : List (Text × Node) :=
  ("name".toList, .scalar ld.name) :: ("level".toList, .scalar ld.level.ToString) ::
    ("formatter".toList, .scalar ld.formatter) :: appendersEntry appenders

theorem pushAppender_entries (readable : it.Readable) (done : List LogAppenderDefine) :
    pushAppender (some (.map (ld.entries done))) it = some (some (.map (ld.entries (done ++ [it])))) := by
  unfold pushAppender
  rw [LogAppenderDefine.toNode_eq readable]
  cases done with
  | nil => rfl
  | cons first done =>
    refine Eq.trans (b := some (some (.map (("name".toList, .scalar ld.name) ::
      ("level".toList, .scalar ld.level.ToString) :: ("formatter".toList, .scalar ld.formatter) ::
      [("appenders".toList, .sequence (((first :: done).map fun it => .map it.entries) ++ [.map it.entries]))])))) rfl ?_
    simp [entries, appendersEntry]

theorem toNode_eq (readable : ld.Readable) : ld.toNode = some (some (.map (ld.entries ld.appenders))) := by
  have pushed := List.foldlM_concat (fun done => some (Node.map (ld.entries done))) [] fun done it member =>
    pushAppender_entries (readable.appenders it member) done
  exact pushed

/-- The appenders are read from their nodes one after the other. -/
theorem appendersFrom_entries (ld : LogDefine) (appenders : List LogAppenderDefine)
    (readable : ∀ it ∈ appenders, it.Readable) :
    appendersFrom y null (some (.map (ld.entries appenders))) = some appenders := by
  cases appenders with
  | nil => rfl
  | cons first rest =>
    let read (appenders : List LogAppenderDefine) (a : Option Node) : Option (List LogAppenderDefine) := do
      return appenders ++ (← LogAppenderDefine.fromNode null a).toList
    have ranged := List.foldlM_range_getElem? read ((first :: rest).map fun it => .map it.entries) []
    rw [List.foldlM_map] at ranged
    refine ranged.trans (List.foldlM_concat id [] fun done it member => ?_)
    change read done _ = _
    dsimp only [read]
    rw [LogAppenderDefine.fromNode_entries (readable it member)]
    rfl

theorem fromStr_entries (readable : ld.Readable) {text : Text}
    (loaded : y.load text = some (.map (ld.entries ld.appenders))) : fromStr y null text = some ld := by
  have appenders : appendersFrom y null (some (.map (ld.entries ld.appenders))) = some ld.appenders :=
    appendersFrom_entries ld ld.appenders readable.appenders
  unfold fromStr
  rw [loaded]
  refine Eq.trans (b := (appendersFrom y null (some (.map (ld.entries ld.appenders)))).bind fun appenders =>
    some ⟨ld.name, LogLevel.FromString (cText ld.level.ToString), ld.formatter, appenders⟩) rfl ?_
  rw [appenders, Option.bind_some, LogLevel.FromString_ToString readable.level]

end LogDefine

/-! ## The set -/

namespace LogDefines

/-- A definition behind all others is put at the end. -/
theorem insertSorted_last {defs : List LogDefine} (last : ∀ other ∈ defs, other.name < ld.name) :
    insertSorted ld defs = defs ++ [ld] := by
  induction defs with
  | nil => rfl
  | cons first defs ih =>
    obtain ⟨before, last⟩ := List.forall_mem_cons.mp last
    rw [insertSorted, if_neg (List.lt_asymm before), if_pos before, ih last]
    rfl

/-- The definitions of a set, inserted in their order, are that set. -/
theorem foldl_insert (s : LogDefines) : s.defs.foldl insert ⟨[], .nil⟩ = s := by
  have inserted (before : LogDefines) (rest : List LogDefine)
      (sorted : (before.defs ++ rest).Pairwise fun one other => one.name < other.name) :
      (rest.foldl insert before).defs = before.defs ++ rest := by
    induction rest generalizing before with
    | nil => rw [List.append_nil]; rfl
    | cons ld rest ih =>
      have last : ∀ other ∈ before.defs, other.name < ld.name := fun other member =>
        (List.pairwise_append.mp sorted).2.2 other member ld List.mem_cons_self
      have step : (before.insert ld).defs = before.defs ++ [ld] := insertSorted_last last
      have again := ih (before.insert ld) (by rwa [step, List.append_assoc])
      rw [step, List.append_assoc] at again
      exact again
  have whole := inserted ⟨[], .nil⟩ s.defs s.sorted
  obtain ⟨defs, sorted⟩ := s
  generalize List.foldl insert ⟨[], .nil⟩ defs = after at whole ⊢
  obtain ⟨after, sorted⟩ := after
  obtain rfl : after = defs := whole
  rfl

/-- The nodes that are emitted while a set is converted to text and the text is converted back: that of the set, and
those of the definitions in it. -/
def written (y : Yaml) (null : Option Text) (s : LogDefines) : List (Option Node) :=
  ((LogDefine.cast y null).sequenceNode y s.defs).toList ++ s.defs.flatMap fun ld => ld.toNode.toList

/-- A definition whose node is loaded from its text comes back from it. -/
theorem carried_of_loaded (readable : ld.Readable)
    (loaded : y.load (y.emit (some (.map (ld.entries ld.appenders)))) = some (.map (ld.entries ld.appenders))) :
    LexicalCast.Carried y (LogDefine.cast y null) ld (.map (ld.entries ld.appenders)) := by
  refine ⟨?_, LogDefine.fromStr_entries readable loaded⟩
  change (ld.toNode.map y.emit).bind y.load = _
  rw [LogDefine.toNode_eq readable]
  exact loaded

/-- The nodes are those of the definitions and the sequence of them. -/
theorem written_eq {v : Text} {s : LogDefines} (read : fromStr y null v = some s)
    (loads : ∀ ld ∈ s.defs,
      y.load (y.emit (some (.map (ld.entries ld.appenders)))) = some (.map (ld.entries ld.appenders))) :
    written y null s = Node.ofItems (s.defs.map fun ld => .map (ld.entries ld.appenders)) ::
      s.defs.map fun ld => some (.map (ld.entries ld.appenders)) := by
  have readable := readable_fromStr read
  have built : (LogDefine.cast y null).sequenceNode y s.defs =
      some (Node.ofItems (s.defs.map fun ld => .map (ld.entries ld.appenders))) :=
    LexicalCast.sequenceNode_eq fun ld member => carried_of_loaded (readable ld member) (loads ld member)
  rw [written, built]
  refine congrArg (_ :: ·) ?_
  rw [List.map_eq_flatMap]
  apply List.flatMap_congr
  intro ld member
  rw [LogDefine.toNode_eq (readable ld member)]
  rfl

/-- A set that has been read from a text is printed as a text that is read as the set again, if what is emitted of the
nodes loads to equal nodes. -/
theorem fromStr_toStr_stable {v : Text} {s : LogDefines} (read : fromStr y null v = some s)
    (restores : ∀ node ∈ written y null s, y.load (y.emit node) = some (node.getD .null)) :
    (toStr y null s).bind (fromStr y null) = some s := by
  have readable := readable_fromStr read
  have carried : ∀ ld ∈ s.defs,
      LexicalCast.Carried y (LogDefine.cast y null) ld (.map (LogDefine.entries ld ld.appenders)) := by
    intro ld member
    apply carried_of_loaded (readable ld member)
    apply restores
    refine List.mem_append_right _ (List.mem_flatMap.mpr ⟨ld, member, ?_⟩)
    rw [LogDefine.toNode_eq (readable ld member)]
    exact List.mem_singleton_self _
  have built : (LogDefine.cast y null).sequenceNode y s.defs =
      some (Node.ofItems (s.defs.map fun ld => .map (ld.entries ld.appenders))) := LexicalCast.sequenceNode_eq carried
  have loaded := restores _ (List.mem_append_left _ (Option.mem_toList.mpr built))
  have again : fromStr y null (y.emit (Node.ofItems (s.defs.map fun ld => .map (ld.entries ld.appenders)))) =
      some ((s.defs.map id).foldl insert ⟨[], .nil⟩) :=
    LexicalCast.sequenceFromStr_eq (y := y) (r := .scalar LogDefine) (v := s.defs) insert ⟨[], .nil⟩ carried loaded
  rw [List.map_id, foldl_insert] at again
  have printed : toStr y null s = some (y.emit (Node.ofItems (s.defs.map fun ld => .map (ld.entries ld.appenders)))) :=
    congrArg (Option.map y.emit) built
  rw [printed]
  exact again

/-! ## YAML in the block style -/

/-- A scalar, with quotes where it needs them. -/
def quoted (text : Text) : Text :=
  if text = [] ∨ text.head? = some '%' then "\"".toList ++ text ++ "\"".toList else text

/-- The lines behind a first indentation and the next ones. -/
def indented (first next : String) : List Text → List Text
  | [] => []
  | line :: lines => (first.toList ++ line) :: lines.map (next.toList ++ ·)

mutual

/-- The lines of a node. -/
def blockLines : Node → List Text
  | .null => ["~".toList]
  | .scalar text => [quoted text]
  | .sequence items => itemLines items
  | .map entries => entryLines entries

def itemLines : List Node → List Text
  | [] => []
  | item :: items => indented "- " "  " (blockLines item) ++ itemLines items

def entryLines : List (Text × Node) → List Text
  | [] => []
  | (key, .scalar text) :: entries => (key ++ ": ".toList ++ quoted text) :: entryLines entries
  | (key, node) :: entries => (key ++ ":".toList) :: indented "  " "  " (blockLines node) ++ entryLines entries

end

/-- The text of a node. -/
def blockText (node : Node) : Text := ['\n'].intercalate (blockLines node)

/-- YAML that knows the texts of these nodes. -/
def blockYaml (nodes : List Node) : Yaml where
  emit node := (node.map blockText).getD []
  load text := nodes.find? fun node => blockText node = text
  index _ := none

/-- Nodes whose texts differ are loaded from them. -/
theorem load_blockYaml {nodes : List Node} (apart : (nodes.map blockText).Nodup) {node : Node} (member : node ∈ nodes) :
    (blockYaml nodes).load ((blockYaml nodes).emit (some node)) = some node := by
  change nodes.find? (fun other => blockText other = blockText node) = some node
  induction nodes with
  | nil => cases member
  | cons first nodes ih =>
    obtain ⟨fresh, apart⟩ := List.nodup_cons.mp apart
    rw [List.find?_cons]
    rcases List.mem_cons.mp member with rfl | later
    · rw [decide_eq_true rfl]
    · have other : blockText first ≠ blockText node := fun same => fresh (same ▸ List.mem_map_of_mem later)
      rw [decide_eq_false other]
      exact ih apart later

/-! ## A logger with appenders of all kinds -/

/-- An appender of a file and one of the standard output, and between them an unknown one, one without a type and one
without its file. -/
def nodeRead : Node :=
  .map [("name".toList, .scalar "a.b".toList), ("level".toList, .scalar "debug".toList),
    ("appenders".toList, .sequence [
      .map [("type".toList, .scalar "FileLogAppender".toList), ("file".toList, .scalar "a.log".toList),
        ("level".toList, .scalar "Warn".toList), ("formatter".toList, .scalar "%m%n".toList)],
      .map [("type".toList, .scalar "SyslogAppender".toList)],
      .map [("file".toList, .scalar "b.log".toList)],
      .map [("type".toList, .scalar "FileLogAppender".toList)],
      .map [("type".toList, .scalar "StdoutLogAppender".toList)]])]

def nodePrinted : Node :=
  .map [("name".toList, .scalar "a.b".toList), ("level".toList, .scalar "DEBUG".toList),
    ("formatter".toList, .scalar []), ("appenders".toList, .sequence [
      .map [("type".toList, .scalar "FileLogAppender".toList), ("file".toList, .scalar "a.log".toList),
        ("level".toList, .scalar "WARN".toList), ("formatter".toList, .scalar "%m%n".toList)],
      .map [("type".toList, .scalar "StdoutLogAppender".toList), ("level".toList, .scalar "UNKNOWN".toList),
        ("formatter".toList, .scalar [])]])]

def appendersYaml : Yaml := blockYaml [.sequence [nodeRead], nodeRead, nodePrinted, .sequence [nodePrinted]]

def appendersText : Text :=
  ['\n'].intercalate ["- name: a.b".toList, "  level: debug".toList, "  appenders:".toList,
    "    - type: FileLogAppender".toList, "      file: a.log".toList, "      level: Warn".toList,
    "      formatter: \"%m%n\"".toList, "    - type: SyslogAppender".toList, "    - file: b.log".toList,
    "    - type: FileLogAppender".toList, "    - type: StdoutLogAppender".toList]

def loggerRead : LogDefine :=
  { name := "a.b".toList, level := 1, appenders := [
    { type := 1, level := 3, formatter := "%m%n".toList, file := "a.log".toList }, { type := 2 }] }

/-- The three appenders that are ignored are not printed, and what the others lack is. -/
theorem fromStr_toStr_stable_logger : ∃ s, s.defs = [loggerRead] ∧ fromStr appendersYaml none appendersText = some s ∧
    (toStr appendersYaml none s).bind (fromStr appendersYaml none) = some s := by
  let s : LogDefines := ⟨[loggerRead], List.pairwise_singleton _ _⟩
  have read : fromStr appendersYaml none appendersText = some s := by decide +kernel
  have apart : List.Nodup ([.sequence [nodeRead], nodeRead, nodePrinted, .sequence [nodePrinted]].map blockText) := by
    decide +kernel
  have one : appendersYaml.load (appendersYaml.emit (some nodePrinted)) = some nodePrinted :=
    load_blockYaml apart (List.mem_of_getElem? (i := 2) rfl)
  have all : appendersYaml.load (appendersYaml.emit (some (.sequence [nodePrinted]))) =
      some (.sequence [nodePrinted]) :=
    load_blockYaml apart (List.mem_of_getElem? (i := 3) rfl)
  refine ⟨s, rfl, read, fromStr_toStr_stable read ?_⟩
  rw [written_eq read (List.forall_mem_singleton.mpr one)]
  exact List.forall_mem_cons.mpr ⟨all, List.forall_mem_singleton.mpr one⟩

end LogDefines

end Sylar
