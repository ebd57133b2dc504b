import Sylar.Model.Log.Logging
import Sylar.Proofs.Log.Reload
import Sylar.Proofs.Log.TextForm

/-! # The text of the loggers, read as a value of the `logs` variable

`LoggerManager::toYamlString` prints what `LexicalCast<std::string, std::set<LogDefine>>` reads: for each logger a
definition with its pattern, its level as far as it has a name, and its appenders. An appender that uses the pattern of
its logger is printed without one.
-/

namespace Sylar

open YAML (Node)

variable {y : Yaml} {null : Option Text} {appender : LogAppender} {m : Logs} {l : LoggerPtr}

/-- The level that is read from the name of a level. -/
def LogLevel.named (level : LogLevel) : LogLevel := if level ≤ 5 then level else UNKNOWN

theorem LogLevel.FromString_named (level : LogLevel) : FromString (cText level.ToString) = level.named := by
  unfold LogLevel.named
  split_ifs with named
  · exact FromString_ToString named
  · obtain ⟨more, rfl⟩ : ∃ more, level = more + 6 := ⟨level - 6, (Nat.sub_add_cancel (Nat.lt_of_not_le named)).symm⟩
    rfl

/-! ## Definitions of what is there -/

/-- The definition of an appender. -/
def LogAppender.define (appender : LogAppender) : LogAppenderDefine where
  type := match appender.kind with
    | .file _ => 1
    | .stdout => 2
  level := appender.level.named
  formatter := if appender.hasFormatter then (patternOf appender.formatter).getD [] else []
  file := match appender.kind with
    | .file filename => filename
    | .stdout => []

/-- The definition of a logger. -/
def Logs.define (m : Logs) (l : LoggerPtr) : LogDefine where
  name := (m.logger l).name
  level := (m.logger l).level.named
  formatter := (patternOf (m.logger l).formatter).getD []
  appenders := (m.logger l).appenders.map fun a => (m.appender a).define

/-- The node of a logger with its appenders. -/
def Logs.toNode (m : Logs) (l : LoggerPtr) : Node :=
  (m.logger l).toNode ((m.logger l).appenders.map fun a => (m.appender a).toNode)

/-! ## What is read from the nodes -/

theorem shownLevel_eq (level : LogLevel) : (Logging.shownLevel level = none ∧ level.named = LogLevel.UNKNOWN) ∨
    Logging.shownLevel level = some level.ToString := by
  unfold Logging.shownLevel
  split_ifs with unknown
  · exact .inl ⟨rfl, by rw [unknown]; rfl⟩
  · exact .inr rfl

/-- The appender of a node is read from it. -/
theorem LogAppender.fromNode_toNode (appender : LogAppender) :
    LogAppenderDefine.fromNode null (some appender.toNode) = some (some appender.define) := by
  obtain ⟨kind, level, hasFormatter, formatter⟩ := appender
  have read := LogLevel.FromString_named level
  have own : (if hasFormatter then (patternOf formatter).getD [] else []) =
      (if hasFormatter then formatter.map fun f => f.object.pattern else none).getD [] := by
    cases hasFormatter <;> rfl
  have levels := shownLevel_eq level
  unfold LogAppender.toNode LogAppender.define
  dsimp only
  rw [own]
  generalize (if hasFormatter then formatter.map fun f => f.object.pattern else none) = pattern
  generalize Logging.shownLevel level = shown at levels ⊢
  rw [← read] at levels ⊢
  obtain ⟨rfl, unknown⟩ | rfl := levels
  · rw [unknown]
    cases kind <;> cases pattern <;> rfl
  · cases kind <;> cases pattern <;> rfl

/-- The appenders are read from their nodes one after the other. -/
theorem appendersFrom_sequence {entries : List (Text × Node)} {as : List LogAppenderPtr}
    (here : Node.entry "appenders".toList (some (.map entries)) =
      some (if as = [] then none else some (.sequence (as.map fun a => (m.appender a).toNode)))) :
    LogDefine.appendersFrom y null (some (.map entries)) = some (as.map fun a => (m.appender a).define) := by
  unfold LogDefine.appendersFrom
  rw [here]
  cases as with
  | nil => rfl
  | cons first rest =>
    let read (appenders : List LogAppenderDefine) (a : Option Node) : Option (List LogAppenderDefine) := do
      return appenders ++ (← LogAppenderDefine.fromNode null a).toList
    have ranged := List.foldlM_range_getElem? read ((first :: rest).map fun a => (m.appender a).toNode) []
    rw [List.foldlM_map] at ranged
    refine ranged.trans (List.foldlM_concat (List.map fun a => (m.appender a).define) [] fun done a _ => ?_)
    dsimp only [read]
    rw [LogAppender.fromNode_toNode, List.map_append]
    rfl

/-- The definition of a logger is read from a text that loads to its node. -/
theorem Logs.fromStr_toNode {text : Text} (m : Logs) (l : LoggerPtr) (loaded : y.load text = some (m.toNode l)) :
    LogDefine.fromStr y null text = some (m.define l) := by
  unfold Logs.toNode at loaded
  unfold Logs.define LogDefine.fromStr
  rw [loaded]
  clear loaded
  generalize m.logger l = logger
  obtain ⟨name, level, formatter, appenders⟩ := logger
  have read := LogLevel.FromString_named level
  have levels := shownLevel_eq level
  unfold Logger.toNode patternOf
  dsimp only
  generalize formatter.map (fun f => f.object.pattern) = pattern
  generalize Logging.shownLevel level = shown at levels ⊢
  have present : (if appenders.map (fun a => (m.appender a).toNode) = [] then []
      else [("appenders".toList, Node.sequence (appenders.map fun a => (m.appender a).toNode))]) =
      if appenders = [] then []
      else [("appenders".toList, Node.sequence (appenders.map fun a => (m.appender a).toNode))] :=
    if_congr List.map_eq_nil_iff rfl rfl
  rw [present]
  obtain ⟨entries, same⟩ : ∃ entries, entries = ("name".toList, Node.scalar name) :: Logging.shown "level" shown ++
      Logging.shown "formatter" pattern ++ (if appenders = [] then []
        else [("appenders".toList, Node.sequence (appenders.map fun a => (m.appender a).toNode))]) := ⟨_, rfl⟩
  have appended : LogDefine.appendersFrom y null (some (.map entries)) =
      some (appenders.map fun a => (m.appender a).define) := by
    apply appendersFrom_sequence
    rw [same]
    cases shown <;> cases pattern <;> cases appenders <;> rfl
  have header : Node.entry "name".toList (some (.map entries)) = some (some (.scalar name)) := by rw [same]; rfl
  have levelText : stringOr null [] "level" (some (.map entries)) = some (shown.getD []) := by
    rw [same]
    cases shown <;> cases pattern <;> cases appenders <;> rfl
  have formatterText : stringOr null [] "formatter" (some (.map entries)) = some (pattern.getD []) := by
    rw [same]
    cases shown <;> cases pattern <;> cases appenders <;> rfl
  rw [← same]
  simp only [Option.bind_eq_bind, Option.bind_some, header, levelText, formatterText, appended]
  obtain ⟨rfl, unknown⟩ | rfl := levels
  · rw [unknown]
    rfl
  · rw [← read]
    rfl

/-! ## The text of all loggers -/

/-- The loggers, in the order of their names. -/
def Logging.listed {τ : Type} (s : Logging τ) : List LoggerPtr := s.names.filterMap s.manager.loggers

/-- The nodes that are emitted while the loggers are dumped: those of the appenders, of the loggers and of the whole. -/
def Logging.dumped {τ : Type} (s : Logging τ) : List Node :=
  .sequence (s.listed.map s.logs.toNode) :: s.listed.flatMap fun l =>
    s.logs.toNode l :: (s.logs.logger l).appenders.map fun a => (s.logs.appender a).toNode


namespace Logging

variable {τ : Type} {s : Logging τ}

theorem run_toYamlString (restores : ∀ a ∈ (s.logs.logger l).appenders,
    y.load (y.emit (some (s.logs.appender a).toNode)) = some (s.logs.appender a).toNode) :
    (toYamlString y l).run s = some (some (y.emit (some (s.logs.toNode l))), s) := by
  unfold toYamlString
  simp only [Program.run_locked, Program.run_monad, Program.run_get, Option.bind_some]
  rw [Program.run_collect (g := fun a => (s.logs.appender a).toNode)]
  · rfl
  · intro a member
    simp [appenderToYamlString, restores a member]

theorem run_managerToYamlString (restores : ∀ node ∈ s.dumped, y.load (y.emit (some node)) = some node)
    (some_ : s.listed ≠ []) :
    (managerToYamlString y).run s = some (some (y.emit (some (.sequence (s.listed.map s.logs.toNode)))), s) := by
  unfold managerToYamlString
  simp only [Program.run_locked, Program.run_monad, Program.run_get, Option.bind_some]
  rw [Program.run_collect (g := fun l => s.logs.toNode l)]
  · have present : s.listed.map s.logs.toNode ≠ [] := mt List.map_eq_nil_iff.mp some_
    refine congrArg (fun text => some (some text, s)) ?_
    exact congrArg y.emit (if_neg present)
  · intro l member
    have dumped (node : Node) (here : node = s.logs.toNode l ∨
        node ∈ (s.logs.logger l).appenders.map fun a => (s.logs.appender a).toNode) :
        y.load (y.emit (some node)) = some node :=
      restores node (List.mem_cons_of_mem _ (List.mem_flatMap.mpr ⟨l, member, List.mem_cons.mpr here⟩))
    have printed := run_toYamlString (y := y) (s := s) (l := l) fun a here => dumped _ (.inr (List.mem_map_of_mem here))
    simp [printed, dumped _ (.inl rfl)]

/-- What is read from the text is the set of the definitions of the loggers. -/
theorem fromStr_dumped (restores : ∀ node ∈ s.dumped, y.load (y.emit (some node)) = some node)
    (v : LogDefines) (defs : v.defs = s.listed.map s.logs.define) (some_ : s.listed ≠ []) :
    LogDefines.fromStr y null (y.emit (some (.sequence (s.listed.map s.logs.toNode)))) = some v := by
  let r : CppType := ⟨LoggerPtr, LogDefine, inferInstance, s.logs.define⟩
  let cast : LexicalCast r := ⟨fun l => some (y.emit (some (s.logs.toNode l))), LogDefine.fromStr y null⟩
  have carried (l : LoggerPtr) (member : l ∈ s.listed) : LexicalCast.Carried y cast l (s.logs.toNode l) := by
    have restored : y.load (y.emit (some (s.logs.toNode l))) = some (s.logs.toNode l) :=
      restores _ (List.mem_cons_of_mem _ (List.mem_flatMap.mpr ⟨l, member, List.mem_cons_self⟩))
    exact ⟨restored, s.logs.fromStr_toNode l restored⟩
  have whole : y.load (y.emit (some (.sequence (s.listed.map s.logs.toNode)))) =
      some ((Node.ofItems (s.listed.map s.logs.toNode)).getD .null) := by
    rw [restores _ List.mem_cons_self]
    cases all : s.listed with
    | nil => exact absurd all some_
    | cons l rest => rfl
  have reads := LexicalCast.sequenceFromStr_eq (r := r) LogDefines.insert ⟨[], LogDefines.sorted_nil⟩ carried whole
  refine Eq.trans reads ?_
  rw [← LogDefines.foldl_insert v, defs]

end Logging

end Sylar
