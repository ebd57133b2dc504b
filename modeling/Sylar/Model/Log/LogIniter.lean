import Sylar.Model.Log.Logger

/-! # `LoggerManager` and the listener of the `logs` variable

The listener goes through the definitions of the new value, in the order of their names, and then through those
of the old value that are in the new one no more. A step that throws, or that uses an appender of no type, has
no result.
-/

namespace Sylar

/-- `m_root` and `m_loggers`, beside the objects they point to. -/
structure LoggerManager where
  logs : Logs
  root : LoggerPtr
  loggers : Text → Option LoggerPtr

namespace LoggerManager

/-- The constructor. -/
def make : Option LoggerManager := do
  let (root, logs) ← (Logs.makeLogger "root".toList {}).toOption
  some { logs, root, loggers := Function.update (fun _ => none) "root".toList (some root) }

def getLogger (name : Text) (m : LoggerManager) : Option (LoggerPtr × LoggerManager) :=
  if name = [] then some (m.root, m)
  else match m.loggers name with
    | some l => some (l, m)
    | none => do
        let (l, logs) ← (m.logs.makeLogger name).toOption
        some (l, { m with logs, loggers := Function.update m.loggers name (some l) })

end LoggerManager

/-- `type` is 1 for a file and 2 for the standard output. -/
structure LogAppenderDefine where
  type : ℤ := 0
  level : LogLevel := .UNKNOWN
  formatter : Text := []
  file : Text := []
deriving DecidableEq, Repr

/-- The appender that the type stands for; for other types none is made. -/
def LogAppenderDefine.kind (a : LogAppenderDefine) : Option LogAppender.Kind :=
  match a.type with
  | 1 => some (.file a.file)
  | 2 => some .stdout
  | _ => none

structure LogDefine where
  name : Text
  level : LogLevel := .UNKNOWN
  formatter : Text := []
  appenders : List LogAppenderDefine := []
deriving DecidableEq, Repr

/-- A `std::set<LogDefine>`, which is ordered by the names. -/
structure LogDefines where
  defs : List LogDefine
  sorted : defs.Pairwise fun one other => one.name < other.name
deriving DecidableEq

namespace LogIniter

/-- One round of the loop over the appenders of a definition. -/
def appenderDefined (l : LoggerPtr) (m : Logs) (a : LogAppenderDefine) : Option Logs := do
  let (ap, m) ← a.kind.map fun kind => m.makeAppender kind
  let m := m.appenderSetLevel ap a.level
  let m ← if a.formatter ≠ [] then (m.appenderSetFormatterText ap a.formatter).toOption else some m
  some (m.addAppender l ap)

/-- The calls on the logger of a definition. -/
def configure (l : LoggerPtr) (i : LogDefine) (m : Logs) : Option Logs := do
  let m := m.setLevel l i.level
  let m ← if i.formatter ≠ [] then (m.setFormatterText l i.formatter).toOption else some m
  i.appenders.foldlM (appenderDefined l) (m.clearAppenders l)

/-- One round of the loop over the new value. -/
def defined (m : LoggerManager) (i : LogDefine) : Option LoggerManager := do
  let (l, m) ← m.getLogger i.name
  let logs ← configure l i m.logs
  some { m with logs }

/-- One round of the loop over the old value. -/
def removed (new_value : LogDefines) (m : LoggerManager) (i : LogDefine) : Option LoggerManager :=
  if new_value.defs.any fun other => other.name = i.name then some m
  else do
    let (l, m) ← m.getLogger i.name
    some { m with logs := (m.logs.setLevel l 100).clearAppenders l }

/-- The listener. -/
def changed (old_value new_value : LogDefines) (m : LoggerManager) : Option LoggerManager := do
  let m ← new_value.defs.foldlM defined m
  old_value.defs.foldlM (removed new_value) m

end LogIniter

/-- The value of `g_log_defines`, and the loggers. -/
structure LogConfig where
  value : LogDefines
  manager : LoggerManager

namespace LogConfig

/-- The process has just been started. -/
def fresh : Option LogConfig := LoggerManager.make.map fun manager => { value := ⟨[], .nil⟩, manager }

/-- `g_log_defines->setValue(v)`. -/
def setValue (s : LogConfig) (v : LogDefines) : Option LogConfig :=
  if v = s.value then some s else (LogIniter.changed s.value v s.manager).map fun manager => { value := v, manager }

/-- Any values set one after the other, in a process in any state. -/
def machine : Machine LogConfig LogDefines := .ofNext (fun _ => True) setValue

/-- What can be told of an appender: its type and file, its level and the pattern it uses. -/
structure AppenderView where
  kind : LogAppender.Kind
  level : LogLevel
  pattern : Option Text
deriving DecidableEq, Repr

/-- What can be told of a logger. -/
structure View where
  level : LogLevel
  pattern : Option Text
  appenders : List AppenderView
deriving DecidableEq, Repr

end LogConfig

open LogConfig (AppenderView View)

def LogAppender.view (appender : LogAppender) : AppenderView :=
  ⟨appender.kind, appender.level, appender.formatter.map fun f => f.object.pattern⟩

def Logs.view (m : Logs) (l : LoggerPtr) : View where
  level := (m.logger l).level
  pattern := (m.logger l).formatter.map fun f => f.object.pattern
  appenders := (m.logger l).appenders.map fun a => (m.appender a).view

/-- The logger that `getLogger` returns for the name, if it is there. -/
def LoggerManager.find (m : LoggerManager) (name : Text) : Option LoggerPtr :=
  if name = [] then some m.root else m.loggers name

def LogConfig.view (s : LogConfig) (name : Text) : Option View := (s.manager.find name).map s.manager.logs.view

end Sylar
