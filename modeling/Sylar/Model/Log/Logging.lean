import Sylar.Machine.Locks
import Sylar.Model.Config.LexicalCast
import Sylar.Model.Log.LogIniter

/-! # Logging from many threads

`Logger::log` and everything it competes with, as programs of the threads: each lock and each access to a member
is a step. A logger without appenders hands an event to `m_root`, whose lock it takes while it holds its own. A
file is written through a stream that is opened again in every second in which something is logged, because the
file may have been moved away. What becomes of an event is recorded by the step that decides it.
-/

namespace Sylar

open YAML (Node)

/-! ## Files -/

/-- The files of a directory: what a name stands for, and when a file has lost its name. -/
structure Disk where
  clock : ℕ := 0
  files : ℕ := 0
  named : Text → Option ℕ := fun _ => none
  openable : Text → Bool := fun _ => true
  removed : ℕ → Option ℕ := fun _ => none

namespace Disk

/-- `open(name, std::ios::app)`: the file of that name, or a new one, if it can be opened. -/
def openFile (name : Text) (d : Disk) : Option ℕ × Disk :=
  if d.openable name then
    match d.named name with
    | some file => (some file, d)
    | none => (some d.files, { d with files := d.files + 1, named := Function.update d.named name (some d.files) })
  else (none, d)

/-- The file of that name is deleted or renamed. -/
def remove (name : Text) (d : Disk) : Disk :=
  match d.named name with
  | some file => { d with
      named := Function.update d.named name none, removed := Function.update d.removed file (some d.clock) }
  | none => d

end Disk

/-! ## Records -/

namespace Logging

/-- What an appender makes of an event. -/
inductive Answer where
  /-- The level is below that of the appender. -/
  | refused
  | console (line : Text)
  /-- The file the stream has open, and what `time(0)` was. -/
  | file (file : Option ℕ) (now : ℕ) (line : Text)
deriving DecidableEq, Repr

/-- What `log` of a logger comes to. -/
inductive Entry where
  /-- The level is below that of the logger. -/
  | lower
  /-- The logger has neither appenders nor `m_root`. -/
  | unheard
  | forwarded (root : LoggerPtr)
  /-- An appender of the logger has been asked; `appenders` are those the logger had then. -/
  | asked (appenders : List LogAppenderPtr) (a : LogAppenderPtr) (answer : Answer)
deriving DecidableEq, Repr

structure Record (τ : Type) where
  thread : τ
  logger : LoggerPtr
  entry : Entry
deriving DecidableEq, Repr

end Logging

/-- The loggers and the `m_root` of each, the streams of the appenders, the files, and all that has been recorded;
`names` are the keys of `m_loggers` in their order. -/
structure Logging (τ : Type) where
  manager : LoggerManager
  names : List Text
  fallback : LoggerPtr → Option LoggerPtr := fun _ => none
  stream : LogAppenderPtr → Option ℕ := fun _ => none
  lastTime : LogAppenderPtr → ℕ := fun _ => 0
  disk : Disk := {}
  records : List (Logging.Record τ) := []

namespace Logging

/-- The member `m_mutex` of the `LoggerManager`, of a logger or of an appender. -/
inductive Mutex where
  | manager
  | logger (l : LoggerPtr)
  | appender (a : LogAppenderPtr)
deriving DecidableEq, Repr

variable {τ : Type}

abbrev Code (τ α : Type) := Program Mutex (Logging τ) α

open Program (get modify locked when forEach collect)

def logs (s : Logging τ) : Logs := s.manager.logs

def updateLogs (f : Logs → Logs) (s : Logging τ) : Logging τ :=
  { s with manager := { s.manager with logs := f s.manager.logs } }

def record (t : τ) (l : LoggerPtr) (entry : Entry) (s : Logging τ) : Logging τ :=
  { s with records := s.records ++ [⟨t, l, entry⟩] }

/-- The appender of the logger has been asked. -/
def answer (t : τ) (l : LoggerPtr) (a : LogAppenderPtr) (answer : Answer) (s : Logging τ) : Logging τ :=
  s.record t l (.asked (s.logs.logger l).appenders a answer)

/-! ## Appenders -/

/-- `m_filestream.close()`. -/
def closeStream (a : LogAppenderPtr) (s : Logging τ) : Logging τ :=
  { s with stream := Function.update s.stream a none }

/-- `m_filestream.open(m_filename, std::ios::app)`. -/
def openStream (filename : Text) (a : LogAppenderPtr) (s : Logging τ) : Logging τ :=
  { s with stream := Function.update s.stream a (s.disk.openFile filename).1, disk := (s.disk.openFile filename).2 }

/-- `FileLogAppender::reopen`. -/
def reopen (filename : Text) (a : LogAppenderPtr) : Code τ Bool :=
  locked (.appender a) do
    let isOpen ← get fun s => (s.stream a).isSome
    when isOpen (modify (closeStream a))
    modify (openStream filename a)
    get fun s => (s.stream a).isSome

/-- The test of `LogAppender::log`. -/
def ifAccepted (t : τ) (l : LoggerPtr) (a : LogAppenderPtr) (level : LogLevel) (block : Code τ Unit) : Code τ Unit :=
  .act (fun s => if level ≥ (s.logs.appender a).level then s else s.answer t l a .refused) fun s =>
    if level ≥ (s.logs.appender a).level then block else .done ()

/-- `<< m_formatter->format(logger, level, event)`, to the sink. -/
def write (t : τ) (l : LoggerPtr) (a : LogAppenderPtr) (line : LogFormatter → Text) (sink : Logging τ → Text → Answer) :
    Code τ Unit :=
  .act (fun s => match (s.logs.appender a).formatter with
      | some formatter => s.answer t l a (sink s (line formatter.object))
      | none => s)
    fun s => match (s.logs.appender a).formatter with
      | some _ => .done ()
      | none => .fail

section Log

variable (strftime : Text → BitVec 64 → Text) (t : τ) (level : LogLevel) (event : LogEvent)

/-- `StdoutLogAppender::log`. -/
def stdoutLog (l : LoggerPtr) (a : LogAppenderPtr) : Code τ Unit :=
  ifAccepted t l a level do
    locked (.appender a) (write t l a (fun f => f.format strftime level event) fun _ line => .console line)

/-- `FileLogAppender::log`. -/
def fileLog (filename : Text) (l : LoggerPtr) (a : LogAppenderPtr) : Code τ Unit :=
  ifAccepted t l a level do
    let now ← get fun s => s.disk.clock
    let lastTime ← get fun s => s.lastTime a
    when (now ≠ lastTime) do
      let _ ← reopen filename a
      modify fun s => { s with lastTime := Function.update s.lastTime a now }
    locked (.appender a) (write t l a (fun f => f.format strftime level event) fun s line =>
      .file (s.stream a) now line)

/-- `log` of the class of the appender. -/
def appenderLog (l : LoggerPtr) (a : LogAppenderPtr) : Code τ Unit := do
  match ← get fun s => (s.logs.appender a).kind with
  | .file filename => fileLog strftime t level event filename l a
  | .stdout => stdoutLog strftime t level event l a

/-- `Logger::log`, where the chain of `m_root` is not longer than `depth`. -/
def log : (depth : ℕ) → LoggerPtr → Code τ Unit
  | 0, _ => .fail
  | depth + 1, l =>
      .act (fun s => if level ≥ (s.logs.logger l).level then s else s.record t l .lower) fun s =>
        if level ≥ (s.logs.logger l).level then
          locked (.logger l) do
            let appenders ← get fun s => (s.logs.logger l).appenders
            if appenders ≠ [] then forEach (appenderLog strftime t level event l) appenders
            else
              .act (fun s => s.record t l (match s.fallback l with
                  | some root => .forwarded root
                  | none => .unheard))
                fun s => match s.fallback l with
                  | some root => log depth root
                  | none => .done ()
        else .done ()

/-- What `SYLAR_LOG_LEVEL` expands to; the event is logged by `~LogEventWrap`. -/
def logLevel (l : LoggerPtr) : Code τ Unit := do
  let loggerLevel ← get fun s => (s.logs.logger l).level
  when (loggerLevel ≤ level) do
    let loggerName ← get fun s => (s.logs.logger l).name
    log strftime t level { event with loggerName } 2 l

end Log

/-- `LogAppender::getFormatter`. -/
def appenderGetFormatter (a : LogAppenderPtr) : Code τ (Option LogFormatterPtr) :=
  locked (.appender a) (get fun s => (s.logs.appender a).formatter)

/-- `LogAppender::setFormatter` of a pointer. -/
def appenderSetFormatter (a : LogAppenderPtr) (val : Option LogFormatterPtr) : Code τ Unit :=
  locked (.appender a) (modify (updateLogs (Logs.appenderSetFormatter a val)))

/-- `new LogFormatter`, or nothing if the constructor throws. -/
def makeFormatter (pattern : Text) : Code τ (Option LogFormatterPtr) :=
  match LogFormatter.new pattern with
  | .error _ => .done none
  | .ok object =>
      .act (updateLogs fun logs => (logs.makeFormatter object).2) fun s => .done (some (s.logs.makeFormatter object).1)

/-- `LogAppender::setFormatter` of a string. -/
def appenderSetFormatterText (a : LogAppenderPtr) (fmt : Text) : Code τ Unit := do
  match ← makeFormatter fmt with
  | none => return
  | some new_val =>
      if new_val.object.isError then
        modify (updateLogs (Logs.updateAppender a fun appender => { appender with hasFormatter := false }))
      else appenderSetFormatter a (some new_val)

/-- The constructors of the appenders. -/
def makeAppender (kind : LogAppender.Kind) : Code τ LogAppenderPtr := do
  let a ← .act (fun s => { s.updateLogs (fun logs => (logs.makeAppender kind).2) with
      stream := Function.update s.stream s.logs.appenders none,
      lastTime := Function.update s.lastTime s.logs.appenders 0 }) fun s => .done s.logs.appenders
  match kind with
  | .file filename => do
      let _ ← reopen filename a
      return a
  | .stdout => return a

/-! ## Loggers -/

def addAppender (l : LoggerPtr) (a : LogAppenderPtr) : Code τ Unit :=
  locked (.logger l) do
    let formatter ← appenderGetFormatter a
    when formatter.isNone (locked (.appender a) (modify (updateLogs fun logs =>
      logs.updateAppender a fun appender => { appender with formatter := (logs.logger l).formatter })))
    modify (updateLogs (Logs.updateLogger l fun logger => { logger with appenders := logger.appenders ++ [a] }))

def delAppender (l : LoggerPtr) (a : LogAppenderPtr) : Code τ Unit :=
  locked (.logger l) (modify (updateLogs (Logs.delAppender l a)))

def clearAppenders (l : LoggerPtr) : Code τ Unit :=
  locked (.logger l) (modify (updateLogs (Logs.clearAppenders l)))

/-- `Logger::setFormatter` of a pointer. -/
def setFormatter (l : LoggerPtr) (val : Option LogFormatterPtr) : Code τ Unit :=
  locked (.logger l) do
    modify (updateLogs (Logs.updateLogger l fun logger => { logger with formatter := val }))
    let appenders ← get fun s => (s.logs.logger l).appenders
    forEach (fun a => locked (.appender a) (modify (updateLogs fun logs =>
      Logs.inherit (logs.logger l).formatter logs a))) appenders

/-- `Logger::setFormatter` of a string. -/
def setFormatterText (l : LoggerPtr) (val : Text) : Code τ Unit := do
  match ← makeFormatter val with
  | none => return
  | some new_val => if new_val.object.isError then return else setFormatter l (some new_val)

/-- The constructor of `Logger`, or nothing if it throws. -/
def makeLogger (name : Text) : Code τ (Option LoggerPtr) := do
  match ← makeFormatter Logs.defaultPattern with
  | none => return none
  | some formatter =>
      let l ← .act (updateLogs (Logs.initLogger name formatter)) fun s => .done s.logs.loggers
      when (name = "root".toList) do
        let a ← makeAppender .stdout
        addAppender l a
      return some l

/-- Where a name is put among the keys of a map. -/
def insertName (name : Text) : List Text → List Text
  | [] => [name]
  | other :: names => if name < other then name :: other :: names else other :: insertName name names

def getLogger (name : Text) : Code τ (Option LoggerPtr) :=
  if name = [] then get fun s => some s.manager.root
  else locked .manager do
    match ← get fun s => s.manager.loggers name with
    | some l => return some l
    | none =>
        match ← makeLogger name with
        | none => return none
        | some l =>
            modify fun s => { s with fallback := Function.update s.fallback l (some s.manager.root) }
            modify fun s => { s with
              manager := { s.manager with loggers := Function.update s.manager.loggers name (some l) }
              names := insertName name s.names }
            return some l

/-! ## Text forms -/

/-- The entry for a level or a formatter that is shown. -/
def shown (key : String) : Option Text → List (Text × Node)
  | some text => [(key.toList, .scalar text)]
  | none => []

/-- The level, unless it is `UNKNOWN`. -/
def shownLevel (level : LogLevel) : Option Text := if level = LogLevel.UNKNOWN then none else some level.ToString

end Logging

/-- The node of `StdoutLogAppender::toYamlString` and `FileLogAppender::toYamlString`. -/
def LogAppender.toNode (appender : LogAppender) : Node :=
  .map ((match appender.kind with
      | .file filename =>
          [("type".toList, .scalar "FileLogAppender".toList), ("file".toList, .scalar filename)]
      | .stdout => [("type".toList, .scalar "StdoutLogAppender".toList)]) ++
    Logging.shown "level" (Logging.shownLevel appender.level) ++
    Logging.shown "formatter"
      (if appender.hasFormatter then appender.formatter.map fun f => f.object.pattern else none))

/-- The node of `Logger::toYamlString`, with those of the appenders. -/
def Logger.toNode (logger : Logger) (appenders : List Node) : Node :=
  .map ((("name".toList, .scalar logger.name) :: Logging.shown "level" (Logging.shownLevel logger.level)) ++
    Logging.shown "formatter" (logger.formatter.map fun f => f.object.pattern) ++
    if appenders = [] then [] else [("appenders".toList, .sequence appenders)])

namespace Logging

variable {τ : Type}

open Program (get modify locked when forEach collect)

section ToYaml

variable (y : Yaml)

/-- `toYamlString` of the class of the appender. -/
def appenderToYamlString (a : LogAppenderPtr) : Code τ Text :=
  locked (.appender a) (get fun s => y.emit (some (s.logs.appender a).toNode))

/-- `Logger::toYamlString`, or nothing if `YAML::Load` throws. -/
def toYamlString (l : LoggerPtr) : Code τ (Option Text) :=
  locked (.logger l) do
    let logger ← get fun s => s.logs.logger l
    let appenders ← collect (fun a => do return y.load (← appenderToYamlString y a)) logger.appenders
    return appenders.map fun nodes => y.emit (some (logger.toNode nodes))

/-- `LoggerManager::toYamlString`. -/
def managerToYamlString : Code τ (Option Text) :=
  locked .manager do
    let loggers ← get fun s => s.names.filterMap s.manager.loggers
    let nodes ← collect (fun l => do return (← toYamlString y l).bind y.load) loggers
    return nodes.map fun nodes => y.emit (if nodes = [] then none else some (.sequence nodes))

end ToYaml

/-! ## Runs -/

/-- What a thread may call, and what happens outside: the clock goes on or is turned back, files are moved away, and
what can be opened changes. -/
inductive Op where
  | log (l : LoggerPtr) (level : LogLevel) (event : LogEvent)
  | logLevel (l : LoggerPtr) (level : LogLevel) (event : LogEvent)
  | makeLogger (name : Text)
  | getLogger (name : Text)
  | setLevel (l : LoggerPtr) (level : LogLevel)
  | setFormatter (l : LoggerPtr) (val : Option LogFormatterPtr)
  | setFormatterText (l : LoggerPtr) (val : Text)
  | addAppender (l : LoggerPtr) (a : LogAppenderPtr)
  | delAppender (l : LoggerPtr) (a : LogAppenderPtr)
  | clearAppenders (l : LoggerPtr)
  | makeAppender (kind : LogAppender.Kind)
  | appenderSetLevel (a : LogAppenderPtr) (level : LogLevel)
  | appenderSetFormatter (a : LogAppenderPtr) (val : Option LogFormatterPtr)
  | appenderSetFormatterText (a : LogAppenderPtr) (fmt : Text)
  | toYamlString (l : LoggerPtr)
  | managerToYamlString
  | tick
  | turnBack
  | remove (name : Text)
  | setOpenable (name : Text) (openable : Bool)

/-- A value that nobody asks for. -/
def discard {α : Type} (code : Code τ α) : Code τ Unit := code.bind fun _ => .done ()

def body (strftime : Text → BitVec 64 → Text) (y : Yaml) (t : τ) : Op → Code τ Unit
  | .log l level event => log strftime t level event 2 l
  | .logLevel l level event => logLevel strftime t level event l
  | .makeLogger name => discard (makeLogger name)
  | .getLogger name => discard (getLogger name)
  | .setLevel l level => modify (updateLogs (Logs.setLevel l level))
  | .setFormatter l val => setFormatter l val
  | .setFormatterText l val => setFormatterText l val
  | .addAppender l a => addAppender l a
  | .delAppender l a => delAppender l a
  | .clearAppenders l => clearAppenders l
  | .makeAppender kind => discard (makeAppender kind)
  | .appenderSetLevel a level => modify (updateLogs (Logs.appenderSetLevel a level))
  | .appenderSetFormatter a val => appenderSetFormatter a val
  | .appenderSetFormatterText a fmt => appenderSetFormatterText a fmt
  | .toYamlString l => discard (toYamlString y l)
  | .managerToYamlString => discard (managerToYamlString y)
  | .tick => modify fun s => { s with disk := { s.disk with clock := s.disk.clock + 1 } }
  | .turnBack => modify fun s => { s with disk := { s.disk with clock := s.disk.clock - 1 } }
  | .remove name => modify fun s => { s with disk := s.disk.remove name }
  | .setOpenable name openable => modify fun s =>
      { s with disk := { s.disk with openable := Function.update s.disk.openable name openable } }

/-- The loggers and the appenders of a call have been made. -/
def Op.Exists : Op → Logging τ → Prop
  | .log l _ _, s | .logLevel l _ _, s | .setLevel l _, s | .setFormatter l _, s | .setFormatterText l _, s
  | .clearAppenders l, s | .toYamlString l, s => l < s.logs.loggers
  | .addAppender l a, s | .delAppender l a, s => l < s.logs.loggers ∧ a < s.logs.appenders
  | .appenderSetLevel a _, s | .appenderSetFormatter a _, s | .appenderSetFormatterText a _, s =>
      a < s.logs.appenders
  | .makeLogger _, _ | .getLogger _, _ | .makeAppender _, _ | .managerToYamlString, _ | .tick, _ | .turnBack, _
  | .remove _, _ | .setOpenable _ _, _ => True

instance : (op : Op) → (s : Logging τ) → Decidable (op.Exists s)
  | .log l _ _, s | .logLevel l _ _, s | .setLevel l _, s | .setFormatter l _, s | .setFormatterText l _, s
  | .clearAppenders l, s | .toYamlString l, s => inferInstanceAs (Decidable (l < s.logs.loggers))
  | .addAppender l a, s | .delAppender l a, s =>
      inferInstanceAs (Decidable (l < s.logs.loggers ∧ a < s.logs.appenders))
  | .appenderSetLevel a _, s | .appenderSetFormatter a _, s | .appenderSetFormatterText a _, s =>
      inferInstanceAs (Decidable (a < s.logs.appenders))
  | .makeLogger _, _ | .getLogger _, _ | .makeAppender _, _ | .managerToYamlString, _ | .tick, _ | .turnBack, _
  | .remove _, _ | .setOpenable _ _, _ => .isTrue trivial

/-- No null pointer is set as a formatter. -/
def Op.given : Op → Bool
  | .setFormatter _ val | .appenderSetFormatter _ val => val.isSome
  | _ => true

/-- Nor is the clock turned back. -/
def Op.steady : Op → Bool
  | .turnBack => false
  | op => op.given

/-- The `LoggerManager` has been made, and nothing else. -/
def Fresh (s : Logging τ) : Prop :=
  ∃ manager, LoggerManager.make = some manager ∧ s = { manager, names := ["root".toList] }

/-- The threads make calls that are allowed, on loggers and appenders that have been made. -/
def machine [DecidableEq τ] (allowed : Op → Bool) (strftime : Text → BitVec 64 → Text) (y : Yaml) :
    Machine (Threads τ Mutex (Logging τ)) (Threads.Event τ Op) :=
  (Threads.machine Fresh (body strftime y)).restrict (Threads.Meets fun op s => op.Exists s ∧ allowed op)

end Logging

end Sylar
