import Mathlib.Logic.Function.Basic
import Sylar.Machine.Path
import Sylar.Model.Log.Formatter

/-! # `Logger` and `LogAppender`

Loggers and appenders are objects known by their addresses, the numbers of those made before them. A formatter
does not change once it is made, so a pointer to one is its address beside the object.
-/

namespace Sylar

/-- A `LogFormatter::ptr` that is not null. -/
structure LogFormatterPtr where
  address : ℕ
  object : LogFormatter
deriving DecidableEq, Repr

/-- A `LogAppender::ptr` that is not null. -/
abbrev LogAppenderPtr := ℕ

/-- A `Logger::ptr` that is not null. -/
abbrev LoggerPtr := ℕ

/-- The classes derived from `LogAppender`, with the members of their own that are ever compared. -/
inductive LogAppender.Kind where
  | file (filename : Text)
  | stdout
deriving DecidableEq, Repr

structure LogAppender where
  kind : LogAppender.Kind
  level : LogLevel := .DEBUG
  hasFormatter : Bool := false
  formatter : Option LogFormatterPtr := none
deriving DecidableEq, Repr

structure Logger where
  name : Text
  level : LogLevel := .DEBUG
  formatter : Option LogFormatterPtr := none
  appenders : List LogAppenderPtr := []
deriving DecidableEq, Repr

/-- The objects of the process: how many of each kind have been made, and what is in them. -/
structure Logs where
  formatters : ℕ := 0
  appenders : ℕ := 0
  loggers : ℕ := 0
  appender : LogAppenderPtr → LogAppender := fun _ => { kind := .stdout }
  logger : LoggerPtr → Logger := fun _ => { name := [] }

namespace Logs

def updateAppender (a : LogAppenderPtr) (f : LogAppender → LogAppender) (m : Logs) : Logs :=
  { m with appender := Function.update m.appender a (f (m.appender a)) }

def updateLogger (l : LoggerPtr) (f : Logger → Logger) (m : Logs) : Logs :=
  { m with logger := Function.update m.logger l (f (m.logger l)) }

/-- A formatter gets the next address. -/
def makeFormatter (object : LogFormatter) (m : Logs) : LogFormatterPtr × Logs :=
  (⟨m.formatters, object⟩, { m with formatters := m.formatters + 1 })

/-- The constructors of the appenders. -/
def makeAppender (kind : LogAppender.Kind) (m : Logs) : LogAppenderPtr × Logs :=
  (m.appenders, { m.updateAppender m.appenders (fun _ => { kind }) with appenders := m.appenders + 1 })

/-! ## The members of `LogAppender` -/

/-- `LogAppender::setFormatter` of a pointer. -/
def appenderSetFormatter (a : LogAppenderPtr) (val : Option LogFormatterPtr) : Logs → Logs :=
  updateAppender a fun appender => { appender with formatter := val, hasFormatter := val.isSome }

/-- `LogAppender::setFormatter` of a string; the constructor of the formatter may throw. -/
def appenderSetFormatterText (a : LogAppenderPtr) (fmt : Text) (m : Logs) : Except LogFormatter.Abort Logs :=
  match LogFormatter.new fmt with
  | .error abort => .error abort
  | .ok object =>
      let (new_val, m) := m.makeFormatter object
      if object.isError then .ok (m.updateAppender a fun appender => { appender with hasFormatter := false })
      else .ok (m.appenderSetFormatter a new_val)

def appenderSetLevel (a : LogAppenderPtr) (level : LogLevel) : Logs → Logs :=
  updateAppender a fun appender => { appender with level }

/-! ## The members of `Logger` -/

/-- An appender without a formatter of its own gets this one. -/
def inherit (val : Option LogFormatterPtr) (m : Logs) (a : LogAppenderPtr) : Logs :=
  if (m.appender a).hasFormatter then m else m.updateAppender a fun appender => { appender with formatter := val }

/-- `Logger::setFormatter` of a pointer. -/
def setFormatter (l : LoggerPtr) (val : Option LogFormatterPtr) (m : Logs) : Logs :=
  (m.logger l).appenders.foldl (inherit val) (m.updateLogger l fun logger => { logger with formatter := val })

/-- `Logger::setFormatter` of a string. -/
def setFormatterText (l : LoggerPtr) (val : Text) (m : Logs) : Except LogFormatter.Abort Logs :=
  match LogFormatter.new val with
  | .error abort => .error abort
  | .ok object =>
      let (new_val, m) := m.makeFormatter object
      if object.isError then .ok m else .ok (m.setFormatter l new_val)

def addAppender (l : LoggerPtr) (a : LogAppenderPtr) (m : Logs) : Logs :=
  let m :=
    if (m.appender a).formatter = none then
      m.updateAppender a fun appender => { appender with formatter := (m.logger l).formatter }
    else m
  m.updateLogger l fun logger => { logger with appenders := logger.appenders ++ [a] }

/-- The first of the places of the appender in the list is left out. -/
def delAppender (l : LoggerPtr) (a : LogAppenderPtr) : Logs → Logs :=
  updateLogger l fun logger => { logger with appenders := logger.appenders.erase a }

def clearAppenders (l : LoggerPtr) : Logs → Logs :=
  updateLogger l fun logger => { logger with appenders := [] }

def setLevel (l : LoggerPtr) (val : LogLevel) : Logs → Logs :=
  updateLogger l fun logger => { logger with level := val }

/-- The pattern of the formatter that a new logger has. -/
def defaultPattern : Text := "%d{%Y-%m-%d %H:%M:%S}%T%t%T%N%T%F%T[%p]%T[%c]%T%f:%l%T%m%n".toList

/-- The members of a new logger. -/
def initLogger (name : Text) (formatter : LogFormatterPtr) (m : Logs) : Logs :=
  { m.updateLogger m.loggers (fun _ => { name, formatter := some formatter }) with loggers := m.loggers + 1 }

/-- The constructor of `Logger`; a logger of the name `root` gets an appender. -/
def makeLogger (name : Text) (m : Logs) : Except LogFormatter.Abort (LoggerPtr × Logs) :=
  match LogFormatter.new defaultPattern with
  | .error abort => .error abort
  | .ok object =>
      let l := m.loggers
      let (formatter, m) := m.makeFormatter object
      let m := m.initLogger name formatter
      if name = "root".toList then
        let (a, m) := m.makeAppender .stdout
        .ok (l, m.addAppender l a)
      else .ok (l, m)

/-! ## Runs of calls -/

/-- A call of a constructor or of a member. -/
inductive Action where
  | makeLogger (name : Text)
  | makeAppender (kind : LogAppender.Kind)
  | setFormatter (l : LoggerPtr) (val : LogFormatterPtr)
  | setFormatterText (l : LoggerPtr) (val : Text)
  | addAppender (l : LoggerPtr) (a : LogAppenderPtr)
  | delAppender (l : LoggerPtr) (a : LogAppenderPtr)
  | clearAppenders (l : LoggerPtr)
  | appenderSetFormatter (a : LogAppenderPtr) (val : LogFormatterPtr)
  | appenderSetFormatterText (a : LogAppenderPtr) (fmt : Text)
deriving DecidableEq, Repr

/-- The state a call leaves if it throws: none of these has changed anything before. -/
def orSame (m : Logs) : Except LogFormatter.Abort Logs → Logs
  | .error _ => m
  | .ok m' => m'

/-- The call, if the objects exist. -/
def perform (m : Logs) : Action → Option Logs
  | .makeLogger name => some (m.orSame ((m.makeLogger name).map Prod.snd))
  | .makeAppender kind => some (m.makeAppender kind).2
  | .setFormatter l val => if l < m.loggers then some (m.setFormatter l val) else none
  | .setFormatterText l val => if l < m.loggers then some (m.orSame (m.setFormatterText l val)) else none
  | .addAppender l a => if l < m.loggers ∧ a < m.appenders then some (m.addAppender l a) else none
  | .delAppender l a => if l < m.loggers ∧ a < m.appenders then some (m.delAppender l a) else none
  | .clearAppenders l => if l < m.loggers then some (m.clearAppenders l) else none
  | .appenderSetFormatter a val => if a < m.appenders then some (m.appenderSetFormatter a val) else none
  | .appenderSetFormatterText a fmt =>
      if a < m.appenders then some (m.orSame (m.appenderSetFormatterText a fmt)) else none

/-- Any calls on any loggers and appenders that have been made. -/
def machine : Machine Logs Action := .ofNext (· = {}) perform

end Logs

end Sylar
