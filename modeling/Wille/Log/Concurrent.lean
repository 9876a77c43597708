import Wille.ForMathlib.Locking
import Wille.ForMathlib.OrderedSet
import Wille.Log.Event
import Wille.Log.Listener

/-!
# The log, used by many threads

The functions of `log.cpp` as programs of their own atomic steps, with the mutexes of the loggers,
of the appenders and of the manager. Any number of threads call them, in any order and at the same
time. What is not behind a mutex in the code (`m_level`, `m_lastTime`) is not behind one here.

## What the model keeps

* A pointer to a logger or to an appender is its number in the order of creation. The root logger
  is the first.
* What an appender inserts into its stream is kept item by item, for each appender by itself. What
  a file then has of it is not the subject here, nor is the one `std::cout` of several appenders.
  `reopen` closes the stream and opens it again.
* A loop over `m_appenders` or `m_loggers` runs with the mutex of its owner held, so the list is
  read once, at its beginning.
* `log` calls itself for the root logger. The program for it is the one for a certain depth, and is
  stuck if it were to go deeper.
* `toYamlString` returns what the text is made of. What is printed to `std::cout` as an error is
  left out, and so is `m_name` where only such a message reads it.

## Main definitions

* `MutexOf`, `Output`, `Objects` — the mutexes and the objects
* `LogAppender.log`, `Logger.addAppender`, `Logger.log`, `LoggerManager.getLogger`,
  `LogIniter.onChange`, … — the programs
* `Call`, `Call.code`, `Call.Given` — what a thread can call
-/

namespace Wille

namespace Log

namespace Concurrent

open Locking Config

/-! ### The objects -/

/-- The mutexes. -/
inductive MutexOf where
  | manager
  | logger (l : ℕ)
  | appender (a : ℕ)
  deriving DecidableEq

/-- What an appender does to its stream. -/
inductive Output where
  /-- It is closed and opened again. -/
  | reopened
  /-- `format` of an item. -/
  | item (i : FormatItem) (level : LogLevel) (event : LogEvent)

/-- The objects that there are. -/
structure Objects where
  loggers : ℕ → Logger
  /-- `m_root` of the loggers. -/
  root : ℕ → Option ℕ
  loggerCount : ℕ
  appenders : ℕ → LogAppender
  /-- `m_lastTime` of the appenders. -/
  lastTime : ℕ → UInt64
  appenderCount : ℕ
  /-- What has been done to the streams. -/
  streams : ℕ → List Output
  /-- `m_loggers` -/
  names : List (String × ℕ)

namespace Objects

/-- A logger has become this one. -/
def setLogger (s : Objects) (l : ℕ) (logger : Logger) : Objects :=
  { s with loggers := Function.update s.loggers l logger }

/-- An appender has become this one. -/
def setAppender (s : Objects) (a : ℕ) (appender : LogAppender) : Objects :=
  { s with appenders := Function.update s.appenders a appender }

/-- An appender does this to its stream. -/
def put (s : Objects) (a : ℕ) (out : Output) : Objects :=
  { s with streams := Function.update s.streams a (s.streams a ++ [out]) }

/-- `m_loggers.find` -/
def find (s : Objects) (name : String) : Option ℕ :=
  (s.names.find? fun e => e.1 = name).map Prod.snd

/-- `m_loggers[name] = logger` -/
def bind (s : Objects) (name : String) (l : ℕ) : Objects :=
  { s with names := OrderedSet.insertOrAssign (fun x y => x.1 < y.1) (name, l) s.names }

end Objects

/-! ### The programs -/

/-- A program over the objects. -/
abbrev Code (R : Type) := Prog MutexOf Objects R

namespace LogAppender

def setFormatter (a : ℕ) (val : Option LogFormatter) : Code Unit :=
  .locked .write (.appender a) (.modify fun s => s.setAppender a ((s.appenders a).setFormatter val))

def getFormatter (a : ℕ) : Code (Option LogFormatter) :=
  .locked .write (.appender a) (.read fun s => (s.appenders a).formatter)

def setLevel (a : ℕ) (val : LogLevel) : Code Unit :=
  .modify fun s => s.setAppender a ((s.appenders a).setLevel val)

def getLevel (a : ℕ) : Code LogLevel := .read fun s => (s.appenders a).level

/-- `new StdoutLogAppender`, and the part of `new FileLogAppender` before `reopen`. -/
def create (kind : AppenderKind) : Code ℕ :=
  .act (fun s => { s with
    appenders := Function.update s.appenders s.appenderCount (.create kind)
    lastTime := Function.update s.lastTime s.appenderCount 0
    appenderCount := s.appenderCount + 1 }) fun s => .ret s.appenderCount

/-- `FileLogAppender::reopen` -/
def reopen (a : ℕ) : Code Unit :=
  .locked .write (.appender a) (.modify fun s => s.put a .reopened)

/-- `new FileLogAppender` -/
def createFile (filename : String) : Code ℕ := do
  let a ← create (.file filename)
  reopen a
  pure a

/-- `m_formatter->format` -/
def format (a : ℕ) (level : LogLevel) (event : LogEvent) : Code Unit := do
  let formatter ← .follow fun s => (s.appenders a).formatter
  .forEach formatter.items fun i => .modify fun s => s.put a (.item i level event)

/-- `StdoutLogAppender::log` -/
def logStdout (a : ℕ) (level : LogLevel) (event : LogEvent) : Code Unit :=
  .locked .write (.appender a) do
    let m_level ← getLevel a
    .when (m_level.num ≤ level.num) (format a level event)

/-- `FileLogAppender::log` -/
def logFile (a : ℕ) (level : LogLevel) (event : LogEvent) : Code Unit := do
  let m_level ← getLevel a
  .when (m_level.num ≤ level.num) do
    let m_lastTime ← .read fun s => s.lastTime a
    .when (m_lastTime + 3 ≤ event.time) do
      reopen a
      .modify fun s => { s with lastTime := Function.update s.lastTime a event.time }
    .locked .write (.appender a) (format a level event)

/-- `log`, which is virtual. -/
def log (a : ℕ) (level : LogLevel) (event : LogEvent) : Code Unit := do
  let kind ← .read fun s => (s.appenders a).kind
  match kind with
  | .stdout => logStdout a level event
  | .file _ => logFile a level event

/-- `toYamlString`, which is virtual. -/
def toYamlString (a : ℕ) : Code LogAppender :=
  .locked .write (.appender a) (.read fun s => s.appenders a)

end LogAppender

namespace Logger

def addAppender (l a : ℕ) : Code Unit :=
  .locked .write (.logger l) do
    let formatter ← LogAppender.getFormatter a
    .when (formatter = none) do
      let m_formatter ← .read fun s => (s.loggers l).formatter
      LogAppender.setFormatter a m_formatter
    .modify fun s => s.setLogger l
      { s.loggers l with appenders := (s.loggers l).appenders ++ [a] }

def delAppender (l a : ℕ) : Code Unit :=
  .locked .write (.logger l) (.modify fun s => s.setLogger l ((s.loggers l).delAppender a))

def clearAppenders (l : ℕ) : Code Unit :=
  .locked .write (.logger l) (.modify fun s => s.setLogger l (s.loggers l).clearAppenders)

def getLevel (l : ℕ) : Code LogLevel := .read fun s => (s.loggers l).level

def setLevel (l : ℕ) (val : LogLevel) : Code Unit :=
  .modify fun s => s.setLogger l ((s.loggers l).setLevel val)

/-- `setFormatter` of a pointer -/
def setFormatterPtr (l : ℕ) (formatter : Option LogFormatter) : Code Unit :=
  .locked .write (.logger l) do
    .modify fun s => s.setLogger l { s.loggers l with formatter := formatter }
    let m_appenders ← .read fun s => (s.loggers l).appenders
    .forEach m_appenders fun a => LogAppender.setFormatter a formatter

/-- `setFormatter` of a text -/
def setFormatter (l : ℕ) (val : String) : Code Unit :=
  .when ((LogFormatter.create val).isError = false) (setFormatterPtr l (some (.create val)))

def getFormatter (l : ℕ) : Code (Option LogFormatter) :=
  .locked .write (.logger l) (.read fun s => (s.loggers l).formatter)

/-- `log`, as far as it is not deeper in the root loggers than this. -/
def log (level : LogLevel) (event : LogEvent) : ℕ → ℕ → Code Unit
  | 0, _ => .stuck
  | depth + 1, l =>
    .locked .write (.logger l) do
      let m_level ← getLevel l
      .when (m_level.num ≤ level.num) do
        let m_appenders ← .read fun s => (s.loggers l).appenders
        if m_appenders ≠ [] then
          .forEach m_appenders fun a => LogAppender.log a level event
        else do
          let m_root ← .read fun s => s.root l
          match m_root with
          | some r => log level event depth r
          | none => .ret ()

/-- `toYamlString` -/
def toYamlString (l : ℕ) : Code LoggerValue :=
  .locked .write (.logger l) do
    let m_level ← getLevel l
    let m_formatter ← .read fun s => (s.loggers l).formatter
    let m_appenders ← .read fun s => (s.loggers l).appenders
    let appenders ← .collect m_appenders LogAppender.toYamlString
    pure ⟨m_level, m_formatter, appenders⟩

end Logger

namespace LoggerManager

def getRoot : Code ℕ := .ret 0

/-- `new Logger(name)` -/
def newLogger (name : String) : Code ℕ :=
  .act (fun s => { s with
    loggers := Function.update s.loggers s.loggerCount (.create name)
    root := Function.update s.root s.loggerCount none
    loggerCount := s.loggerCount + 1 }) fun s => .ret s.loggerCount

def getLogger (name : String) : Code ℕ :=
  .locked .write .manager do
    let it ← .read fun s => s.find name
    match it with
    | some l => pure l
    | none => do
      let logger ← newLogger name
      .modify fun s => { s with root := Function.update s.root logger (some 0) }
      .modify fun s => s.bind name logger
      pure logger

def toYamlString : Code (List LoggerValue) :=
  .locked .write .manager do
    let m_loggers ← .read fun s => s.names
    .collect m_loggers fun i => Logger.toYamlString i.2

end LoggerManager

/-- The end of a `LogEventWrapper`, where the logger is number `l`. -/
def logEvent (l : ℕ) (level : LogLevel) (event : LogEvent) : Code Unit := do
  let m_level ← Logger.getLevel l
  .when (m_level.num ≤ level.num) (Logger.log level event 2 l)

namespace LogIniter

/-- The appender for an element of `appenders`, in the loop of the listener. -/
def add (logger : ℕ) (a : LogAppenderDefine) : Code Unit := do
  let ap ← (if a.type = 1 then LogAppender.createFile a.file else LogAppender.create .stdout)
  LogAppender.setLevel ap a.level
  .when (a.formatter ≠ "" ∧ (LogFormatter.create a.formatter).isError = false)
    (LogAppender.setFormatter ap (some (.create a.formatter)))
  Logger.addAppender logger ap

/-- The turn of the first loop, for an element that is new or different. -/
def apply (i : LogDefine) : Code Unit := do
  let logger ← LoggerManager.getLogger i.name
  Logger.setLevel logger i.level
  .when (i.formatter ≠ "") (Logger.setFormatter logger i.formatter)
  Logger.clearAppenders logger
  .forEach i.appenders (add logger)

/-- The turn of the second loop, for an element that is gone. -/
def remove (i : LogDefine) : Code Unit := do
  let logger ← LoggerManager.getLogger i.name
  Logger.setLevel logger .UNKNOW
  Logger.clearAppenders logger

/-- The listener, with the message that it logs. -/
def onChange (event : LogEvent) (old_value new_value : LogDefines) : Code Unit := do
  logEvent 0 .INFO event
  .forEach new_value.1 fun i => .when (old_value.find i ≠ some i) (apply i)
  .forEach old_value.1 fun i => .when (new_value.find i = none) (remove i)

end LogIniter

/-! ### The calls -/

/-- What a thread can call. -/
inductive Call where
  | getRoot
  | getLogger (name : String)
  | managerToYaml
  | addAppender (l a : ℕ)
  | delAppender (l a : ℕ)
  | clearAppenders (l : ℕ)
  | setLevel (l : ℕ) (val : LogLevel)
  | setFormatterPtr (l : ℕ) (formatter : Option LogFormatter)
  | setFormatter (l : ℕ) (val : String)
  | getFormatter (l : ℕ)
  | loggerToYaml (l : ℕ)
  /-- `Logger::log` -/
  | log (l : ℕ) (level : LogLevel) (event : LogEvent)
  /-- `WILLE_LOG_LEVEL` -/
  | logEvent (l : ℕ) (level : LogLevel) (event : LogEvent)
  | createStdout
  | createFile (filename : String)
  | appenderSetFormatter (a : ℕ) (val : Option LogFormatter)
  | appenderGetFormatter (a : ℕ)
  | appenderSetLevel (a : ℕ) (val : LogLevel)
  | appenderToYaml (a : ℕ)
  | reopen (a : ℕ)
  /-- A new value is given to the config variable `logs`. -/
  | onChange (event : LogEvent) (old_value new_value : LogDefines)

/-- What a call returns. -/
inductive Answer where
  | nothing
  | logger (l : ℕ)
  | appender (a : ℕ)
  | formatter (formatter : Option LogFormatter)
  | appenderYaml (value : LogAppender)
  | loggerYaml (values : List LoggerValue)

namespace Call

/-- The program of a call. -/
def code : Call → Code Answer
  | .getRoot => do return .logger (← LoggerManager.getRoot)
  | .getLogger name => do return .logger (← LoggerManager.getLogger name)
  | .managerToYaml => do return .loggerYaml (← LoggerManager.toYamlString)
  | .addAppender l a => do Logger.addAppender l a; return .nothing
  | .delAppender l a => do Logger.delAppender l a; return .nothing
  | .clearAppenders l => do Logger.clearAppenders l; return .nothing
  | .setLevel l val => do Logger.setLevel l val; return .nothing
  | .setFormatterPtr l formatter => do Logger.setFormatterPtr l formatter; return .nothing
  | .setFormatter l val => do Logger.setFormatter l val; return .nothing
  | .getFormatter l => do return .formatter (← Logger.getFormatter l)
  | .loggerToYaml l => do return .loggerYaml [← Logger.toYamlString l]
  | .log l level event => do Logger.log level event 2 l; return .nothing
  | .logEvent l level event => do Concurrent.logEvent l level event; return .nothing
  | .createStdout => do return .appender (← LogAppender.create .stdout)
  | .createFile filename => do return .appender (← LogAppender.createFile filename)
  | .appenderSetFormatter a val => do LogAppender.setFormatter a val; return .nothing
  | .appenderGetFormatter a => do return .formatter (← LogAppender.getFormatter a)
  | .appenderSetLevel a val => do LogAppender.setLevel a val; return .nothing
  | .appenderToYaml a => do return .appenderYaml (← LogAppender.toYamlString a)
  | .reopen a => do LogAppender.reopen a; return .nothing
  | .onChange event old_value new_value => do
    LogIniter.onChange event old_value new_value
    return .nothing

/-- The call is given loggers and appenders that there are, and no null formatter. -/
def Given (s : Objects) : Call → Prop
  | .getRoot | .getLogger _ | .managerToYaml | .createStdout | .createFile _ | .onChange .. => True
  | .addAppender l a | .delAppender l a => l < s.loggerCount ∧ a < s.appenderCount
  | .setFormatterPtr l formatter => l < s.loggerCount ∧ formatter ≠ none
  | .clearAppenders l | .setLevel l _ | .setFormatter l _ | .getFormatter l | .loggerToYaml l
  | .log l .. | .logEvent l .. => l < s.loggerCount
  | .appenderSetFormatter a val => a < s.appenderCount ∧ val ≠ none
  | .appenderGetFormatter a | .appenderSetLevel a _ | .appenderToYaml a | .reopen a =>
    a < s.appenderCount

instance (s : Objects) : (c : Call) → Decidable (Given s c)
  | .getRoot | .getLogger _ | .managerToYaml | .createStdout | .createFile _ | .onChange .. =>
    instDecidableTrue
  | .addAppender l a | .delAppender l a =>
    inferInstanceAs (Decidable (l < s.loggerCount ∧ a < s.appenderCount))
  | .setFormatterPtr l formatter =>
    inferInstanceAs (Decidable (l < s.loggerCount ∧ formatter ≠ none))
  | .clearAppenders l | .setLevel l _ | .setFormatter l _ | .getFormatter l | .loggerToYaml l
  | .log l .. | .logEvent l .. => inferInstanceAs (Decidable (l < s.loggerCount))
  | .appenderSetFormatter a val => inferInstanceAs (Decidable (a < s.appenderCount ∧ val ≠ none))
  | .appenderGetFormatter a | .appenderSetLevel a _ | .appenderToYaml a | .reopen a =>
    inferInstanceAs (Decidable (a < s.appenderCount))

end Call

/-- The manager has been created, and nothing else: its root logger has a `StdoutLogAppender`. -/
def Objects.init : Objects where
  loggers l := if l = 0 then { Logger.create "root" with appenders := [0] } else .create ""
  root _ := none
  loggerCount := 1
  appenders a := ⟨.stdout, .DEBUG, if a = 0 then (Logger.create "root").formatter else none⟩
  lastTime _ := 0
  appenderCount := 1
  streams _ := []
  names := [("root", 0)]

end Concurrent

end Log

end Wille
