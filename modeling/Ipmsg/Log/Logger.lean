import Mathlib.Logic.Function.Basic
import Ipmsg.Log.Define
import Ipmsg.Log.FormatterScan

set_option autoImplicit false

/-! # Loggers, appenders and the logger manager

The state a log call or a reconfiguration works on: the manager's loggers, the appenders they share
through `std::shared_ptr`, and what the operating system will answer. A method called through a null
pointer is the error `NullDeref`; everything else a method does is a new state. Names, times and
levels of an event only matter to the text that is printed, so an event here is its content. -/

namespace Ipmsg

/-! ## Pointers -/

/-- A non-null `Logger::ptr` of the manager. A logger is never taken out of `m_loggers` and never
    renamed, so it is identified by its name. -/
abbrev LoggerPtr := String

/-- A non-null `LogAppender::ptr`: appenders are numbered as they are constructed. -/
abbrev AppenderPtr := ℕ

/-- The null pointer a method was called through. -/
inductive NullDeref
  | logger
  | ap
  | formatter
  /-- Not a pointer: `Logger::log` followed `m_root` in a circle. -/
  | endless
  deriving DecidableEq, Repr

/-- What the operating system answers during one call: `time(0)`, and whether it grants an open and
    carries out a write. -/
structure Os where
  time : ℕ
  opens : Bool
  writes : Bool

/-! ## Appenders -/

/-- The flags of a `std::ofstream`. -/
structure Ofstream where
  is_open : Bool := false
  failbit : Bool := false
  badbit : Bool := false
  deriving DecidableEq

namespace Ofstream

/-- The stream as a condition. -/
def good (f : Ofstream) : Bool := !f.failbit && !f.badbit

def close (f : Ofstream) : Ofstream :=
  if f.is_open then { f with is_open := false } else { f with failbit := true }

/-- `open`: it fails on an open stream, and clears the flags when it succeeds. -/
def openFile (granted : Bool) (f : Ofstream) : Ofstream :=
  if !f.is_open && granted then { is_open := true } else { f with failbit := true }

/-- Insertion of some text; nothing is attempted on a stream that is not good. It fails where a write
    of the stream to the file does: of a full buffer, or at a flush. -/
def write (done : Bool) (f : Ofstream) : Ofstream :=
  if f.good && !(f.is_open && done) then { f with badbit := true } else f

end Ofstream

/-- The members `FileLogAppender` adds. -/
structure FileLogAppender where
  m_filename : String
  m_filestream : Ofstream := {}
  m_lastTime : ℕ := 0
  deriving DecidableEq

namespace FileLogAppender

/-- `FileLogAppender::reopen`, with its result. -/
def reopen (os : Os) (a : FileLogAppender) : FileLogAppender × Bool :=
  let closed := if a.m_filestream.good then a.m_filestream.close else a.m_filestream
  let m_filestream := closed.openFile os.opens
  ({ a with m_filestream }, m_filestream.good)

/-- The constructor. -/
def new (os : Os) (filename : String) : FileLogAppender :=
  (reopen os { m_filename := filename }).1

/-- The start of `FileLogAppender::log`: the file is reopened once a second. -/
def refresh (os : Os) (a : FileLogAppender) : FileLogAppender :=
  if os.time ≠ a.m_lastTime then { (a.reopen os).1 with m_lastTime := os.time } else a

/-- `m_formatter->format(m_filestream, ...)`: no item, no output. -/
def write (os : Os) (f : LogFormatter) (a : FileLogAppender) : FileLogAppender :=
  if f.m_items = [] then a else { a with m_filestream := a.m_filestream.write os.writes }

end FileLogAppender

/-- The two classes of appenders. -/
inductive AppenderClass
  | fileLogAppender (members : FileLogAppender)
  | stdoutLogAppender
  deriving DecidableEq

structure LogAppender where
  m_level : Level := .debug
  m_hasFormatter : Bool := false
  m_formatter : Option LogFormatter := none
  cls : AppenderClass

namespace LogAppender

/-- `LogAppender::setFormatter`. -/
def setFormatter (val : Option LogFormatter) (a : LogAppender) : LogAppender :=
  { a with m_formatter := val, m_hasFormatter := val.isSome }

/-- The access through `m_formatter`. -/
def derefFormatter (a : LogAppender) : Except NullDeref LogFormatter :=
  match a.m_formatter with
  | some f => .ok f
  | none => .error .formatter

theorem derefFormatter_of_some {a : LogAppender} {f : LogFormatter} (hf : a.m_formatter = some f) :
    a.derefFormatter = .ok f := by
  rw [derefFormatter, hf]

/-- The virtual `LogAppender::log`: the appender afterwards, and the formatter the event was written
    with unless its level is too low. -/
def log (os : Os) (level : Level) (a : LogAppender) :
    Except NullDeref (LogAppender × Option LogFormatter) := do
  if a.m_level.toNat ≤ level.toNat then
    match a.cls with
    | .fileLogAppender members =>
        let members := members.refresh os
        let f ← a.derefFormatter
        return ({ a with cls := .fileLogAppender (members.write os f) }, some f)
    | .stdoutLogAppender =>
        let f ← a.derefFormatter
        return (a, some f)
  else return (a, none)

end LogAppender

/-! ## The state -/

/-- The pattern of the formatter a logger is constructed with. -/
def defaultPattern : String :=
  "%d{%Y-%m-%d %H:%M:%S}%T%t%T%N%T%F%T[%p]%T[%c]%T%f:%l%T%m%n"

/-- A `Logger`; `m_name` is the pointer to it. -/
structure Logger where
  m_level : Level := .debug
  m_appenders : List AppenderPtr := []
  m_formatter : Option LogFormatter := some (LogFormatter.new defaultPattern)
  m_root : Option LoggerPtr := none

/-- An event handed to an appender, and the formatter it was written with, if it was written. -/
structure Delivery where
  self : LoggerPtr
  appender : AppenderPtr
  level : Level
  event : String
  written : Option LogFormatter

/-- The `LoggerManager`, the objects it holds, and the world outside. -/
structure LogState where
  /-- The keys of `m_loggers`. -/
  m_loggers : KeyedSet (fun name : String => name)
  m_root : LoggerPtr
  logger : LoggerPtr → Logger
  appender : AppenderPtr → LogAppender
  /-- The pointer of the next appender that is constructed. -/
  nextAppender : ℕ
  /-- The answers of the operating system, one for each call that asks it. -/
  os : ℕ → Os
  tick : ℕ
  /-- What appenders have been handed so far. -/
  deliveries : List Delivery

namespace LogState

def modifyLogger (s : LogState) (p : LoggerPtr) (f : Logger → Logger) : LogState :=
  { s with logger := Function.update s.logger p (f (s.logger p)) }

def modifyAppender (s : LogState) (p : AppenderPtr) (f : LogAppender → LogAppender) : LogState :=
  { s with appender := Function.update s.appender p (f (s.appender p)) }

/-- Construction of an appender, and the pointer to it. -/
def newAppender (s : LogState) (cls : AppenderClass) : AppenderPtr × LogState :=
  (s.nextAppender,
    { s with
      appender := Function.update s.appender s.nextAppender { cls }
      nextAppender := s.nextAppender + 1 })

/-- `new StdoutLogAppender`. -/
def newStdoutLogAppender (s : LogState) : AppenderPtr × LogState :=
  s.newAppender .stdoutLogAppender

/-- `new FileLogAppender(filename)`. -/
def newFileLogAppender (s : LogState) (filename : String) : AppenderPtr × LogState :=
  { s with tick := s.tick + 1 }.newAppender
    (.fileLogAppender (FileLogAppender.new (s.os s.tick) filename))

/-! ## The methods of `Logger` -/

/-- `Logger::setLevel`. -/
def setLevel (s : LogState) (p : LoggerPtr) (val : Level) : LogState :=
  s.modifyLogger p fun l => { l with m_level := val }

/-- `Logger::setFormatter(LogFormatter::ptr)`. -/
def setFormatterPtr (s : LogState) (p : LoggerPtr) (val : Option LogFormatter) : LogState :=
  let s := s.modifyLogger p fun l => { l with m_formatter := val }
  (s.logger p).m_appenders.foldl (fun s i =>
    s.modifyAppender i fun a => if !a.m_hasFormatter then { a with m_formatter := val } else a) s

/-- `Logger::setFormatter(const std::string&)`. -/
def setFormatter (s : LogState) (p : LoggerPtr) (val : String) : LogState :=
  if (LogFormatter.new val).m_error then s else s.setFormatterPtr p (some (LogFormatter.new val))

/-- `Logger::addAppender`. -/
def addAppender (s : LogState) (p : LoggerPtr) (appender : AppenderPtr) : LogState :=
  let s :=
    if (s.appender appender).m_formatter.isNone then
      s.modifyAppender appender fun a => { a with m_formatter := (s.logger p).m_formatter }
    else s
  s.modifyLogger p fun l => { l with m_appenders := l.m_appenders ++ [appender] }

/-- `Logger::delAppender`: the first occurrence goes. -/
def delAppender (s : LogState) (p : LoggerPtr) (appender : AppenderPtr) : LogState :=
  s.modifyLogger p fun l => { l with m_appenders := l.m_appenders.erase appender }

/-- `Logger::clearAppenders`. -/
def clearAppenders (s : LogState) (p : LoggerPtr) : LogState :=
  s.modifyLogger p fun l => { l with m_appenders := [] }

/-- The loop of `Logger::log` over the appenders. -/
def logAppenders (self : LoggerPtr) (level : Level) (event : String) :
    List AppenderPtr → LogState → Except NullDeref LogState
  | [], s => .ok s
  | i :: is, s => do
      let (a, written) ← (s.appender i).log (s.os s.tick) level
      let s := s.modifyAppender i fun _ => a
      logAppenders self level event is { s with
        tick := s.tick + 1
        deliveries := s.deliveries ++ [⟨self, i, level, event, written⟩] }

/-- `Logger::log`; the fuel bounds the chain of `m_root` pointers. -/
def logFuel (level : Level) (event : String) :
    ℕ → LoggerPtr → LogState → Except NullDeref LogState
  | 0, _, _ => .error .endless
  | fuel + 1, p, s =>
      if (s.logger p).m_level.toNat ≤ level.toNat then
        if (s.logger p).m_appenders ≠ [] then
          logAppenders p level event (s.logger p).m_appenders s
        else match (s.logger p).m_root with
          | some root => logFuel level event fuel root s
          | none => .ok s
      else .ok s

/-- `Logger::log`. A chain of `m_root` pointers longer than the number of loggers is a circle. -/
def log (s : LogState) (p : LoggerPtr) (level : Level) (event : String) :
    Except NullDeref LogState :=
  logFuel level event (s.m_loggers.elems.length + 1) p s

/-- `LOG_LEVEL(logger, level) << event`. -/
def logLevel (s : LogState) (p : LoggerPtr) (level : Level) (event : String) :
    Except NullDeref LogState :=
  if (s.logger p).m_level.toNat ≤ level.toNat then s.log p level event else .ok s

/-! ## The methods of `LoggerManager` -/

/-- `LoggerManager::getLogger`, also written `LOG_NAME`. -/
def getLogger (s : LogState) (name : String) : LoggerPtr × LogState :=
  if name ∈ s.m_loggers then (name, s)
  else (name, { s with
    m_loggers := s.m_loggers.insert name
    logger := Function.update s.logger name { m_root := some s.m_root } })

/-- The constructor of `LoggerManager`: the root logger with an appender for the console. -/
def new (os : ℕ → Os) : LogState :=
  let s : LogState :=
    { m_loggers := ∅, m_root := "root", logger := fun _ => {},
      appender := fun _ => { cls := .stdoutLogAppender }, nextAppender := 0, os, tick := 0,
      deliveries := [] }
  let (ap, s) := s.newStdoutLogAppender
  let s := s.addAppender s.m_root ap
  { s with m_loggers := s.m_loggers.insert s.m_root }

end LogState

end Ipmsg
