import Ipmsg.Lib.Locks
import Ipmsg.Log.Dump

set_option autoImplicit false

/-! # Loggers with their locks

The methods of loggers, appenders and the logger manager as programs that take the locks of the
code. Run alone, such a program does what the method does. -/

namespace Ipmsg

open LogState

/-! ## The locks -/

/-- The mutexes of the library: those of the registry and of each variable are rwlocks, the others
    are spinlocks. -/
inductive Lock
  | registry
  | variable (n : ℕ)
  | manager
  | logger (p : LoggerPtr)
  | appender (i : AppenderPtr)
  deriving DecidableEq, Repr

/-- The order the locks are taken in. The root logger comes after the loggers that fall back to
    it. -/
def Lock.rank : Lock → Fin 7
  | .registry => 1
  | .variable _ => 2
  | .manager => 3
  | .logger p => if p = "root" then 5 else 4
  | .appender _ => 6

/-- A method that takes locks. -/
abbrev LogProg := Prog Lock LogState

/-- A method that takes locks and may go through a null pointer. -/
abbrev LogProgT := ExceptT NullDeref LogProg

/-- `MutexType::Lock lock(m_mutex)` with a spinlock. -/
def spin {α : Type} (l : Lock) (body : LogProg α) : LogProg α := Prog.locked l .exclusive body

namespace Locked

/-- The state as it is now. -/
def state : LogProg LogState := Prog.get

/-- A change of the state. -/
def update (f : LogState → LogState) : LogProg Unit := Prog.modify f

/-! ## Appenders -/

/-- `LogAppender::setFormatter`. -/
def appenderSetFormatter (i : AppenderPtr) (val : Option LogFormatter) : LogProg Unit :=
  spin (.appender i) (update fun s => s.modifyAppender i (LogAppender.setFormatter val))

/-- `LogAppender::getFormatter`. -/
def appenderGetFormatter (i : AppenderPtr) : LogProg (Option LogFormatter) :=
  spin (.appender i) do return ((← state).appender i).m_formatter

/-- `LogAppender::setLevel`, which takes no lock. -/
def appenderSetLevel (i : AppenderPtr) (val : Level) : LogProg Unit :=
  update fun s => s.modifyAppender i fun a => { a with m_level := val }

/-- A change of the members `FileLogAppender` adds. -/
def modifyFile (i : AppenderPtr) (f : FileLogAppender → FileLogAppender) (s : LogState) : LogState :=
  s.modifyAppender i fun a => match a.cls with
    | .fileLogAppender members => { a with cls := .fileLogAppender (f members) }
    | .stdoutLogAppender => a

/-- `FileLogAppender::reopen`. -/
def reopen (i : AppenderPtr) (os : Os) : LogProg Unit :=
  spin (.appender i) (update (modifyFile i fun members => (members.reopen os).1))

/-- `m_formatter->format(...)` under the lock of the appender: the formatter used. -/
def format (i : AppenderPtr) (os : Os) : LogProgT LogFormatter :=
  Prog.lockedT (.appender i) .exclusive do
    let f ← Prog.ofExcept ((← state).appender i).derefFormatter
    update (modifyFile i fun members => members.write os f)
    return f

/-- The virtual `LogAppender::log`: the formatter the event was written with. -/
def appenderLog (level : Level) (i : AppenderPtr) : LogProgT (Option LogFormatter) := do
  let s ← state
  if (s.appender i).m_level.toNat ≤ level.toNat then
    let os := s.os s.tick
    if let .fileLogAppender members := (s.appender i).cls then
      if os.time ≠ members.m_lastTime then
        reopen i os
        update (modifyFile i fun members => { members with m_lastTime := os.time })
    return some (← format i os)
  else return none

/-- The virtual `LogAppender::toYamlString`. -/
def appenderToYamlString (Y : YamlCpp) (i : AppenderPtr) : ExceptT StdException LogProg String :=
  Prog.lockedT (.appender i) .exclusive do
    Prog.ofExcept (((← state).appender i).toYamlString Y)

/-- `new StdoutLogAppender`. -/
def newStdoutLogAppender : LogProg AppenderPtr :=
  .access (fun s => s.newStdoutLogAppender.2) fun s => return s.newStdoutLogAppender.1

/-- `new FileLogAppender(filename)`: the constructor opens the file. -/
def newFileLogAppender (filename : String) : LogProg AppenderPtr := do
  let ap ← .access (fun s => (s.newAppender (.fileLogAppender { m_filename := filename })).2)
    fun s => return s.nextAppender
  let os ← .access (fun s => { s with tick := s.tick + 1 }) fun s => return s.os s.tick
  reopen ap os
  return ap

/-! ## Loggers -/

/-- `Logger::setLevel`, which takes no lock. -/
def setLevel (p : LoggerPtr) (val : Level) : LogProg Unit := update fun s => s.setLevel p val

/-- `Logger::setFormatter(LogFormatter::ptr)`: the appenders are locked one after another. -/
def setFormatterPtr (p : LoggerPtr) (val : Option LogFormatter) : LogProg Unit :=
  spin (.logger p) do
    update fun s => s.modifyLogger p fun l => { l with m_formatter := val }
    ((← state).logger p).m_appenders.foldlM (fun _ i => spin (.appender i) (update fun s =>
      s.modifyAppender i fun a => if !a.m_hasFormatter then { a with m_formatter := val } else a))
      ()

/-- `Logger::setFormatter(const std::string&)`. -/
def setFormatter (p : LoggerPtr) (val : String) : LogProg Unit :=
  if (LogFormatter.new val).m_error then return ()
  else setFormatterPtr p (some (LogFormatter.new val))

/-- `Logger::getFormatter`. -/
def getFormatter (p : LoggerPtr) : LogProg (Option LogFormatter) :=
  spin (.logger p) do return ((← state).logger p).m_formatter

/-- `Logger::addAppender`. -/
def addAppender (p : LoggerPtr) (ap : AppenderPtr) : LogProg Unit :=
  spin (.logger p) do
    if (← appenderGetFormatter ap).isNone then
      spin (.appender ap) (update fun s =>
        s.modifyAppender ap fun a => { a with m_formatter := (s.logger p).m_formatter })
    update fun s => s.modifyLogger p fun l => { l with m_appenders := l.m_appenders ++ [ap] }

/-- `Logger::clearAppenders`. -/
def clearAppenders (p : LoggerPtr) : LogProg Unit :=
  spin (.logger p) (update fun s => s.clearAppenders p)

/-- One pass of the loop of `Logger::log` over the appenders. -/
def logAppender (self : LoggerPtr) (level : Level) (event : String) (i : AppenderPtr) :
    LogProgT Unit := do
  let written ← appenderLog level i
  update fun s => { s with
    tick := s.tick + 1
    deliveries := s.deliveries ++ [⟨self, i, level, event, written⟩] }

/-- `Logger::log`, which calls the `log` of the root logger while it holds its own lock. -/
def logFuel (level : Level) (event : String) : ℕ → LoggerPtr → LogProgT Unit
  | 0, _ => throw .endless
  | fuel + 1, p => do
      if ((← state).logger p).m_level.toNat ≤ level.toNat then
        Prog.lockedT (.logger p) .exclusive do
          let s ← state
          if (s.logger p).m_appenders ≠ [] then
            (s.logger p).m_appenders.foldlM (fun _ i => logAppender p level event i) ()
          else match (s.logger p).m_root with
            | some root => logFuel level event fuel root
            | none => return ()

/-- `Logger::log`. -/
def log (p : LoggerPtr) (level : Level) (event : String) : LogProgT Unit := do
  logFuel level event ((← state).m_loggers.elems.length + 1) p

/-- `LOG_LEVEL(logger, level) << event`. -/
def logLevel (p : LoggerPtr) (level : Level) (event : String) : LogProgT Unit := do
  if ((← state).logger p).m_level.toNat ≤ level.toNat then log p level event

/-- What `Logger::toYamlString` prints before the appenders. -/
def loggerHead (s : LogState) (p : LoggerPtr) : Except StdException Node := do
  let mut node ← Node.null.set "name" (.scalar p)
  if (s.logger p).m_level ≠ .unknow then
    node ← node.set "level" (.scalar (s.logger p).m_level.toString)
  if let some f := (s.logger p).m_formatter then
    node ← node.set "formatter" (.scalar f.m_pattern)
  return node

/-- `Logger::toYamlString`. -/
def loggerToYamlString (Y : YamlCpp) (p : LoggerPtr) : ExceptT StdException LogProg String :=
  Prog.lockedT (.logger p) .exclusive do
    let s ← state
    let node ← Prog.ofExcept (loggerHead s p)
    let node ← (s.logger p).m_appenders.foldlM (fun node i => do
      Prog.ofExcept (pushAppenderNode node (← Prog.ofExcept (Y.load (← appenderToYamlString Y i))))) node
    return Y.emit node

/-! ## The manager -/

/-- `LoggerManager::getLogger`. -/
def getLogger (name : String) : LogProg LoggerPtr :=
  spin .manager (.access (fun s => (s.getLogger name).2) fun s => return (s.getLogger name).1)

/-- `LoggerManager::toYamlString`. -/
def toYamlString (Y : YamlCpp) : ExceptT StdException LogProg String :=
  Prog.lockedT .manager .exclusive do
    let node ← (← state).m_loggers.elems.foldlM (fun node i => do
      Prog.ofExcept (node.pushBack (← Prog.ofExcept (Y.load (← loggerToYamlString Y i))))) Node.null
    return Y.emit node

/-! ## The listener of the `logs` variable -/

/-- The object constructed for an appender definition. -/
def makeAppender (a : LogAppenderDefine) : LogProg (Option AppenderPtr) := do
  if a.type = 1 then return some (← newFileLogAppender a.file)
  else if a.type = 2 then return some (← newStdoutLogAppender)
  else return none

/-- One pass of the loop over `i.appenders`. -/
def configureAppender (logger : LoggerPtr) (a : LogAppenderDefine) : LogProgT Unit := do
  match ← makeAppender a with
  | none => throw .ap
  | some ap =>
      appenderSetLevel ap a.level
      if a.formatter ≠ "" ∧ !(LogFormatter.new a.formatter).m_error then
        appenderSetFormatter ap (some (LogFormatter.new a.formatter))
      addAppender logger ap

/-- The search for the logger of an entry. -/
def selectLogger (old_value : LogDefineSet) (i : LogDefine) : LogProg (Option LoggerPtr) := do
  let it := SetIterator.find .old_value old_value i
  if it = SetIterator.end_ .old_value then return some (← getLogger i.name)
  else if it.element ≠ some i then return some (← getLogger i.name)
  else return none

/-- One pass of the loop over `new_value`. -/
def configureLogger (old_value : LogDefineSet) (i : LogDefine) : LogProgT Unit := do
  match ← selectLogger old_value i with
  | none => throw .logger
  | some logger =>
      setLevel logger i.level
      if i.formatter ≠ "" then setFormatter logger i.formatter
      clearAppenders logger
      i.appenders.foldlM (fun _ a => configureAppender logger a) ()

/-- One pass of the loop over `old_value`. -/
def deleteLogger (new_value : LogDefineSet) (i : LogDefine) : LogProg Unit := do
  if SetIterator.find .new_value new_value i = SetIterator.end_ .old_value then
    let logger ← getLogger i.name
    setLevel logger .cast100
    clearAppenders logger

/-- The listener `LogIniter` registers. -/
def logsListener (old_value new_value : LogDefineSet) : LogProgT Unit := do
  logLevel (← state).m_root .info "on_logger_conf_changed"
  new_value.elems.foldlM (fun _ i => configureLogger old_value i) ()
  old_value.elems.foldlM (fun _ i => liftM (deleteLogger new_value i)) ()

end Locked
end Ipmsg
