import Ipmsg.Log.Event
import Ipmsg.Log.LockedSpec
import Ipmsg.Log.Dispatch

set_option autoImplicit false

/-! # What log calls print

A log call prints the items of a formatter one after another to the stream of an appender, while it
holds the lock of the appender. A file stream keeps what is inserted in a buffer: `std::endl` and
`close` write all of it to the file, and an insertion may write some of it. Here the text itself is
a part of the state, and goes from a stream to its file one byte per access: what each stream holds,
what is in each file and which appender has put it there, and what log calls print to `std::cout`,
to which other methods print as well. Files are told apart by their names, and nobody else changes
them. -/

namespace Ipmsg

open Prog

/-! ## The state -/

/-- An event an appender has printed, and whether the stream was good afterwards. -/
structure Printed where
  appender : AppenderPtr
  level : Level
  event : LogEvent
  formatter : LogFormatter
  done : Bool

section
variable (text : FormatItem → Level → LogEvent → List UInt8)

/-- What a formatter makes of an event. -/
def LogFormatter.lineOf (f : LogFormatter) (level : Level) (event : LogEvent) : List UInt8 :=
  f.m_items.flatMap fun item => text item level event

/-- What the stream has taken. -/
def Printed.line (p : Printed) : List UInt8 :=
  if p.done then p.formatter.lineOf text p.level p.event else []

end

/-- The last item is `%n`, which flushes the stream. -/
def LogFormatter.EndsLine (f : LogFormatter) : Prop := f.m_items.getLast? = some .newLineFormatItem

/-- What a stream does when it may write: how many of the bytes it holds it writes, unless it has to
    write all of them, and whether the write fails after these. -/
structure WriteOut where
  count : ℕ
  fails : Bool

/-- The loggers, and what they have printed. -/
structure Output where
  loggers : LogState
  /-- The bytes of each file; those of an appender have its number. -/
  files : String → List (Option AppenderPtr × UInt8)
  /-- What the stream of an appender has taken and not written to the file. -/
  buffer : AppenderPtr → List UInt8
  /-- What log calls have printed to `std::cout`. -/
  console : List UInt8
  /-- What the stream of an appender has taken of the event at hand. -/
  line : AppenderPtr → List UInt8
  /-- The events that have been printed, in the order of their ends. -/
  printed : List Printed
  writeOuts : ℕ → WriteOut
  /-- The position of the next one. -/
  turn : ℕ
  /-- A null pointer was followed, or `m_root` in a circle. -/
  crashed : Bool

/-- A method that prints. -/
abbrev OutputProg := Prog Lock Output

/-- A method that prints and may go through a null pointer. -/
abbrev OutputProgT := ExceptT NullDeref OutputProg

/-- The stream is good, and open. -/
def FileLogAppender.accepts (a : FileLogAppender) : Bool :=
  a.m_filestream.good && a.m_filestream.is_open

namespace Output

/-- A start; the files have been written to before. -/
def new (os : ℕ → Os) (writeOuts : ℕ → WriteOut) (init : String → List UInt8) : Output where
  loggers := LogState.new os
  files name := (init name).map fun b => (none, b)
  buffer _ := []
  console := []
  line _ := []
  printed := []
  writeOuts
  turn := 0
  crashed := false

/-- The rest of the state stays. -/
def setLoggers (s : Output) (loggers : LogState) : Output := { s with loggers }

/-- A method that does not print. -/
def onLog {α : Type} (p : LogProg α) : OutputProg α := p.zoom Output.loggers setLoggers

/-- A method that does not print and may go through a null pointer. -/
def onLogT {α : Type} (p : LogProgT α) : OutputProgT α := ExceptT.mk (onLog p.run)

/-- The state as it is now. -/
def state : OutputProg Output := Prog.get

/-- A change of the state. -/
def update (f : Output → Output) : OutputProg Unit := Prog.modify f

/-! ## Streams -/

/-- The first byte a stream holds gets into the file. -/
def put (i : AppenderPtr) (filename : String) (s : Output) : Output :=
  match s.buffer i with
  | [] => s
  | b :: rest => { s with
      files := Function.update s.files filename (s.files filename ++ [(some i, b)])
      buffer := Function.update s.buffer i rest }

/-- The first bytes a stream holds get into the file. -/
def puts (i : AppenderPtr) (filename : String) : ℕ → OutputProg Unit
  | 0 => return ()
  | n + 1 => do
      update (put i filename)
      puts i filename n

/-- A stream writes some or all of what it holds. The result is whether it is still good. -/
def writeOut (i : AppenderPtr) (filename : String) (all : Bool) : OutputProg Bool :=
  .access (fun s => { s with turn := s.turn + 1 }) fun s => do
    let w := s.writeOuts s.turn
    puts i filename (if all && !w.fails then (s.buffer i).length else w.count)
    return !w.fails

/-- `m_filestream << bytes`. -/
def insert (i : AppenderPtr) (filename : String) (bytes : List UInt8) : OutputProg Bool := do
  update fun s => { s with
    buffer := Function.update s.buffer i (s.buffer i ++ bytes)
    line := Function.update s.line i (s.line i ++ bytes) }
  writeOut i filename false

/-- `m_filestream.close()`. -/
def close (i : AppenderPtr) (filename : String) : OutputProg Unit := do
  let _ ← writeOut i filename true
  update fun s => { s with buffer := Function.update s.buffer i [] }

/-- `std::cout << bytes`. -/
def cout (bytes : List UInt8) : OutputProg Unit :=
  bytes.foldlM (fun _ b => update fun s => { s with console := s.console ++ [b] }) ()

/-! ## Appenders -/

/-- `FileLogAppender::reopen`. -/
def reopen (i : AppenderPtr) (os : Os) : OutputProg Unit :=
  Prog.locked (.appender i) .exclusive do
    match ((← state).loggers.appender i).cls with
    | .stdoutLogAppender => return ()
    | .fileLogAppender members =>
        if members.accepts then close i members.m_filename
        update fun s =>
          s.setLoggers (Locked.modifyFile i (fun members => (members.reopen os).1) s.loggers)
        if !(members.reopen os).2 then cout (bytes "!!!! open error !!!!\n")

section
variable (text : FormatItem → Level → LogEvent → List UInt8)

/-- An item printed to a file; `NewLineFormatItem` flushes the stream. -/
def formatItem (level : Level) (event : LogEvent) (i : AppenderPtr) (filename : String)
    (item : FormatItem) : OutputProg Bool := do
  let good ← insert i filename (text item level event)
  if good ∧ item = .newLineFormatItem then writeOut i filename true else return good

/-- `LogFormatter::format` to the stream of a file; `text` is what the items print. Nothing is
    inserted into a stream that is not good. -/
def formatTo (level : Level) (event : LogEvent) (i : AppenderPtr) (members : FileLogAppender)
    (f : LogFormatter) : OutputProg Bool :=
  f.m_items.foldlM (fun good item =>
    if good then formatItem text level event i members.m_filename item else return false)
    members.accepts

/-- The end of an event, and what becomes of the stream. -/
def record (p : Printed) (os : Os) : OutputProg Unit :=
  update fun s => { s with
    loggers := Locked.modifyFile p.appender (fun members => members.write os p.formatter) s.loggers
    line := Function.update s.line p.appender []
    printed := s.printed ++ [p] }

/-- The event printed to the stream of an appender. Whether a write fails is up to the stream. -/
def print (level : Level) (event : LogEvent) (i : AppenderPtr) (os : Os) (f : LogFormatter) :
    AppenderClass → OutputProg Unit
  | .stdoutLogAppender => do
      f.m_items.foldlM (fun _ item => cout (text item level event)) ()
      record ⟨i, level, event, f, true⟩ os
  | .fileLogAppender members => do
      let good ← formatTo text level event i members f
      let os := { os with writes := good }
      let done := (members.write os f).m_filestream.good
      record ⟨i, level, event, f, done⟩ os
      if !done then cout (bytes "error\n")

/-- `m_formatter->format(...)` under the lock of the appender. -/
def format (level : Level) (event : LogEvent) (i : AppenderPtr) (os : Os) :
    OutputProgT LogFormatter :=
  Prog.lockedT (.appender i) .exclusive do
    let s ← state
    let f ← Prog.ofExcept (s.loggers.appender i).derefFormatter
    liftM (print text level event i os f (s.loggers.appender i).cls)
    return f

/-- The virtual `LogAppender::log`. -/
def appenderLog (level : Level) (event : LogEvent) (i : AppenderPtr) :
    OutputProgT (Option LogFormatter) := do
  let s ← state
  if (s.loggers.appender i).m_level.toNat ≤ level.toNat then
    let os := s.loggers.os s.loggers.tick
    if let .fileLogAppender members := (s.loggers.appender i).cls then
      if os.time ≠ members.m_lastTime then
        liftM (reopen i os)
        liftM (onLog (Locked.update (Locked.modifyFile i fun members =>
          { members with m_lastTime := os.time })))
    return some (← format text level event i os)
  else return none

/-! ## Loggers -/

/-- One pass of the loop of `Logger::log` over the appenders. -/
def logAppender (self : LoggerPtr) (level : Level) (event : LogEvent) (i : AppenderPtr) :
    OutputProgT Unit := do
  let written ← appenderLog text level event i
  liftM (onLog (Locked.update fun s => { s with
    tick := s.tick + 1
    deliveries := s.deliveries ++ [⟨self, i, level, event.getContent, written⟩] }))

/-- `Logger::log`, which calls the `log` of the root logger while it holds its own lock. -/
def logFuel (level : Level) (event : LogEvent) : ℕ → LoggerPtr → OutputProgT Unit
  | 0, _ => throw .endless
  | fuel + 1, p => do
      if ((← state).loggers.logger p).m_level.toNat ≤ level.toNat then
        Prog.lockedT (.logger p) .exclusive do
          let s ← state
          if (s.loggers.logger p).m_appenders ≠ [] then
            (s.loggers.logger p).m_appenders.foldlM (fun _ i => logAppender text p level event i) ()
          else match (s.loggers.logger p).m_root with
            | some root => logFuel level event fuel root
            | none => return ()

/-- `Logger::log`. -/
def log (p : LoggerPtr) (level : Level) (event : LogEvent) : OutputProgT Unit := do
  logFuel text level event ((← state).loggers.m_loggers.elems.length + 1) p

/-- `LOG_LEVEL(logger, level)`: the destructor of `LogEventWrap` logs the event. -/
def logLevel (event : LogEvent) : OutputProgT Unit := do
  if ((← state).loggers.logger event.m_logger).m_level.toNat ≤ event.m_level.toNat then
    log text event.m_logger event.m_level event

/-- The listener `LogIniter` registers; `event` is the one of its `LOG_INFO`. -/
def logsListener (event : LogEvent) (old_value new_value : LogDefineSet) : OutputProgT Unit := do
  logLevel text event
  onLogT (new_value.elems.foldlM (fun _ i => Locked.configureLogger old_value i) ())
  liftM (onLog (old_value.elems.foldlM (fun _ i => Locked.deleteLogger new_value i) ()))

end

end Output

end Ipmsg
