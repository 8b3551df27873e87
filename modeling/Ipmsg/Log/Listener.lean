import Ipmsg.Log.Logger

set_option autoImplicit false

/-! # The listener of the `logs` variable

`LogIniter` registers one listener on `g_log_defines`, which brings the loggers in line with a new
`std::set<LogDefine>`: a loop over the new set that creates or reconfigures loggers, and a loop over
the old set that is meant to disable the others. -/

namespace Ipmsg

/-! ## Iterators -/

/-- The set an iterator belongs to. -/
inductive WhichSet
  | old_value
  | new_value
  deriving DecidableEq

/-- A `std::set<LogDefine>::iterator`: its set and the element it points to, `none` for `end()`.
    Iterators of different set objects are different. -/
structure SetIterator where
  container : WhichSet
  element : Option LogDefine
  deriving DecidableEq

/-- `set.find(i)`. -/
def SetIterator.find (container : WhichSet) (set : LogDefineSet) (i : LogDefine) : SetIterator :=
  ⟨container, set.find? i.name⟩

/-- `set.end()`. -/
def SetIterator.end_ (container : WhichSet) : SetIterator := ⟨container, none⟩

namespace LogState

/-! ## The first loop -/

/-- The object constructed for an appender definition; the pointer stays null for a type other than
    1 and 2. -/
def makeAppender (s : LogState) (a : LogAppenderDefine) : Option AppenderPtr × LogState :=
  if a.type = 1 then
    let (ap, s) := s.newFileLogAppender a.file
    (some ap, s)
  else if a.type = 2 then
    let (ap, s) := s.newStdoutLogAppender
    (some ap, s)
  else (none, s)

/-- One pass of the loop over `i.appenders`. -/
def configureAppender (logger : LoggerPtr) (s : LogState) (a : LogAppenderDefine) :
    Except NullDeref LogState :=
  match s.makeAppender a with
  | (none, _) => .error .ap
  | (some ap, s) =>
      let s := s.modifyAppender ap fun x => { x with m_level := a.level }
      let s :=
        if a.formatter ≠ "" then
          let fmt := LogFormatter.new a.formatter
          if !fmt.m_error then s.modifyAppender ap (LogAppender.setFormatter (some fmt)) else s
        else s
      .ok (s.addAppender logger ap)

/-- The search for the logger of an entry: the pointer stays null for an entry that is the same in
    both sets. -/
def selectLogger (old_value : LogDefineSet) (s : LogState) (i : LogDefine) :
    Option LoggerPtr × LogState :=
  let it := SetIterator.find .old_value old_value i
  if it = SetIterator.end_ .old_value then
    let (logger, s) := s.getLogger i.name
    (some logger, s)
  else if it.element ≠ some i then
    let (logger, s) := s.getLogger i.name
    (some logger, s)
  else (none, s)

/-- One pass of the loop over `new_value`. -/
def configureLogger (old_value : LogDefineSet) (s : LogState) (i : LogDefine) :
    Except NullDeref LogState :=
  match s.selectLogger old_value i with
  | (none, _) => .error .logger
  | (some logger, s) =>
      let s := s.setLevel logger i.level
      let s := if i.formatter ≠ "" then s.setFormatter logger i.formatter else s
      let s := s.clearAppenders logger
      i.appenders.foldlM (configureAppender logger) s

/-! ## The second loop -/

/-- One pass of the loop over `old_value`. The iterator found in the new set is compared with the
    end of the old one. -/
def deleteLogger (new_value : LogDefineSet) (s : LogState) (i : LogDefine) : LogState :=
  let it := SetIterator.find .new_value new_value i
  if it = SetIterator.end_ .old_value then
    let (logger, s) := s.getLogger i.name
    let s := s.setLevel logger .cast100
    s.clearAppenders logger
  else s

/-! ## The listener -/

/-- The listener `LogIniter` registers. -/
def logsListener (old_value new_value : LogDefineSet) (s : LogState) :
    Except NullDeref LogState := do
  let s ← s.logLevel s.m_root .info "on_logger_conf_changed"
  let s ← new_value.elems.foldlM (configureLogger old_value) s
  return old_value.elems.foldl (deleteLogger new_value) s

/-! ## Reachable states -/

/-- What a program does with the manager and the pointers it gets from it. -/
inductive Act
  | getLogger (name : String)
  | setLevel (p : LoggerPtr) (val : Level)
  | setFormatterPtr (p : LoggerPtr) (val : Option LogFormatter)
  | setFormatter (p : LoggerPtr) (val : String)
  | newStdoutLogAppender
  | newFileLogAppender (filename : String)
  | addAppender (p : LoggerPtr) (appender : AppenderPtr)
  | delAppender (p : LoggerPtr) (appender : AppenderPtr)
  | clearAppenders (p : LoggerPtr)
  | appenderSetLevel (appender : AppenderPtr) (val : Level)
  | appenderSetFormatter (appender : AppenderPtr) (val : Option LogFormatter)
  | log (p : LoggerPtr) (level : Level) (event : String)
  | logsChanged (old_value new_value : LogDefineSet)

/-- The pointers an act uses are pointers the program has. -/
def Act.Valid (s : LogState) : Act → Prop
  | setLevel p _ | setFormatterPtr p _ | setFormatter p _ | clearAppenders p | log p _ _ =>
      p ∈ s.m_loggers
  | addAppender p ap | delAppender p ap => p ∈ s.m_loggers ∧ ap < s.nextAppender
  | appenderSetLevel ap _ | appenderSetFormatter ap _ => ap < s.nextAppender
  | _ => True

def step (s : LogState) : Act → Except NullDeref LogState
  | .getLogger name => .ok (s.getLogger name).2
  | .setLevel p val => .ok (s.setLevel p val)
  | .setFormatterPtr p val => .ok (s.setFormatterPtr p val)
  | .setFormatter p val => .ok (s.setFormatter p val)
  | .newStdoutLogAppender => .ok s.newStdoutLogAppender.2
  | .newFileLogAppender filename => .ok (s.newFileLogAppender filename).2
  | .addAppender p ap => .ok (s.addAppender p ap)
  | .delAppender p ap => .ok (s.delAppender p ap)
  | .clearAppenders p => .ok (s.clearAppenders p)
  | .appenderSetLevel ap val => .ok (s.modifyAppender ap fun a => { a with m_level := val })
  | .appenderSetFormatter ap val => .ok (s.modifyAppender ap (LogAppender.setFormatter val))
  | .log p level event => s.log p level event
  | .logsChanged old_value new_value => logsListener old_value new_value s

/-- The states of a manager after any sequence of acts. -/
inductive Reachable : LogState → Prop
  | new (os : ℕ → Os) : Reachable (LogState.new os)
  | step {s s' : LogState} {a : Act} :
      Reachable s → a.Valid s → s.step a = .ok s' → Reachable s'

end LogState

end Ipmsg
