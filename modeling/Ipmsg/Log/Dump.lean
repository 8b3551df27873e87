import Ipmsg.Log.Reconfigure

set_option autoImplicit false

/-! # Printing the running configuration

`LoggerManager::toYamlString` prints every logger with its appenders, each from the printed text of
the level below. What is printed is read back as `define`, the definition a logger amounts to; after
the listener has applied a set, these are the entries of the set. -/

namespace Ipmsg

open LogState

/-! ## The three `toYamlString` functions -/

namespace LogAppender

/-- The fields both classes of appenders end with. -/
def printSettings (a : LogAppender) (node : Node) : Except StdException Node := do
  let mut node := node
  if a.m_level ≠ .unknow then
    node ← node.set "level" (.scalar a.m_level.toString)
  if a.m_hasFormatter then
    if let some f := a.m_formatter then
      node ← node.set "formatter" (.scalar f.m_pattern)
  return node

/-- The node of `FileLogAppender::toYamlString`. -/
def fileNode (members : FileLogAppender) (a : LogAppender) : Except StdException Node := do
  let node ← Node.null.set "type" (.scalar "FileLogAppender")
  let node ← node.set "file" (.scalar members.m_filename)
  a.printSettings node

/-- The node of `StdoutLogAppender::toYamlString`. -/
def stdoutNode (a : LogAppender) : Except StdException Node := do
  let node ← Node.null.set "type" (.scalar "StdoutLogAppender")
  a.printSettings node

/-- The virtual `toYamlString`. -/
def toYamlString (Y : YamlCpp) (a : LogAppender) : Except StdException String := do
  let node ← match a.cls with
    | .fileLogAppender members => a.fileNode members
    | .stdoutLogAppender => a.stdoutNode
  return Y.emit node

end LogAppender

namespace LogState

/-- One pass of the loop over the appenders of a logger. -/
def printAppender (Y : YamlCpp) (s : LogState) (node : Node) (i : AppenderPtr) :
    Except StdException Node := do
  pushAppenderNode node (← Y.load (← (s.appender i).toYamlString Y))

/-- `Logger::toYamlString`. -/
def loggerToYamlString (Y : YamlCpp) (s : LogState) (p : LoggerPtr) :
    Except StdException String := do
  let mut node ← Node.null.set "name" (.scalar p)
  if (s.logger p).m_level ≠ .unknow then
    node ← node.set "level" (.scalar (s.logger p).m_level.toString)
  if let some f := (s.logger p).m_formatter then
    node ← node.set "formatter" (.scalar f.m_pattern)
  node ← (s.logger p).m_appenders.foldlM (s.printAppender Y) node
  return Y.emit node

/-- `LoggerManager::toYamlString`. -/
def toYamlString (Y : YamlCpp) (s : LogState) : Except StdException String := do
  let node ← s.m_loggers.elems.foldlM
    (fun node i => do node.pushBack (← Y.load (← s.loggerToYamlString Y i))) .null
  return Y.emit node

end LogState

/-! ## The fields that are printed -/

/-- The pattern an appender has of its own. -/
def AppenderView.ownPattern (v : AppenderView) : Option String :=
  if v.hasFormatter then v.formatter.map LogFormatter.m_pattern else none

/-- An optional field. -/
def optionalField (key : String) (value : Option String) : List (String × Node) :=
  match value with
  | some text => [(key, .scalar text)]
  | none => []

def levelField (l : Level) : List (String × Node) :=
  optionalField "level" (if l = .unknow then none else some l.toString)

def AppenderView.fields (v : AppenderView) : List (String × Node) :=
  (match v.file with
    | some file => [("type", .scalar "FileLogAppender"), ("file", .scalar file)]
    | none => [("type", .scalar "StdoutLogAppender")]) ++
  levelField v.level ++ optionalField "formatter" v.ownPattern

/-- The fields of a logger before its appenders. -/
def LoggerView.headFields (name : String) (v : LoggerView) : List (String × Node) :=
  [("name", .scalar name)] ++ levelField v.level ++
    optionalField "formatter" (v.formatter.map LogFormatter.m_pattern)

def LoggerView.fields (name : String) (v : LoggerView) : List (String × Node) :=
  v.headFields name ++ appendersField (v.appenders.map fun a => .map a.fields)

theorem LogAppender.toYamlString_eq (Y : YamlCpp) (a : LogAppender) :
    a.toYamlString Y = .ok (Y.emit (.map a.view.fields)) := by
  obtain ⟨level, hasFormatter, formatter, cls⟩ := a
  cases cls <;> by_cases hl : level = .unknow <;> cases hasFormatter <;> cases formatter <;>
    simp [toYamlString, fileNode, stdoutNode, printSettings, view, AppenderView.fields, levelField,
      optionalField, AppenderView.ownPattern, AppenderClass.file, hl, Node.set, bind, Except.bind,
      pure, Except.pure]

theorem LoggerView.headFields_ne_appenders (name : String) (v : LoggerView) :
    ∀ p ∈ v.headFields name, p.1 ≠ "appenders" := by
  obtain ⟨level, formatter, appenders⟩ := v
  by_cases hl : level = .unknow <;> cases formatter <;>
    simp [LoggerView.headFields, levelField, optionalField, hl]

namespace LogState

/-- What is printed for an appender is loaded as it was. -/
theorem load_appender {Y : YamlCpp} (hY : Y.LoadEmit) (a : LogAppender) :
    (do Y.load (← a.toYamlString Y)) = .ok (.map a.view.fields) := by
  rw [LogAppender.toYamlString_eq]
  exact hY _

theorem loggerToYamlString_eq {Y : YamlCpp} (hY : Y.LoadEmit) (s : LogState) (p : LoggerPtr) :
    s.loggerToYamlString Y p = .ok (Y.emit (.map ((s.loggerView p).fields p))) := by
  have hhead : s.loggerToYamlString Y p = do
      let node ← (s.logger p).m_appenders.foldlM (s.printAppender Y)
        (.map ((s.loggerView p).headFields p))
      return Y.emit node := by
    by_cases hl : (s.logger p).m_level = .unknow <;> cases hf : (s.logger p).m_formatter <;>
      simp [loggerToYamlString, LoggerView.headFields, loggerView, levelField, optionalField, hl, hf,
        Node.set, bind, Except.bind]
  have hpass : s.printAppender Y = fun node i =>
      (do pushAppenderNode node (← (do Y.load (← (s.appender i).toYamlString Y)))) := by
    funext node i
    exact (bind_assoc _ _ _).symm
  have hloop := foldlM_pushAppenderNode ((s.loggerView p).headFields_ne_appenders p)
    (fun i (_ : i ∈ (s.logger p).m_appenders) => load_appender hY (s.appender i)) []
  rw [hhead, hpass, LoggerView.fields]
  simp only [appendersField, if_true, List.append_nil] at hloop
  rw [hloop]
  simp [loggerView, appendersField, bind, Except.bind, pure, Except.pure, Function.comp_def]

/-- The manager prints the sequence of its loggers. -/
theorem toYamlString_eq {Y : YamlCpp} (hY : Y.LoadEmit) (s : LogState) :
    s.toYamlString Y = .ok (Y.emit (Node.ofItems (s.m_loggers.elems.map fun p =>
      .map ((s.loggerView p).fields p)))) := by
  have hload : ∀ p ∈ s.m_loggers.elems, (do Y.load (← s.loggerToYamlString Y p)) =
      .ok (.map ((s.loggerView p).fields p)) := by
    intro p _
    rw [loggerToYamlString_eq hY]
    exact hY _
  have hpass : (fun (node : Node) (i : LoggerPtr) => (do
        node.pushBack (← Y.load (← s.loggerToYamlString Y i)) : Except StdException Node)) =
      fun node i => (do node.pushBack (← (do Y.load (← s.loggerToYamlString Y i)))) := by
    funext node i
    exact (bind_assoc _ _ _).symm
  have hloop := foldlM_pushBack hload []
  unfold toYamlString
  rw [hpass]
  rw [Node.ofItems, if_pos rfl] at hloop
  rw [hloop]
  rfl

end LogState

/-! ## Reading it back -/

/-- The definition an appender is read back as. -/
def AppenderView.define (v : AppenderView) : LogAppenderDefine :=
  { type := if v.file.isSome then 1 else 2
    formatter := v.ownPattern.getD ""
    file := v.file.getD "" }

/-- The definition a logger is read back as. -/
def LoggerView.define (name : String) (v : LoggerView) : LogDefine :=
  { name
    level := Level.fromString v.level.toString
    formatter := (v.formatter.map LogFormatter.m_pattern).getD ""
    appenders := v.appenders.map AppenderView.define }

theorem readAppender_view (Y : YamlCpp) (v : AppenderView) :
    readAppender Y (some (.map v.fields)) = .ok (some v.define) := by
  obtain ⟨file, level, hasFormatter, formatter⟩ := v
  cases file <;> by_cases hl : level = .unknow <;> cases hasFormatter <;> cases formatter <;>
    simp [readAppender, readField, AppenderView.fields, AppenderView.define, levelField,
      optionalField, AppenderView.ownPattern, hl, Node.get_map, Node.asString, bind, Except.bind,
      pure, Except.pure]

theorem readAppenders_views (Y : YamlCpp) (vs : List AppenderView) :
    readAppenders Y (.seq (vs.map fun v => .map v.fields)) =
      .ok (vs.map AppenderView.define) := by
  rw [readAppenders_seq, List.foldlM_map]
  refine foldlM_concat (fun acc v _ => ?_) []
  simp [pushReadAppender, readAppender_view, bind, Except.bind, pure, Except.pure]

theorem readLogger_view (Y : YamlCpp) (name : String) (v : LoggerView) :
    readLogger Y (some (.map (v.fields name))) = .ok (some (v.define name)) := by
  have hread := readAppenders_views Y v.appenders
  have hunknow : Level.fromString (Level.toString .unknow) = .unknow := rfl
  have hempty : Level.fromString "" = .unknow := rfl
  obtain ⟨level, formatter, appenders⟩ := v
  by_cases hl : level = .unknow <;> cases formatter <;> by_cases happ : appenders = [] <;>
    simp_all [readLogger, readField, LoggerView.fields, LoggerView.headFields, LoggerView.define,
      levelField, optionalField, appendersField, Node.get_map, Node.asString, bind, Except.bind,
      pure, Except.pure]

/-- What is printed is read back as the definitions of all loggers. -/
theorem readBack_dump {Y : YamlCpp} (hY : Y.LoadEmit) (s : LogState) :
    ∃ R : LogDefineSet, (do logDefinesOfString Y (← s.toYamlString Y)) = .ok R ∧
      R.elems = s.m_loggers.elems.map fun p => (s.loggerView p).define p := by
  have hsorted : (s.m_loggers.elems.map fun p => (s.loggerView p).define p).Pairwise
      fun a b => a.name < b.name := List.pairwise_map.2 s.m_loggers.sorted
  refine ⟨_, ?_, KeyedSet.elems_foldl_insert hsorted ∅ (by simp)⟩
  rw [LogState.toYamlString_eq hY]
  show logDefinesOfString Y (Y.emit _) = _
  unfold logDefinesOfString
  rw [hY]
  exact readLogDefines_loggers Y fun p _ => readLogger_view Y p (s.loggerView p)

/-! ## The definition of a logger that was configured -/

theorem LogAppenderDefine.define_view {a : LogAppenderDefine} (ha : a.WellFormed)
    (hlevel : a.level = .unknow) (hformatter : a.formatter = "" ∨ accepted a.formatter = true)
    (f : Option LogFormatter) : (a.view f).define = a := by
  obtain ⟨type, level, formatter, file⟩ := a
  have hpattern : (AppenderView.ownPattern (LogAppenderDefine.view f
      { type, level, formatter, file })).getD "" = formatter := by
    rcases hformatter with hempty | hacc
    · have hno : accepted "" = false := by simp [accepted]
      simp only at hempty
      simp [AppenderView.ownPattern, LogAppenderDefine.view, hempty, hno]
    · simp only at hacc
      simp [AppenderView.ownPattern, LogAppenderDefine.view, hacc, acceptedOr]
  unfold AppenderView.define
  rw [hpattern]
  simp only at hlevel
  rcases ha.1 with htype | ⟨htype, hfile⟩
  · simp only at htype
    simp [LogAppenderDefine.view, htype, hlevel]
  · simp only at htype hfile
    simp [LogAppenderDefine.view, htype, hfile, hlevel]

theorem LogDefine.define_view {i : LogDefine} (hlevel : i.level ≠ .cast100)
    (hformatter : accepted i.formatter = true)
    (happ : ∀ a ∈ i.appenders, (a.WellFormed ∧ a.level = .unknow) ∧
      (a.formatter = "" ∨ accepted a.formatter = true)) (f : Option LogFormatter) :
    (i.view f).define i.name = i := by
  have hmap : (i.view f).appenders.map AppenderView.define = i.appenders := by
    rw [LogDefine.view, List.map_map]
    refine map_eq_self_iff.2 fun a ha => ?_
    obtain ⟨⟨hwf, hl⟩, hf⟩ := happ a ha
    exact a.define_view hwf hl hf _
  unfold LoggerView.define
  rw [hmap]
  simp [LogDefine.view, acceptedOr, hformatter, Level.fromString_toString hlevel]

/-! ## The round trip -/

/-- The appenders in the lists of the loggers have been constructed. -/
def LogState.AppendersExist (s : LogState) : Prop :=
  ∀ p ∈ s.m_loggers, ∀ q : ℕ, q ∈ (s.logger p).m_appenders → q < s.nextAppender

/-- Logging a message leaves the lists as they are. -/
theorem LogState.AppendersExist.bounded {s s' : LogState} (h : s.AppendersExist)
    (hsame : SameConfig s s') (l : List LogDefine) : s'.Bounded l := by
  intro i _ q hq
  rw [hsame.nextAppender]
  rw [loggerOr_same hsame] at hq
  unfold LogState.loggerOr at hq
  split at hq
  · next hmem => exact h i.name hmem q hq
  · exact absurd hq List.not_mem_nil

/-- **Dump and decode.** Let a decoded set give every logger an accepted pattern and every appender
an accepted pattern or none. After the listener has applied the set to any manager, the printed
configuration is read back as definitions, and those with a name of the set are the set. The listener
does complete whenever the root logger can print its message. -/
theorem dump_readBack {Y : YamlCpp} (hY : Y.LoadEmit) {D : LogDefineSet} (hD : Decoded Y D)
    (hlogger : ∀ i ∈ D, accepted i.formatter = true)
    (happ : ∀ i ∈ D, ∀ a ∈ i.appenders, a.formatter = "" ∨ accepted a.formatter = true)
    {s : LogState} (hs : s.AppendersExist) :
    ((s.logger s.m_root).m_root = none →
      ((∃ s', logsListener ∅ D s = .ok s') ↔ s.CanAnnounce)) ∧
    ∀ s', logsListener ∅ D s = .ok s' →
      ∃ R : LogDefineSet, (do logDefinesOfString Y (← s'.toYamlString Y)) = .ok R ∧
        R.filter (fun e => (D.find? e.name).isSome) = D := by
  constructor
  · intro hroot
    rw [logsListener_ok_iff hroot]
    exact and_iff_left fun i hi => ⟨KeyedSet.notMem_empty i, decoded_typed hD i hi⟩
  intro s' hrun
  obtain ⟨R, hR, helems⟩ := readBack_dump hY s'
  refine ⟨R, hR, ?_⟩
  obtain ⟨s₁, hsame, hall⟩ := logsListener_configured hrun
  -- every entry of the set is the definition of its logger
  have hdefine : ∀ i ∈ D, i.name ∈ s'.m_loggers ∧ (s'.loggerView i.name).define i.name = i := by
    intro i hi
    obtain ⟨start, -, -, -, hview⟩ := hall.logger i hi
    obtain ⟨hlevel, happs⟩ := decoded_wellFormed hD i hi
    refine ⟨(hall.mem i.name).2 (Or.inr (List.mem_map_of_mem hi)), ?_⟩
    rw [hview (hs.bounded hsame _)]
    exact i.define_view hlevel (hlogger i hi) (fun a ha => ⟨happs a ha, happ i hi a ha⟩) _
  refine KeyedSet.ext_mem fun e => ?_
  rw [KeyedSet.mem_filter, KeyedSet.mem_def, helems, List.mem_map]
  constructor
  · rintro ⟨⟨p, -, rfl⟩, hname⟩
    obtain ⟨i, hfind⟩ := Option.isSome_iff_exists.1 hname
    obtain ⟨hi, hkey⟩ := KeyedSet.find?_eq_some.1 hfind
    have hp : i.name = p := hkey
    rw [← hp, (hdefine i hi).2]
    exact hi
  · intro he
    refine ⟨⟨e.name, (hdefine e he).1, (hdefine e he).2⟩, ?_⟩
    rw [KeyedSet.find?_of_mem he]
    rfl

/-- The printed fields of a definition are a text it is read from. -/
theorem decoded_of_define {Y : YamlCpp} (hY : Y.LoadEmit) {S : LogDefineSet}
    (hS : ∀ i ∈ S, (i.view none).define i.name = i) : Decoded Y S := by
  refine ⟨Y.emit (Node.ofItems (S.elems.map fun i => .map ((i.view none).fields i.name))), ?_⟩
  have hread : ∀ i ∈ S.elems, readLogger Y (some (.map ((i.view none).fields i.name))) =
      .ok (some i) := by
    intro i hi
    rw [readLogger_view, hS i hi]
  have hset : (S.elems.foldl KeyedSet.insert ∅ : LogDefineSet) = S :=
    KeyedSet.ext (KeyedSet.elems_foldl_insert S.sorted ∅ (by simp))
  unfold logDefinesOfString
  rw [hY]
  show readLogDefines Y _ = _
  rw [readLogDefines_loggers Y hread, List.map_id', hset]

theorem consoleSet_define : ∀ i ∈ consoleSet "%m", (i.view none).define i.name = i := by
  intro i hi
  rw [List.mem_singleton.1 hi]
  decide

/-- A logger with the pattern `%m` and a console appender. -/
theorem dump_readBack_sample :
    ∃ s' R, logsListener ∅ (consoleSet "%m") (LogState.new idleOs) = .ok s' ∧
      (let Y := YamlCpp.flow (writtenNode [consoleLogger "a" ""]) consoleText
       (do logDefinesOfString Y (← s'.toYamlString Y))) = .ok R ∧
      R.filter (fun e => ((consoleSet "%m").find? e.name).isSome) = consoleSet "%m" := by
  have hall := dump_readBack consoleYaml_loadEmit
    (decoded_of_define consoleYaml_loadEmit consoleSet_define)
    (fun i hi => by rw [List.mem_singleton.1 hi]; decide)
    (fun i hi a ha => by
      rw [List.mem_singleton.1 hi] at ha
      exact Or.inl (by rw [List.mem_singleton.1 ha]))
    (Inv.new idleOs).appenders
  obtain ⟨s', hrun⟩ := (hall.1 rfl).2 (canAnnounce_new idleOs)
  obtain ⟨R, hR, hset⟩ := hall.2 s' hrun
  exact ⟨s', R, hrun, hR, hset⟩

end Ipmsg
