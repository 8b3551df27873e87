import Ipmsg.Log.History

set_option autoImplicit false

/-! # Applying a value of `logs`

Where the listener completes, the loggers the new set names are as their entries ask for. Nothing
else is reconfigured: an appender that was there before keeps its own settings even where another
logger shares it. Only a formatter that it has taken over can change, with that of a named logger it
is attached to. -/

namespace Ipmsg

open LogState

/-! ## The appenders that were there before -/

theorem LogAppender.view_own_inherit (val : Option LogFormatter) (a : LogAppender) :
    (a.inherit val).view.own = a.view.own := by
  unfold inherit
  split
  · next h =>
      have hflag : a.m_hasFormatter = false := by simpa using h
      simp [view, AppenderView.own, hflag]
  · rfl

namespace LogState

/-- The appenders of `s` are still there with what they have of their own. -/
structure KeepsOwn (s s' : LogState) : Prop where
  nextAppender : s.nextAppender ≤ s'.nextAppender
  own : ∀ q : ℕ, q < s.nextAppender → (s'.appender q).view.own = (s.appender q).view.own

theorem KeepsOwn.of_appender {s s' : LogState} (hnext : s'.nextAppender = s.nextAppender)
    (h : ∀ q, (s'.appender q).view.own = (s.appender q).view.own) : KeepsOwn s s' :=
  ⟨hnext.ge, fun q _ => h q⟩

theorem KeepsOwn.trans {s₁ s₂ s₃ : LogState} (h : KeepsOwn s₁ s₂) (h' : KeepsOwn s₂ s₃) :
    KeepsOwn s₁ s₃ :=
  ⟨h.nextAppender.trans h'.nextAppender,
    fun q hq => (h'.own q (hq.trans_le h.nextAppender)).trans (h.own q hq)⟩

theorem SameConfig.keepsOwn {s s' : LogState} (h : SameConfig s s') : KeepsOwn s s' :=
  .of_appender h.nextAppender fun q => congrArg AppenderView.own (h.view q)

theorem keepsOwn_setFormatter (s : LogState) (p : LoggerPtr) (val : String) :
    KeepsOwn s (s.setFormatter p val) := by
  unfold setFormatter
  split
  · exact .of_appender rfl fun _ => rfl
  · rw [setFormatterPtr_eq]
    refine .of_appender rfl fun q => ?_
    dsimp only
    split
    · exact (s.appender q).view_own_inherit _
    · rfl

theorem mem_beforeAppenders (s : LogState) (i : LogDefine) :
    i.name ∈ (s.beforeAppenders i).m_loggers := by
  have hget : i.name ∈ (s.getLogger i.name).2.m_loggers :=
    (mem_getLogger s i.name i.name).2 (Or.inr rfl)
  unfold beforeAppenders setFormatter
  dsimp only
  split_ifs
  · exact hget
  · rw [setFormatterPtr_eq]
    exact hget
  · exact hget

/-- A pass that completes ends with the appenders of its entry. -/
theorem configureLogger_appended {old_value : LogDefineSet} {s s' : LogState} {i : LogDefine}
    (h : configureLogger old_value s i = .ok s') :
    Appended i.name (i.appenders.map
      (LogAppenderDefine.view ((s.beforeAppenders i).logger i.name).m_formatter))
      (s.beforeAppenders i) s' := by
  rw [configureLogger_eq] at h
  split at h
  · exact absurd h (by simp)
  · rcases configureAppenders_spec i.name i.appenders (s.beforeAppenders i) with
      ⟨-, s₁, hloop, happ⟩ | ⟨-, hloop⟩
    · exact Except.ok.inj (hloop.symm.trans h) ▸ happ
    · exact absurd (hloop.symm.trans h) (by simp)

theorem keepsOwn_beforeAppenders (s : LogState) (i : LogDefine) :
    KeepsOwn s (s.beforeAppenders i) := by
  have hget : KeepsOwn s (((s.getLogger i.name).2).setLevel i.name i.level) := by
    rw [getLogger_eq]
    exact .of_appender rfl fun _ => rfl
  have hclear : ∀ t : LogState, KeepsOwn t (t.clearAppenders i.name) :=
    fun t => .of_appender rfl fun _ => rfl
  unfold beforeAppenders
  dsimp only
  split
  · exact (hget.trans (keepsOwn_setFormatter _ i.name i.formatter)).trans (hclear _)
  · exact hget.trans (hclear _)

theorem keepsOwn_configureLogger {old_value : LogDefineSet} {s s' : LogState} {i : LogDefine}
    (h : configureLogger old_value s i = .ok s') : KeepsOwn s s' := by
  have happ := configureLogger_appended h
  refine (s.keepsOwn_beforeAppenders i).trans ⟨?_, fun q hq => by rw [happ.old q hq]⟩
  rw [happ.nextAppender]
  exact Nat.le_add_right _ _

theorem keepsOwn_logsListener {old_value new_value : LogDefineSet} {s s' : LogState}
    (h : logsListener old_value new_value s = .ok s') : KeepsOwn s s' := by
  obtain ⟨s₁, hlog, h⟩ := bind_eq_ok.1 h
  obtain ⟨s₂, hloop, h⟩ := bind_eq_ok.1 h
  rw [deleteLoggers_eq] at h
  rw [← Except.ok.inj h]
  refine foldlM_invariant (P := KeepsOwn s) ?_ (logLevel_same hlog).keepsOwn hloop
  exact fun acc acc' i _ hacc hpass => hacc.trans (keepsOwn_configureLogger hpass)

end LogState

/-! ## The outcome -/

section
variable {old_value new_value : LogDefineSet} {s s' : LogState}

/-- A logger that is named is as its entry asks for, with new appenders. -/
theorem logsListener_named (hinv : s.Inv) (hrun : logsListener old_value new_value s = .ok s')
    {i : LogDefine} (hi : i ∈ new_value) :
    i.name ∈ s'.m_loggers ∧ s'.loggerView i.name = i.view (s.loggerOr i.name).m_formatter ∧
      ∀ q ∈ (s'.logger i.name).m_appenders, s.nextAppender ≤ q := by
  obtain ⟨s₁, hsame, hall⟩ := logsListener_configured hrun
  obtain ⟨start, hstart, -, hlogger, hview⟩ := hall.logger i hi
  refine ⟨(hall.mem i.name).2 (Or.inr (List.mem_map_of_mem hi)), ?_, fun q hq => ?_⟩
  · rw [hview ((hinv.same hsame).bounded _), loggerOr_same hsame]
  · -- the appenders were made after the message was logged, which makes none
    rw [hlogger] at hq
    have hrange := List.mem_range'_1.1 hq
    have hnext := hsame.nextAppender
    omega

/-- An appender of another logger keeps what is its own, and everything if no named logger has
it. -/
theorem logsListener_kept (hinv : s.Inv) (hrun : logsListener old_value new_value s = .ok s')
    {name : String} (hname : name ∈ s.m_loggers) {q : AppenderPtr}
    (hq : q ∈ (s.logger name).m_appenders) :
    (s'.appender q).view.own = (s.appender q).view.own ∧
      ((∀ i ∈ new_value, q ∉ (s.loggerOr i.name).m_appenders) →
        (s'.appender q).view = (s.appender q).view) := by
  obtain ⟨s₁, hsame, hall⟩ := logsListener_configured hrun
  have hlt := hinv.appenders name hname q hq
  constructor
  · exact (keepsOwn_logsListener hrun).own q hlt
  · intro hunshared
    have hkept : s'.appender q = s₁.appender q := by
      apply hall.old q (hsame.nextAppender ▸ hlt)
      intro i hi
      rw [loggerOr_same hsame]
      exact hunshared i hi
    rw [hkept, hsame.view q]

end

/-- **Applying a value.** Let no entry of the new set be in the old one unchanged. The listener
completes exactly when the appenders of the root logger can print its message. Then every logger the
new set names exists and is as its entry asks for, with appenders of its own; every other logger is
the same, and so are its appenders up to a formatter they share with a logger that is named. -/
theorem logsListener_applies {Y : YamlCpp} {old_value new_value : LogDefineSet} {s : LogState}
    (hnew : Decoded Y new_value) (hs : s.Reachable) (hchanged : ∀ i ∈ new_value, i ∉ old_value) :
    ((∃ s', logsListener old_value new_value s = .ok s') ↔ s.CanAnnounce) ∧
    ∀ s', logsListener old_value new_value s = .ok s' →
      (∀ i ∈ new_value, i.Typed ∧ i.name ∈ s'.m_loggers ∧
        s'.loggerView i.name = i.view (s.loggerOr i.name).m_formatter ∧
        ∀ q ∈ (s'.logger i.name).m_appenders, s.nextAppender ≤ q) ∧
      ∀ name ∈ s.m_loggers, new_value.find? name = none →
        name ∈ s'.m_loggers ∧ s'.logger name = s.logger name ∧
        ∀ q ∈ (s.logger name).m_appenders,
          (s'.appender q).view.own = (s.appender q).view.own ∧
          ((∀ i ∈ new_value, q ∉ (s.loggerOr i.name).m_appenders) →
            (s'.appender q).view = (s.appender q).view) := by
  have hinv := hs.inv
  constructor
  · rw [logsListener_ok_iff hinv.root_root]
    exact and_iff_left fun i hi => ⟨hchanged i hi, decoded_typed hnew i hi⟩
  · intro s' hrun
    constructor
    · exact fun i hi => ⟨decoded_typed hnew i hi, logsListener_named hinv hrun hi⟩
    · intro name hname hnot
      obtain ⟨hlogger, hmem⟩ := logsListener_other hrun name hnot
      exact ⟨hmem.2 hname, hlogger, fun q hq => logsListener_kept hinv hrun hname hq⟩

theorem logsListener_applies_sample :
    ∃ s', logsListener ∅ (consoleSet "") (LogState.new idleOs) = .ok s' ∧
      s'.loggerView "a" =
        (consoleLogger "a" "").view (some (LogFormatter.new defaultPattern)) := by
  have hdecoded := decoded_of_reread (S := consoleSet "") consoleYaml_loadEmit
    (fun i hi => List.mem_singleton.1 hi ▸ consoleLogger_wellFormed "a" "") (by decide)
  have hnone : ∀ i ∈ consoleSet "", i ∉ (∅ : LogDefineSet) := fun i _ => KeyedSet.notMem_empty i
  obtain ⟨hiff, happlies⟩ := logsListener_applies hdecoded (.new idleOs) hnone
  obtain ⟨s', hrun⟩ := hiff.2 (canAnnounce_new idleOs)
  exact ⟨s', hrun, ((happlies s' hrun).1 (consoleLogger "a" "") (by decide)).2.2.1⟩

/-- Two loggers `a` and `z` that share an appender. -/
def sharedAppender : LogState :=
  (((withLogger.getLogger "z").2.newStdoutLogAppender.2.addAppender "a" 1).addAppender "z" 1)

theorem sharedAppender_reachable : sharedAppender.Reachable := by
  have hz : (withLogger.getLogger "z").2.Reachable :=
    .step (a := .getLogger "z") withLogger_reachable trivial rfl
  have hnew := Reachable.step (a := .newStdoutLogAppender) hz trivial rfl
  have ha := Reachable.step (a := .addAppender "a" 1) hnew ⟨by decide, by decide⟩ rfl
  exact .step (a := .addAppender "z" 1) ha ⟨by decide, by decide⟩ rfl

/-- The document that defines `a` with the pattern `%m`. -/
def patternNode : Node :=
  .seq [.map [("name", .scalar "a"), ("level", .scalar "INFO"), ("formatter", .scalar "%m"),
    ("appenders", .seq [.map [("type", .scalar "StdoutLogAppender")]])]]

def patternText : String :=
  "- name: a\n  level: INFO\n  formatter: \"%m\"\n  appenders:\n    - type: StdoutLogAppender"

theorem decoded_consoleSet :
    Decoded (YamlCpp.flow patternNode patternText) (consoleSet "%m") := by
  have hload := YamlCpp.flow_loadEmit patternNode
    (show patternText.toList.head? = some '-' by decide) (by decide)
  refine ⟨(YamlCpp.flow patternNode patternText).emit patternNode, ?_⟩
  simp only [logDefinesOfString, hload patternNode, bind, Except.bind]
  rfl

/-- The pattern that is set for `a` changes what `z` writes. -/
theorem logsListener_changes_other :
    ¬ ∀ (Y : YamlCpp) (old_value new_value : LogDefineSet) (s s' : LogState), Decoded Y new_value →
      s.Reachable → (∀ i ∈ new_value, i ∉ old_value) →
      logsListener old_value new_value s = .ok s' →
      ∀ name ∈ s.m_loggers, new_value.find? name = none → old_value.find? name = none →
        s'.loggerView name = s.loggerView name := by
  intro h
  cases hrun : logsListener ∅ (consoleSet "%m") sharedAppender with
  | error e =>
      have hok : (logsListener ∅ (consoleSet "%m") sharedAppender).isOk = true := by decide
      simp [hrun, Except.isOk, Except.toBool] at hok
  | ok s' =>
      have hpatterns : (logsListener ∅ (consoleSet "%m") sharedAppender).toOption.map
          (fun s' => (s'.loggerView "z").appenders.map fun v => v.formatter.map (·.m_pattern)) =
          some [some "%m"] := by decide
      rw [hrun, Except.toOption, Option.map_some, h _ ∅ (consoleSet "%m") sharedAppender s'
        decoded_consoleSet sharedAppender_reachable (fun i _ => KeyedSet.notMem_empty i) hrun "z"
        (by decide) (by decide) rfl] at hpatterns
      exact absurd hpatterns (by decide)

end Ipmsg
