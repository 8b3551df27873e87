import Ipmsg.Log.Listener
import Ipmsg.Log.LoggerFrame

set_option autoImplicit false

/-! # What the `logs` listener does

One lemma for each pass of the listener: what it does to the logger of its entry and what it leaves
alone. The passes over the new set have different names and allocate new appenders, so they do not
disturb each other; the passes over the old set do nothing. -/

namespace Ipmsg

/-! ## What a definition asks for -/

/-- A pattern that is set: not empty and without error. -/
def accepted (pattern : String) : Bool := pattern ≠ "" && !(LogFormatter.new pattern).m_error

/-- The formatter after a definition with this pattern, `f` before. -/
def acceptedOr (pattern : String) (f : Option LogFormatter) : Option LogFormatter :=
  if accepted pattern then some (LogFormatter.new pattern) else f

theorem acceptedOr_idem (pattern : String) (f : Option LogFormatter) :
    acceptedOr pattern (acceptedOr pattern f) = acceptedOr pattern f := by
  unfold acceptedOr
  split <;> rfl

/-- The appender a definition asks for, in a logger with formatter `f`. -/
def LogAppenderDefine.view (f : Option LogFormatter) (a : LogAppenderDefine) : AppenderView :=
  { file := if a.type = 1 then some a.file else none
    level := a.level
    hasFormatter := accepted a.formatter
    formatter := acceptedOr a.formatter f }

/-- The logger an entry asks for, when its formatter was `f` before. -/
def LogDefine.view (f : Option LogFormatter) (i : LogDefine) : LoggerView :=
  { level := i.level
    formatter := acceptedOr i.formatter f
    appenders := i.appenders.map (LogAppenderDefine.view (acceptedOr i.formatter f)) }

/-- An object is constructed for every appender definition. -/
def LogDefine.Typed (i : LogDefine) : Prop := ∀ a ∈ i.appenders, a.type = 1 ∨ a.type = 2

namespace LogState

/-! ## One appender -/

/-- The outcome of adding a new appender with view `v` to logger `p`. -/
structure Appended (p : LoggerPtr) (vs : List AppenderView) (s s' : LogState) : Prop where
  m_loggers : s'.m_loggers = s.m_loggers
  m_root : s'.m_root = s.m_root
  nextAppender : s'.nextAppender = s.nextAppender + vs.length
  logger : s'.logger = Function.update s.logger p { s.logger p with
    m_appenders := (s.logger p).m_appenders ++ List.range' s.nextAppender vs.length }
  new : (List.range' s.nextAppender vs.length).map (fun q => (s'.appender q).view) = vs
  old : ∀ q : ℕ, q < s.nextAppender → s'.appender q = s.appender q

theorem Appended.nil (p : LoggerPtr) (s : LogState) : Appended p [] s s :=
  ⟨rfl, rfl, rfl, by simp, rfl, fun _ _ => rfl⟩

theorem Appended.trans {p : LoggerPtr} {vs ws : List AppenderView} {s₁ s₂ s₃ : LogState}
    (h : Appended p vs s₁ s₂) (h' : Appended p ws s₂ s₃) : Appended p (vs ++ ws) s₁ s₃ := by
  have hrange : List.range' s₁.nextAppender (vs ++ ws).length =
      List.range' s₁.nextAppender vs.length ++ List.range' s₂.nextAppender ws.length := by
    rw [h.nextAppender, List.length_append, List.range'_append_1]
  refine ⟨h'.m_loggers.trans h.m_loggers, h'.m_root.trans h.m_root, ?_, ?_, ?_, ?_⟩
  · rw [h'.nextAppender, h.nextAppender, List.length_append, Nat.add_assoc]
  · rw [h'.logger, h.logger, hrange]
    simp
  · -- the second step does not touch the appenders of the first
    rw [hrange, List.map_append, h'.new]
    congr 1
    rw [← h.new]
    simp only [List.length_map, List.length_range']
    refine List.map_congr_left fun (q : ℕ) hq => ?_
    have hlt : q < s₂.nextAppender := by
      rw [h.nextAppender]
      have := List.mem_range'_1.1 hq
      omega
    rw [h'.old q hlt]
  · intro q hq
    have hlt : q < s₂.nextAppender := by
      rw [h.nextAppender]
      omega
    rw [h'.old q hlt, h.old q hq]

/-- The appender of a pass at the end of the pass. -/
def configuredAppender (cls : AppenderClass) (f : Option LogFormatter) (a : LogAppenderDefine) :
    LogAppender :=
  { m_level := a.level, m_hasFormatter := accepted a.formatter
    m_formatter := acceptedOr a.formatter f, cls }

/-- The pass over an appender definition, from the construction of the appender on. -/
theorem configureAppender_constructed {p : LoggerPtr} {s : LogState} {a : LogAppenderDefine}
    {cls : AppenderClass} {tick : ℕ}
    (hmake : s.makeAppender a =
      (some s.nextAppender, (({ s with tick } : LogState).newAppender cls).2)) :
    configureAppender p s a = .ok { s with
      tick
      appender := Function.update s.appender s.nextAppender
        (configuredAppender cls (s.logger p).m_formatter a)
      nextAppender := s.nextAppender + 1
      logger := Function.update s.logger p { s.logger p with
        m_appenders := (s.logger p).m_appenders ++ [s.nextAppender] } } := by
  unfold configureAppender
  rw [hmake]
  by_cases hempty : a.formatter = ""
  · -- no pattern: `addAppender` gives the appender the formatter of the logger
    have hno : accepted "" = false := by simp [accepted]
    simp [newAppender, modifyAppender, addAppender, modifyLogger, hempty, configuredAppender,
      hno, acceptedOr]
  · by_cases herror : (LogFormatter.new a.formatter).m_error = true
    · have hno : accepted a.formatter = false := by simp [accepted, herror]
      simp [newAppender, modifyAppender, addAppender, modifyLogger, hempty, herror,
        configuredAppender, hno, acceptedOr]
    · have hyes : accepted a.formatter = true := by simp [accepted, hempty, herror]
      simp [newAppender, modifyAppender, addAppender, modifyLogger, hempty, herror,
        configuredAppender, hyes, acceptedOr, LogAppender.setFormatter]

/-- A state with one new appender, attached to `p`. -/
theorem Appended.single {p : LoggerPtr} {s s' : LogState} {ap : LogAppender}
    (hm : s'.m_loggers = s.m_loggers) (hr : s'.m_root = s.m_root)
    (hn : s'.nextAppender = s.nextAppender + 1)
    (hl : s'.logger = Function.update s.logger p { s.logger p with
      m_appenders := (s.logger p).m_appenders ++ [s.nextAppender] })
    (ha : s'.appender = Function.update s.appender s.nextAppender ap) :
    Appended p [ap.view] s s' := by
  refine ⟨hm, hr, hn, hl, ?_, ?_⟩
  · simp [ha]
  · intro q hq
    rw [ha, Function.update_of_ne (Nat.ne_of_lt hq)]

/-- A pass over an appender definition constructs and attaches what the definition asks for, unless
its type is neither 1 nor 2. -/
theorem configureAppender_spec (p : LoggerPtr) (s : LogState) (a : LogAppenderDefine) :
    ((a.type = 1 ∨ a.type = 2) ∧ ∃ s', configureAppender p s a = .ok s' ∧
        Appended p [a.view (s.logger p).m_formatter] s s') ∨
      (¬ (a.type = 1 ∨ a.type = 2) ∧ configureAppender p s a = .error .ap) := by
  by_cases h1 : a.type = 1
  · have hmake : s.makeAppender a = (some s.nextAppender,
        (({ s with tick := s.tick + 1 } : LogState).newAppender
          (.fileLogAppender (FileLogAppender.new (s.os s.tick) a.file))).2) := by
      simp only [makeAppender, if_pos h1]
      rfl
    have hview : a.view (s.logger p).m_formatter = (configuredAppender
        (.fileLogAppender (FileLogAppender.new (s.os s.tick) a.file))
        (s.logger p).m_formatter a).view := by
      simp [LogAppenderDefine.view, LogAppender.view, configuredAppender, h1,
        AppenderClass.file, FileLogAppender.new, FileLogAppender.reopen]
    exact Or.inl ⟨Or.inl h1, _, configureAppender_constructed hmake,
      hview ▸ .single rfl rfl rfl rfl rfl⟩
  · by_cases h2 : a.type = 2
    · have hmake : s.makeAppender a = (some s.nextAppender,
          (({ s with tick := s.tick } : LogState).newAppender .stdoutLogAppender).2) := by
        simp only [makeAppender, if_neg h1, if_pos h2]
        rfl
      have hview : a.view (s.logger p).m_formatter =
          (configuredAppender .stdoutLogAppender (s.logger p).m_formatter a).view := by
        simp [LogAppenderDefine.view, LogAppender.view, configuredAppender, h1,
          AppenderClass.file]
      exact Or.inl ⟨Or.inr h2, _, configureAppender_constructed hmake,
        hview ▸ .single rfl rfl rfl rfl rfl⟩
    · refine Or.inr ⟨by simp [h1, h2], ?_⟩
      simp only [configureAppender, makeAppender, if_neg h1, if_neg h2]

/-- The loop over the appender definitions of one entry. -/
theorem configureAppenders_spec (p : LoggerPtr) (as : List LogAppenderDefine) : ∀ s : LogState,
    ((∀ a ∈ as, a.type = 1 ∨ a.type = 2) ∧
        ∃ s', as.foldlM (configureAppender p) s = .ok s' ∧
          Appended p (as.map (LogAppenderDefine.view (s.logger p).m_formatter)) s s') ∨
      ((∃ a ∈ as, ¬ (a.type = 1 ∨ a.type = 2)) ∧
        as.foldlM (configureAppender p) s = .error .ap) := by
  induction as with
  | nil => exact fun s => Or.inl ⟨by simp, s, rfl, .nil p s⟩
  | cons a as ih =>
      intro s
      rw [List.foldlM_cons]
      rcases configureAppender_spec p s a with ⟨ha, s₁, hpass, happ⟩ | ⟨ha, hpass⟩
      · -- the logger keeps its formatter, so the rest is configured with the same one
        have hf : (s₁.logger p).m_formatter = (s.logger p).m_formatter := by
          rw [happ.logger, Function.update_self]
        rw [hpass]
        rcases ih s₁ with ⟨has, s', hloop, happ'⟩ | ⟨⟨b, hb, hno⟩, hloop⟩
        · rw [hf] at happ'
          exact Or.inl ⟨List.forall_mem_cons.2 ⟨ha, has⟩, s', hloop, happ.trans happ'⟩
        · exact Or.inr ⟨⟨b, List.mem_cons_of_mem a hb, hno⟩, hloop⟩
      · rw [hpass]
        exact Or.inr ⟨⟨a, List.mem_cons_self, ha⟩, rfl⟩

/-! ## One entry -/

/-- The logger `LOG_NAME(name)` returns, which is a new one for a new name. -/
def loggerOr (s : LogState) (name : String) : Logger :=
  if name ∈ s.m_loggers then s.logger name else { m_root := some s.m_root }

theorem loggerOr_same {s s' : LogState} (h : SameConfig s s') (name : String) :
    s'.loggerOr name = s.loggerOr name := by
  simp only [loggerOr, h.m_loggers, h.logger, h.m_root]

theorem getLogger_eq (s : LogState) (name : String) :
    s.getLogger name = (name, { s with
      m_loggers := if name ∈ s.m_loggers then s.m_loggers else s.m_loggers.insert name
      logger := Function.update s.logger name (s.loggerOr name) }) := by
  unfold getLogger loggerOr
  split
  · rw [Function.update_eq_self]
  · rfl

theorem mem_getLogger (s : LogState) (name p : String) :
    p ∈ (s.getLogger name).2.m_loggers ↔ p ∈ s.m_loggers ∨ p = name := by
  unfold getLogger
  split
  · next h =>
      refine ⟨Or.inl, ?_⟩
      rintro (hp | rfl)
      · exact hp
      · exact h
  · next h =>
      have hnone : s.m_loggers.find? name = none := by
        refine KeyedSet.find?_eq_none.2 fun a ha hname => h ?_
        rwa [← hname]
      rw [Or.comm]
      exact KeyedSet.mem_insert_of_find?_eq_none hnone

/-- A formatter is set for the logger, and for some of the appenders attached to it. -/
theorem setFormatter_spec (s : LogState) (p : LoggerPtr) (val : String) (hval : val ≠ "") :
    ∃ appender, s.setFormatter p val = { s with
        logger := Function.update s.logger p { s.logger p with
          m_formatter := acceptedOr val (s.logger p).m_formatter }
        appender } ∧
      ∀ q, q ∉ (s.logger p).m_appenders → appender q = s.appender q := by
  unfold setFormatter
  by_cases herror : (LogFormatter.new val).m_error = true
  · -- an invalid pattern is ignored
    have hno : accepted val = false := by simp [accepted, herror]
    refine ⟨s.appender, ?_, fun _ _ => rfl⟩
    simp [herror, acceptedOr, hno]
  · have hyes : accepted val = true := by simp [accepted, hval, herror]
    rw [if_neg herror, setFormatterPtr_eq]
    refine ⟨fun q => if q ∈ (s.logger p).m_appenders then
      (s.appender q).inherit (some (LogFormatter.new val)) else s.appender q, ?_,
      fun q hq => if_neg hq⟩
    simp [acceptedOr, hyes]

/-- The outcome of the pass over the entry `i`. -/
structure Configured (i : LogDefine) (s s' : LogState) : Prop where
  m_root : s'.m_root = s.m_root
  mem : ∀ p, p ∈ s'.m_loggers ↔ p ∈ s.m_loggers ∨ p = i.name
  nextAppender : s'.nextAppender = s.nextAppender + i.appenders.length
  logger : s'.logger = Function.update s.logger i.name { s.loggerOr i.name with
    m_level := i.level
    m_formatter := acceptedOr i.formatter (s.loggerOr i.name).m_formatter
    m_appenders := List.range' s.nextAppender i.appenders.length }
  new : (List.range' s.nextAppender i.appenders.length).map (fun q => (s'.appender q).view) =
    i.appenders.map
      (LogAppenderDefine.view (acceptedOr i.formatter (s.loggerOr i.name).m_formatter))
  old : ∀ q : ℕ, q < s.nextAppender → q ∉ (s.loggerOr i.name).m_appenders →
    s'.appender q = s.appender q

/-- The logger pointer stays null exactly for an entry that is in both sets. -/
theorem selectLogger_eq (old_value : LogDefineSet) (s : LogState) (i : LogDefine) :
    s.selectLogger old_value i =
      if i ∈ old_value then (none, s) else (some i.name, (s.getLogger i.name).2) := by
  have hget : s.getLogger i.name = (i.name, (s.getLogger i.name).2) := by rw [getLogger_eq]
  unfold selectLogger SetIterator.find SetIterator.end_
  cases hfind : old_value.find? i.name with
  | none =>
      have hnotMem : i ∉ old_value := fun hi => KeyedSet.find?_eq_none.1 hfind i hi rfl
      rw [if_neg hnotMem, hget]
      rfl
  | some it =>
      obtain ⟨hit, hname⟩ := KeyedSet.find?_eq_some.1 hfind
      by_cases hmem : i ∈ old_value
      · have heq : it = i := KeyedSet.eq_of_key_eq hit hmem hname
        simp [heq, hmem]
      · have hne : it ≠ i := fun h => hmem (h ▸ hit)
        rw [if_neg hmem, hget]
        simp [hne]

/-- The logger of an entry is configured before its appenders are added. -/
def beforeAppenders (s : LogState) (i : LogDefine) : LogState :=
  let s := ((s.getLogger i.name).2).setLevel i.name i.level
  let s := if i.formatter ≠ "" then s.setFormatter i.name i.formatter else s
  s.clearAppenders i.name

theorem beforeAppenders_spec (s : LogState) (i : LogDefine) :
    ∃ appender m_loggers,
      s.beforeAppenders i = { s with
        m_loggers
        logger := Function.update s.logger i.name { s.loggerOr i.name with
          m_level := i.level
          m_formatter := acceptedOr i.formatter (s.loggerOr i.name).m_formatter
          m_appenders := [] }
        appender } ∧
      (∀ p, p ∈ m_loggers ↔ p ∈ s.m_loggers ∨ p = i.name) ∧
      ∀ q, q ∉ (s.loggerOr i.name).m_appenders → appender q = s.appender q := by
  unfold beforeAppenders
  have hmem := mem_getLogger s i.name
  rw [getLogger_eq] at hmem ⊢
  by_cases hempty : i.formatter = ""
  · have hno : accepted "" = false := by simp [accepted]
    refine ⟨s.appender, _, ?_, hmem, fun _ _ => rfl⟩
    simp [hempty, setLevel, clearAppenders, modifyLogger, acceptedOr, hno]
  · obtain ⟨appender, heq, hframe⟩ := setFormatter_spec
      (({ s with
          m_loggers := if i.name ∈ s.m_loggers then s.m_loggers else s.m_loggers.insert i.name
          logger := Function.update s.logger i.name (s.loggerOr i.name) } : LogState).setLevel
        i.name i.level) i.name i.formatter hempty
    refine ⟨appender, _, ?_, hmem, ?_⟩
    · simp only [ne_eq, hempty, not_false_eq_true, if_true]
      rw [heq]
      simp [setLevel, clearAppenders, modifyLogger]
    · intro q hq
      exact hframe q (by simpa [setLevel, modifyLogger] using hq)

/-- A pass over the new set adds the appenders of its entry, whose logger is null if it is in both
sets. -/
theorem configureLogger_eq (old_value : LogDefineSet) (s : LogState) (i : LogDefine) :
    configureLogger old_value s i =
      if i ∈ old_value then .error .logger
      else i.appenders.foldlM (configureAppender i.name) (s.beforeAppenders i) := by
  unfold configureLogger
  rw [selectLogger_eq]
  by_cases hmem : i ∈ old_value
  · simp only [if_pos hmem]
  · simp only [if_neg hmem, beforeAppenders]

/-- A pass over the new set configures the logger of its entry, unless the entry is in both sets or
has an appender of another type than 1 and 2. -/
theorem configureLogger_spec (old_value : LogDefineSet) (s : LogState) (i : LogDefine) :
    ((i ∉ old_value ∧ i.Typed) ∧ ∃ s', configureLogger old_value s i = .ok s' ∧
        Configured i s s') ∨
      (i ∈ old_value ∧ configureLogger old_value s i = .error .logger) ∨
      (¬ i.Typed ∧ configureLogger old_value s i = .error .ap) := by
  rw [configureLogger_eq]
  by_cases hmem : i ∈ old_value
  · exact Or.inr (Or.inl ⟨hmem, if_pos hmem⟩)
  · obtain ⟨appender, m_loggers, hbefore, hm, hframe⟩ := beforeAppenders_spec s i
    rw [if_neg hmem]
    rcases configureAppenders_spec i.name i.appenders (s.beforeAppenders i) with
      ⟨htyped, s', hloop, happ⟩ | ⟨⟨a, ha, hno⟩, hloop⟩
    · refine Or.inl ⟨⟨hmem, htyped⟩, s', hloop, ?_⟩
      rw [hbefore] at happ
      have hnew := happ.new
      simp only [Function.update_self, List.length_map] at hnew
      refine ⟨happ.m_root, fun p => ?_, ?_, ?_, hnew, fun q hq hnot => ?_⟩
      · rw [happ.m_loggers]
        exact hm p
      · simpa using happ.nextAppender
      · simpa using happ.logger
      · exact (happ.old q hq).trans (hframe q hnot)
    · exact Or.inr (Or.inr ⟨fun h => hno (h a ha), hloop⟩)

/-! ## The loop over the new set -/

/-- The appenders of the loggers the loop is going to change exist. -/
def Bounded (s : LogState) (l : List LogDefine) : Prop :=
  ∀ i ∈ l, ∀ q : ℕ, q ∈ (s.loggerOr i.name).m_appenders → q < s.nextAppender

/-- The outcome of the passes over the entries `l`. -/
structure ConfiguredAll (l : List LogDefine) (s s' : LogState) : Prop where
  m_root : s'.m_root = s.m_root
  mem : ∀ p, p ∈ s'.m_loggers ↔ p ∈ s.m_loggers ∨ p ∈ l.map LogDefine.name
  nextAppender : s.nextAppender ≤ s'.nextAppender
  other : ∀ p, p ∉ l.map LogDefine.name → s'.logger p = s.logger p
  logger : ∀ i ∈ l, ∃ start : ℕ, s.nextAppender ≤ start ∧
    start + i.appenders.length ≤ s'.nextAppender ∧
    s'.logger i.name = { s.loggerOr i.name with
      m_level := i.level
      m_formatter := acceptedOr i.formatter (s.loggerOr i.name).m_formatter
      m_appenders := List.range' start i.appenders.length } ∧
    (s.Bounded l → s'.loggerView i.name = i.view (s.loggerOr i.name).m_formatter)
  old : ∀ q : ℕ, q < s.nextAppender → (∀ i ∈ l, q ∉ (s.loggerOr i.name).m_appenders) →
    s'.appender q = s.appender q

theorem Configured.loggerOr_of_ne {i : LogDefine} {s s' : LogState} (h : Configured i s s')
    {p : LoggerPtr} (hp : p ≠ i.name) : s'.loggerOr p = s.loggerOr p := by
  have hmem : p ∈ s'.m_loggers ↔ p ∈ s.m_loggers := by
    rw [h.mem]
    exact or_iff_left hp
  unfold loggerOr
  rw [h.m_root, h.logger, Function.update_of_ne hp]
  by_cases hs : p ∈ s.m_loggers
  · rw [if_pos hs, if_pos (hmem.2 hs)]
  · rw [if_neg hs, if_neg (mt hmem.1 hs)]

theorem ConfiguredAll.nil (s : LogState) : ConfiguredAll [] s s :=
  ⟨rfl, by simp, Nat.le_refl _, fun _ _ => rfl, by simp, fun _ _ _ => rfl⟩

/-- The passes after the first one leave its outcome alone. -/
theorem ConfiguredAll.cons {i : LogDefine} {l : List LogDefine} {s s₁ s' : LogState}
    (hname : i.name ∉ l.map LogDefine.name) (h : Configured i s s₁) (hl : ConfiguredAll l s₁ s') :
    ConfiguredAll (i :: l) s s' := by
  have hne : ∀ j ∈ l, j.name ≠ i.name := by
    intro j hj heq
    exact hname (heq ▸ List.mem_map_of_mem hj)
  have hor : ∀ j ∈ l, s₁.loggerOr j.name = s.loggerOr j.name :=
    fun j hj => h.loggerOr_of_ne (hne j hj)
  have hnext := h.nextAppender
  have hnext' := hl.nextAppender
  refine ⟨hl.m_root.trans h.m_root, fun p => ?_, by omega, fun p hp => ?_, fun j hj => ?_,
    fun q hq hnot => ?_⟩
  · rw [hl.mem, h.mem, List.map_cons, List.mem_cons, or_assoc]
  · rw [List.map_cons, List.mem_cons, not_or] at hp
    rw [hl.other p hp.2, h.logger, Function.update_of_ne hp.1]
  · rcases List.mem_cons.1 hj with rfl | hj
    · have hlogger := (hl.other _ hname).trans (congrFun h.logger j.name)
      rw [Function.update_self] at hlogger
      refine ⟨s.nextAppender, Nat.le_refl _, by omega, hlogger, fun hb => ?_⟩
      -- the other loggers had only old appenders, so the new ones stay as they were made
      have hview : (List.range' s.nextAppender j.appenders.length).map
            (fun q => (s'.appender q).view) =
          (List.range' s.nextAppender j.appenders.length).map
            (fun q => (s₁.appender q).view) := by
        refine List.map_congr_left fun (q : ℕ) hq => ?_
        have hrange := List.mem_range'_1.1 hq
        rw [hl.old q (by omega) fun k hk hin => ?_]
        have hlt := hb k (List.mem_cons_of_mem j hk) q (hor k hk ▸ hin)
        omega
      simp only [loggerView, hlogger, hview, h.new]
      rfl
    · obtain ⟨start, hstart, hend, hlogger, hview⟩ := hl.logger j hj
      rw [hor j hj] at hlogger hview
      refine ⟨start, by omega, hend, hlogger, fun hb => hview fun k hk q hq => ?_⟩
      have hlt := hb k (List.mem_cons_of_mem i hk) q (hor k hk ▸ hq)
      omega
  · have hlt : q < s₁.nextAppender := by omega
    rw [hl.old q hlt fun j hj => ?_, h.old q hq (hnot i List.mem_cons_self)]
    rw [hor j hj]
    exact hnot j (List.mem_cons_of_mem i hj)

/-- The loop completes when no entry is in both sets and every appender has type 1 or 2. -/
theorem configureLoggers_spec (old_value : LogDefineSet) (l : List LogDefine) :
    ∀ s : LogState, (l.map LogDefine.name).Nodup →
      ((∀ i ∈ l, i ∉ old_value ∧ i.Typed) ∧
          ∃ s', l.foldlM (configureLogger old_value) s = .ok s' ∧ ConfiguredAll l s s') ∨
        ((∃ i ∈ l, i ∈ old_value ∨ ¬ i.Typed) ∧
          ∃ e, l.foldlM (configureLogger old_value) s = .error e) := by
  induction l with
  | nil => exact fun s _ => Or.inl ⟨by simp, s, rfl, .nil s⟩
  | cons i l ih =>
      intro s hnodup
      obtain ⟨hname, hnodup⟩ := List.nodup_cons.1 hnodup
      rw [List.foldlM_cons]
      rcases configureLogger_spec old_value s i with
        ⟨hi, s₁, hpass, hconf⟩ | ⟨hi, hpass⟩ | ⟨hi, hpass⟩
      · rw [hpass]
        rcases ih s₁ hnodup with ⟨hl, s', hloop, hall⟩ | ⟨⟨j, hj, hbad⟩, e, hloop⟩
        · exact Or.inl ⟨List.forall_mem_cons.2 ⟨hi, hl⟩, s', hloop, hall.cons hname hconf⟩
        · exact Or.inr ⟨⟨j, List.mem_cons_of_mem i hj, hbad⟩, e, hloop⟩
      · rw [hpass]
        exact Or.inr ⟨⟨i, List.mem_cons_self, Or.inl hi⟩, _, rfl⟩
      · rw [hpass]
        exact Or.inr ⟨⟨i, List.mem_cons_self, Or.inr hi⟩, _, rfl⟩

/-! ## The loop over the old set -/

/-- No pass deletes a logger: an iterator of the new set is never the end of the old one. -/
theorem deleteLogger_eq (new_value : LogDefineSet) (s : LogState) (i : LogDefine) :
    deleteLogger new_value s i = s := by
  unfold deleteLogger
  rw [if_neg]
  intro h
  exact absurd (congrArg SetIterator.container h) (by simp [SetIterator.find, SetIterator.end_])

theorem deleteLoggers_eq (new_value : LogDefineSet) (l : List LogDefine) (s : LogState) :
    l.foldl (deleteLogger new_value) s = s := by
  induction l with
  | nil => rfl
  | cons i l ih => rw [List.foldl_cons, deleteLogger_eq, ih]

/-! ## The listener -/

theorem nodup_names (set : LogDefineSet) : (set.elems.map LogDefine.name).Nodup :=
  List.pairwise_map.2 (set.sorted.imp fun h => ne_of_lt h)

/-- Every appender of the root logger can be handed the listener's own message. -/
def CanAnnounce (s : LogState) : Prop :=
  (s.logger s.m_root).m_level.toNat ≤ Level.info.toNat →
    ∀ q ∈ (s.logger s.m_root).m_appenders, (s.appender q).view.Accepts .info

/-- What the listener changes when it completes. -/
theorem logsListener_configured {old_value new_value : LogDefineSet} {s s' : LogState}
    (h : logsListener old_value new_value s = .ok s') :
    ∃ s₁, SameConfig s s₁ ∧ ConfiguredAll new_value.elems s₁ s' := by
  unfold logsListener at h
  cases hlog : s.logLevel s.m_root .info "on_logger_conf_changed" with
  | error e =>
      rw [hlog] at h
      exact absurd h (by simp [bind, Except.bind])
  | ok s₁ =>
      rw [hlog] at h
      refine ⟨s₁, logLevel_same hlog, ?_⟩
      rcases configureLoggers_spec old_value new_value.elems s₁ (nodup_names new_value) with
        ⟨-, s₂, hloop, hall⟩ | ⟨-, e, hloop⟩
      · simp only [bind, Except.bind, hloop, deleteLoggers_eq] at h
        exact Except.ok.inj h ▸ hall
      · exact absurd h (by simp [bind, Except.bind, hloop])

/-- When the listener completes. -/
theorem logsListener_ok_iff {s : LogState} (hroot : (s.logger s.m_root).m_root = none)
    (old_value new_value : LogDefineSet) :
    (∃ s', logsListener old_value new_value s = .ok s') ↔
      s.CanAnnounce ∧ ∀ i ∈ new_value, i ∉ old_value ∧ i.Typed := by
  have hlog := logLevel_ok_iff hroot .info "on_logger_conf_changed"
  unfold logsListener
  cases hres : s.logLevel s.m_root .info "on_logger_conf_changed" with
  | error e =>
      have hno : ¬ s.CanAnnounce := by
        intro h
        obtain ⟨s', hs'⟩ := hlog.2 h
        exact absurd (hres.symm.trans hs') (by simp)
      refine iff_of_false ?_ fun h => hno h.1
      rintro ⟨s', hs'⟩
      exact absurd hs' (by simp [bind, Except.bind])
  | ok s₁ =>
      have hyes : s.CanAnnounce := hlog.1 ⟨s₁, hres⟩
      rcases configureLoggers_spec old_value new_value.elems s₁ (nodup_names new_value) with
        ⟨hall, s₂, hloop, -⟩ | ⟨⟨i, hi, hbad⟩, e, hloop⟩
      · refine iff_of_true ⟨s₂, ?_⟩ ⟨hyes, hall⟩
        simp only [bind, Except.bind, hloop, deleteLoggers_eq]
        rfl
      · refine iff_of_false ?_ fun h => ?_
        · rintro ⟨s', hs'⟩
          exact absurd hs' (by simp [bind, Except.bind, hloop])
        · rcases hbad with hold | htyped
          · exact (h.2 i hi).1 hold
          · exact htyped (h.2 i hi).2

end LogState

end Ipmsg
