import Ipmsg.Log.Applied

set_option autoImplicit false

/-! # What a configuration file can do to the formatters

A pattern reaches a logger or an appender on four ways: it is the default, it is set for the logger,
it is set for the appender, or the appender takes it over from its logger. None of them lets a null
or a broken formatter through, whatever the file contains. -/

namespace Ipmsg

open LogState

/-! ## Valid formatters -/

/-- A formatter that is there and was parsed without error. -/
def ValidFormatter (f : Option LogFormatter) : Prop := ∃ g, f = some g ∧ g.m_error = false

theorem validFormatter_default : ValidFormatter (some (LogFormatter.new defaultPattern)) :=
  ⟨_, rfl, by decide⟩

theorem ValidFormatter.acceptedOr {f : Option LogFormatter} (h : ValidFormatter f)
    (pattern : String) : ValidFormatter (acceptedOr pattern f) := by
  unfold Ipmsg.acceptedOr
  split
  · next hacc =>
      simp only [accepted, Bool.and_eq_true, Bool.not_eq_true'] at hacc
      exact ⟨_, rfl, hacc.2⟩
  · exact h

theorem ValidFormatter.inherit {a : LogAppender} (ha : ValidFormatter a.m_formatter)
    {val : Option LogFormatter} (hval : ValidFormatter val) :
    ValidFormatter (a.inherit val).m_formatter := by
  unfold LogAppender.inherit
  split
  · exact hval
  · exact ha

namespace LogState

/-- The manager after any sequence of `getLogger` calls and runs of the `logs` listener on decoded
    sets. -/
inductive ConfigReachable (Y : YamlCpp) : LogState → Prop
  | new (os : ℕ → Os) : ConfigReachable Y (LogState.new os)
  | getLogger {s : LogState} (name : String) :
      ConfigReachable Y s → ConfigReachable Y (s.getLogger name).2
  | logsChanged {s s' : LogState} {old_value new_value : LogDefineSet} :
      ConfigReachable Y s → Decoded Y old_value → Decoded Y new_value →
      logsListener old_value new_value s = .ok s' → ConfigReachable Y s'

theorem ConfigReachable.reachable {Y : YamlCpp} {s : LogState} (h : ConfigReachable Y s) :
    s.Reachable := by
  induction h with
  | new os => exact .new os
  | getLogger name _ ih => exact ih.step (a := .getLogger name) trivial rfl
  | logsChanged _ _ _ hrun ih => exact ih.step (a := .logsChanged _ _) trivial hrun

/-! ## The invariant -/

/-- Every logger and every appender constructed so far has a valid formatter, and a logger falls
    back on the root logger at most. -/
structure ValidFormatters (s : LogState) : Prop where
  root : ∀ p ∈ s.m_loggers, (s.logger p).m_root = none ∨ (s.logger p).m_root = some s.m_root
  logger : ∀ p ∈ s.m_loggers, ValidFormatter (s.logger p).m_formatter
  appender : ∀ q : ℕ, q < s.nextAppender → ValidFormatter (s.appender q).m_formatter

theorem ValidFormatters.new (os : ℕ → Os) : (LogState.new os).ValidFormatters := by
  refine ⟨fun p hp => ?_, fun p hp => ?_, fun q hq => ?_⟩
  · have hroot : p = "root" := List.mem_singleton.1 hp
    subst hroot
    exact Or.inl rfl
  · have hroot : p = "root" := List.mem_singleton.1 hp
    subst hroot
    exact validFormatter_default
  · obtain rfl : q = 0 := Nat.lt_one_iff.1 hq
    exact validFormatter_default

section
variable {s s' : LogState} (h : s.ValidFormatters)
include h

theorem ValidFormatters.same (hsame : SameConfig s s') : s'.ValidFormatters := by
  refine ⟨?_, ?_, fun q hq => ?_⟩
  · rw [hsame.m_loggers, hsame.logger, hsame.m_root]
    exact h.root
  · rw [hsame.m_loggers, hsame.logger]
    exact h.logger
  · have hview : (s'.appender q).m_formatter = (s.appender q).m_formatter :=
      congrArg AppenderView.formatter (hsame.view q)
    rw [hview]
    exact h.appender q (hsame.nextAppender ▸ hq)

theorem ValidFormatters.modifyLogger (p : LoggerPtr) {f : Logger → Logger}
    (hroot : ∀ l, (f l).m_root = l.m_root)
    (hformatter : ∀ l, ValidFormatter l.m_formatter → ValidFormatter (f l).m_formatter) :
    (s.modifyLogger p f).ValidFormatters := by
  have hother : ∀ p', (s.modifyLogger p f).logger p' = if p' = p then f (s.logger p') else s.logger p' := by
    intro p'
    show Function.update s.logger p (f (s.logger p)) p' = _
    split_ifs with heq
    · rw [heq, Function.update_self]
    · exact Function.update_of_ne heq _ _
  refine ⟨fun p' hp' => ?_, fun p' hp' => ?_, h.appender⟩
  · rw [hother]
    split_ifs
    · rw [hroot]
      exact h.root p' hp'
    · exact h.root p' hp'
  · rw [hother]
    split_ifs
    · exact hformatter _ (h.logger p' hp')
    · exact h.logger p' hp'

theorem ValidFormatters.loggerOr (name : String) :
    ((s.loggerOr name).m_root = none ∨ (s.loggerOr name).m_root = some s.m_root) ∧
      ValidFormatter (s.loggerOr name).m_formatter := by
  unfold LogState.loggerOr
  split
  · next hname => exact ⟨h.root name hname, h.logger name hname⟩
  · exact ⟨Or.inr rfl, validFormatter_default⟩

theorem ValidFormatters.getLogger (name : String) : (s.getLogger name).2.ValidFormatters := by
  have hmem := mem_getLogger s name
  rw [getLogger_eq] at hmem ⊢
  have hlogger : ∀ p ∈ s.m_loggers, p ≠ name →
      Function.update s.logger name (s.loggerOr name) p = s.logger p :=
    fun p _ hp => Function.update_of_ne hp _ _
  refine ⟨fun p hp => ?_, fun p hp => ?_, h.appender⟩ <;> dsimp only
  · by_cases heq : p = name
    · rw [heq, Function.update_self]
      exact (h.loggerOr name).1
    · have hold := ((hmem p).1 hp).resolve_right heq
      rw [hlogger p hold heq]
      exact h.root p hold
  · by_cases heq : p = name
    · rw [heq, Function.update_self]
      exact (h.loggerOr name).2
    · have hold := ((hmem p).1 hp).resolve_right heq
      rw [hlogger p hold heq]
      exact h.logger p hold

/-- A pattern that cannot be parsed is not set. -/
theorem ValidFormatters.setFormatter (p : LoggerPtr) (val : String) :
    (s.setFormatter p val).ValidFormatters := by
  unfold LogState.setFormatter
  split
  · exact h
  · next herror =>
      have hval : ValidFormatter (some (LogFormatter.new val)) := ⟨_, rfl, by simpa using herror⟩
      have hlogger := h.modifyLogger p
        (f := fun l => { l with m_formatter := some (LogFormatter.new val) })
        (fun _ => rfl) (fun _ _ => hval)
      rw [setFormatterPtr_eq]
      refine ⟨hlogger.root, hlogger.logger, fun q hq => ?_⟩
      dsimp only
      split
      · exact (h.appender q hq).inherit hval
      · exact h.appender q hq

theorem ValidFormatters.beforeAppenders (i : LogDefine) : (s.beforeAppenders i).ValidFormatters := by
  have hlevel := (h.getLogger i.name).modifyLogger i.name
    (f := fun l => { l with m_level := i.level }) (fun _ => rfl) (fun _ => id)
  have hset : (if i.formatter ≠ "" then
      (((s.getLogger i.name).2).setLevel i.name i.level).setFormatter i.name i.formatter
      else ((s.getLogger i.name).2).setLevel i.name i.level).ValidFormatters := by
    split
    · exact ValidFormatters.setFormatter hlevel i.name i.formatter
    · exact hlevel
  exact hset.modifyLogger i.name (f := fun l => { l with m_appenders := [] }) (fun _ => rfl)
    (fun _ => id)

theorem ValidFormatters.appended {p : LoggerPtr} {vs : List AppenderView}
    (hvs : ∀ v ∈ vs, ValidFormatter v.formatter) (happ : Appended p vs s s') :
    s'.ValidFormatters := by
  have hlogger := h.modifyLogger p (f := fun l => { l with
    m_appenders := l.m_appenders ++ List.range' s.nextAppender vs.length }) (fun _ => rfl) (fun _ => id)
  refine ⟨?_, ?_, fun q hq => ?_⟩
  · rw [happ.m_loggers, happ.logger, happ.m_root]
    exact hlogger.root
  · rw [happ.m_loggers, happ.logger]
    exact hlogger.logger
  · by_cases hold : q < s.nextAppender
    · rw [happ.old q hold]
      exact h.appender q hold
    · -- a new appender is as one of the definitions asks for
      rw [happ.nextAppender] at hq
      have hmem : (s'.appender q).view ∈ vs := by
        rw [← happ.new]
        exact List.mem_map_of_mem (List.mem_range'_1.2 ⟨by omega, hq⟩)
      exact hvs _ hmem

theorem ValidFormatters.configureLogger {old_value : LogDefineSet} {i : LogDefine}
    (hi : configureLogger old_value s i = .ok s') : s'.ValidFormatters := by
  have hbefore := h.beforeAppenders i
  refine hbefore.appended (fun v hv => ?_) (configureLogger_appended hi)
  obtain ⟨a, -, rfl⟩ := List.mem_map.1 hv
  exact (hbefore.logger i.name (s.mem_beforeAppenders i)).acceptedOr a.formatter

theorem ValidFormatters.logsListener {old_value new_value : LogDefineSet}
    (hrun : logsListener old_value new_value s = .ok s') : s'.ValidFormatters := by
  obtain ⟨s₁, hlog, hrun⟩ := bind_eq_ok.1 hrun
  obtain ⟨s₂, hloop, hrun⟩ := bind_eq_ok.1 hrun
  rw [deleteLoggers_eq] at hrun
  rw [← Except.ok.inj hrun]
  refine foldlM_invariant (P := ValidFormatters) ?_ (h.same (logLevel_same hlog)) hloop
  exact fun acc acc' i _ hacc hpass => hacc.configureLogger hpass

end

end LogState

/-! ## Log calls -/

namespace LogState

/-- The log call completes, and everything it wrote was written with an error-free formatter. -/
def LogsCleanly (s : LogState) (r : Except NullDeref LogState) : Prop :=
  ∃ s' ds, r = .ok s' ∧ s'.deliveries = s.deliveries ++ ds ∧
    ∀ d ∈ ds, ∀ f, d.written = some f → f.m_error = false

theorem logAppenders_clean (self : LoggerPtr) (level : Level) (event : String)
    (is : List AppenderPtr) : ∀ s : LogState,
    (∀ q ∈ is, ValidFormatter (s.appender q).m_formatter) →
      s.LogsCleanly (logAppenders self level event is s) := by
  intro s hvalid
  have haccepts : ∀ q ∈ is, (s.appender q).view.Accepts level := by
    intro q hq _
    obtain ⟨g, hg, -⟩ := hvalid q hq
    show (s.appender q).m_formatter ≠ none
    simp [hg]
  rcases logAppenders_spec self level event is s with
    ⟨-, s', hloop, hhanded⟩ | ⟨⟨q, hq, hno⟩, -⟩
  · refine ⟨s', _, hloop, hhanded.deliveries, fun d hd f hf => ?_⟩
    obtain ⟨q, hq, rfl⟩ := List.mem_map.1 hd
    obtain ⟨g, hg, herror⟩ := hvalid q hq
    -- an appender writes with its own formatter
    have hown : (if (s.appender q).m_level.toNat ≤ level.toNat then (s.appender q).m_formatter
        else none) = some f := hf
    split_ifs at hown
    rw [hg, Option.some.injEq] at hown
    exact hown ▸ herror
  · exact absurd (haccepts q hq) hno

/-- A log call goes to the appenders of the logger or of the root logger, or nowhere. -/
theorem ValidFormatters.log {s : LogState} (h : s.ValidFormatters) (hinv : s.Inv) {p : LoggerPtr}
    (hp : p ∈ s.m_loggers) (level : Level) (event : String) :
    s.LogsCleanly (s.log p level event) := by
  have hroot : ∀ root, (s.logger p).m_root = some root →
      root ∈ s.m_loggers ∧ (s.logger root).m_root = none := by
    intro root hsome
    rcases h.root p hp with hnone | heq
    · simp [hnone] at hsome
    · obtain rfl := Option.some.inj (heq.symm.trans hsome)
      exact ⟨hinv.root_mem, hinv.root_root⟩
  rw [log_eq hroot]
  cases hq : s.logsThrough p level with
  | none => exact ⟨s, [], rfl, (List.append_nil _).symm, by simp⟩
  | some q =>
      have hmem := mem_of_logsThrough hroot hp hq
      exact logAppenders_clean q level event _ s fun i hi =>
        h.appender i (hinv.appenders q hmem i hi)

theorem ConfigReachable.validFormatters {Y : YamlCpp} {s : LogState} (h : ConfigReachable Y s) :
    s.ValidFormatters := by
  induction h with
  | new os => exact .new os
  | getLogger name _ ih => exact ih.getLogger name
  | logsChanged _ _ _ hrun ih => exact ih.logsListener hrun

end LogState

/-- **Formatters stay valid.** However often the configuration is reloaded, and whatever patterns it
contains, every logger and every attached appender has a formatter without error. So every log call
completes, and writes with such formatters only. -/
theorem configReachable_formatters {Y : YamlCpp} {s : LogState} (h : LogState.ConfigReachable Y s) :
    (∀ p ∈ s.m_loggers, ValidFormatter (s.logger p).m_formatter ∧
      ∀ q ∈ (s.logger p).m_appenders, ValidFormatter (s.appender q).m_formatter) ∧
    ∀ p ∈ s.m_loggers, ∀ level event, s.LogsCleanly (s.log p level event) := by
  have hvalid := h.validFormatters
  have hinv := h.reachable.inv
  constructor
  · intro p hp
    exact ⟨hvalid.logger p hp, fun q hq => hvalid.appender q (hinv.appenders p hp q hq)⟩
  · intro p hp level event
    exact hvalid.log hinv hp level event

/-- A fresh manager after the value `{a}` of `logs`. -/
theorem configReachable_formatters_sample :
    ∃ s, LogState.ConfigReachable
        (YamlCpp.flow (writtenNode [consoleLogger "a" ""]) consoleText) s ∧
      "a" ∈ s.m_loggers ∧ ValidFormatter (s.logger "a").m_formatter := by
  obtain ⟨s', hrun⟩ := (logsListener_ok_iff (Inv.new idleOs).root_root ∅ (consoleSet "")).2
    ⟨canAnnounce_new idleOs, by
      intro i hi
      rw [List.mem_singleton.1 hi]
      exact ⟨KeyedSet.notMem_empty _, fun a ha => Or.inr (by rw [List.mem_singleton.1 ha])⟩⟩
  have hnew := decoded_of_reread (S := consoleSet "") consoleYaml_loadEmit
    (fun i hi => List.mem_singleton.1 hi ▸ consoleLogger_wellFormed "a" "") (by decide)
  have hold := decoded_of_reread (S := ∅) consoleYaml_loadEmit
    (fun i hi => absurd hi (KeyedSet.notMem_empty i)) rfl
  have hreach := (ConfigReachable.new idleOs).logsChanged hold hnew hrun
  obtain ⟨s₁, -, hall⟩ := logsListener_configured hrun
  have hmem : "a" ∈ s'.m_loggers := (hall.mem "a").2 (Or.inr (by decide))
  exact ⟨s', hreach, hmem, ((configReachable_formatters hreach).1 "a" hmem).1⟩

end Ipmsg
