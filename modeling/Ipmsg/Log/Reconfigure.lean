import Ipmsg.Log.DefineCodec
import Ipmsg.Log.Reachable

set_option autoImplicit false

/-! # Reconfiguring the loggers

Three questions about the listener of the `logs` variable: does it complete, does it disable the
loggers that are no longer defined, and does the outcome depend on the new set alone. -/

namespace Ipmsg

open LogState

/-! ## Decoded sets -/

/-- The set is the result of reading some text. -/
def Decoded (Y : YamlCpp) (S : LogDefineSet) : Prop := ∃ v, logDefinesOfString Y v = .ok S

/-- An appender that is read has type 1 or 2, and no level. -/
theorem readAppender_wellFormed {Y : YamlCpp} {a : Option Node} {lad : LogAppenderDefine}
    (h : readAppender Y a = .ok (some lad)) : lad.WellFormed ∧ lad.level = .unknow := by
  unfold readAppender at h
  obtain ⟨t, -, h⟩ := bind_eq_ok.1 h
  cases t with
  | none => simp [pure, Except.pure] at h
  | some t =>
      obtain ⟨type, -, h⟩ := bind_eq_ok.1 h
      split at h
      · obtain ⟨f, -, h⟩ := bind_eq_ok.1 h
        cases f with
        | none => simp [pure, Except.pure] at h
        | some f =>
            obtain ⟨file, -, h⟩ := bind_eq_ok.1 h
            obtain ⟨formatter, -, h⟩ := bind_eq_ok.1 h
            rw [← Option.some.inj (Except.ok.inj h)]
            exact ⟨⟨Or.inl rfl, by simp⟩, rfl⟩
      · split at h
        · obtain ⟨formatter, -, h⟩ := bind_eq_ok.1 h
          rw [← Option.some.inj (Except.ok.inj h)]
          exact ⟨⟨Or.inr ⟨rfl, rfl⟩, by simp⟩, rfl⟩
        · simp [pure, Except.pure] at h

theorem readAppenders_wellFormed {Y : YamlCpp} {apps : Node} {appenders : List LogAppenderDefine}
    (h : readAppenders Y apps = .ok appenders) :
    ∀ a ∈ appenders, a.WellFormed ∧ a.level = .unknow := by
  refine foldlM_invariant (P := fun as : List LogAppenderDefine =>
    ∀ a ∈ as, a.WellFormed ∧ a.level = .unknow) ?_ (by simp) h
  intro as as' x _ has hpass
  obtain ⟨a, -, hpass⟩ := bind_eq_ok.1 hpass
  obtain ⟨lad, hlad, hpass⟩ := bind_eq_ok.1 hpass
  cases lad with
  | none => exact Except.ok.inj hpass ▸ has
  | some lad =>
      rw [← Except.ok.inj hpass]
      intro b hb
      rcases List.mem_append.1 hb with hb | hb
      · exact has b hb
      · rw [List.mem_singleton.1 hb]
        exact readAppender_wellFormed hlad

theorem readLogger_wellFormed {Y : YamlCpp} {n : Option Node} {ld : LogDefine}
    (h : readLogger Y n = .ok (some ld)) :
    ld.level ≠ .cast100 ∧ ∀ a ∈ ld.appenders, a.WellFormed ∧ a.level = .unknow := by
  unfold readLogger at h
  obtain ⟨nm, -, h⟩ := bind_eq_ok.1 h
  cases nm with
  | none => simp [pure, Except.pure] at h
  | some nm =>
      obtain ⟨name, -, h⟩ := bind_eq_ok.1 h
      obtain ⟨level, -, h⟩ := bind_eq_ok.1 h
      obtain ⟨formatter, -, h⟩ := bind_eq_ok.1 h
      obtain ⟨apps, -, h⟩ := bind_eq_ok.1 h
      cases apps with
      | none =>
          rw [← Option.some.inj (Except.ok.inj h)]
          exact ⟨Level.fromString_ne_cast100 level, fun a ha => absurd ha List.not_mem_nil⟩
      | some apps =>
          obtain ⟨appenders, happ, h⟩ := bind_eq_ok.1 h
          rw [← Option.some.inj (Except.ok.inj h)]
          exact ⟨Level.fromString_ne_cast100 level, readAppenders_wellFormed happ⟩

theorem decoded_wellFormed {Y : YamlCpp} {S : LogDefineSet} (h : Decoded Y S) :
    ∀ i ∈ S, i.level ≠ .cast100 ∧ ∀ a ∈ i.appenders, a.WellFormed ∧ a.level = .unknow := by
  obtain ⟨v, hv⟩ := h
  obtain ⟨node, -, hnode⟩ := bind_eq_ok.1 hv
  refine foldlM_invariant (P := fun S : LogDefineSet => ∀ i ∈ S,
    i.level ≠ .cast100 ∧ ∀ a ∈ i.appenders, a.WellFormed ∧ a.level = .unknow) ?_ (by simp) hnode
  intro set set' x _ hset hpass
  obtain ⟨n, -, hpass⟩ := bind_eq_ok.1 hpass
  obtain ⟨ld, hld, hpass⟩ := bind_eq_ok.1 hpass
  cases ld with
  | none => exact Except.ok.inj hpass ▸ hset
  | some ld =>
      intro i hi
      rw [← Except.ok.inj hpass] at hi
      rcases KeyedSet.mem_insert_self_or hi with rfl | hi
      · exact readLogger_wellFormed hld
      · exact hset i hi

theorem decoded_typed {Y : YamlCpp} {S : LogDefineSet} (h : Decoded Y S) :
    ∀ i ∈ S, i.Typed := by
  intro i hi a ha
  exact (((decoded_wellFormed h i hi).2 a ha).1.1).imp_right And.left

/-! ## Does the listener complete? -/

/-- **Completion.** On decoded sets and in every reachable state the listener completes exactly when
no definition is in both sets unchanged and the appenders of the root logger can print the message
it starts with. -/
theorem logsListener_completes_iff {Y : YamlCpp} {old_value new_value : LogDefineSet} {s : LogState}
    (hnew : Decoded Y new_value) (hs : s.Reachable) :
    (∃ s', logsListener old_value new_value s = .ok s') ↔
      s.CanAnnounce ∧ ∀ i ∈ new_value, i ∉ old_value := by
  rw [logsListener_ok_iff hs.inv.root_root]
  have htyped := decoded_typed hnew
  constructor
  · rintro ⟨hcan, hall⟩
    exact ⟨hcan, fun i hi => (hall i hi).1⟩
  · rintro ⟨hcan, hall⟩
    exact ⟨hcan, fun i hi => ⟨hall i hi, htyped i hi⟩⟩

/-- A set that reading back does not change can be read from a text. -/
theorem decoded_of_reread {Y : YamlCpp} (hY : Y.LoadEmit) {S : LogDefineSet}
    (hS : ∀ i ∈ S, i.WellFormed) (hre : S.elems.map LogDefine.reread = S.elems) : Decoded Y S := by
  obtain ⟨R, hR, helems⟩ := logDefinesOfString_written hS (hY (writtenNode S.elems))
  exact ⟨_, (KeyedSet.ext (helems.trans hre) : R = S) ▸ hR⟩

/-- A logger that writes to the console. -/
def consoleLogger (name : String) (formatter : String) : LogDefine :=
  { name, level := .info, formatter, appenders := [{ type := 2 }] }

def consoleText : String :=
  "- name: a\n  level: INFO\n  formatter: \"\"\n  appenders:\n    - type: StdoutLogAppender"

/-- The set of one console logger. -/
def consoleSet (formatter : String) : LogDefineSet := ⟨[consoleLogger "a" formatter], by simp⟩

/-- Two console loggers. -/
def twoConsoles : LogDefineSet :=
  ⟨[consoleLogger "a" "", consoleLogger "b" ""], by decide⟩

/-- An operating system that grants everything. -/
def idleOs : ℕ → Os := fun _ => { time := 0, opens := true, writes := true }

theorem consoleYaml_loadEmit :
    (YamlCpp.flow (writtenNode [consoleLogger "a" ""]) consoleText).LoadEmit :=
  YamlCpp.flow_loadEmit _ (show consoleText.toList.head? = some '-' by decide) (by decide)

theorem consoleLogger_wellFormed (name formatter : String) :
    (consoleLogger name formatter).WellFormed := by
  simp [LogDefine.WellFormed, LogAppenderDefine.WellFormed, consoleLogger]

theorem canAnnounce_new (os : ℕ → Os) : (LogState.new os).CanAnnounce := by
  intro _ q hq _
  obtain rfl : q = 0 := List.mem_singleton.1 hq
  simp [LogState.new, LogState.newStdoutLogAppender, LogState.newAppender, LogState.addAppender,
    LogState.modifyAppender, LogState.modifyLogger, LogAppender.view]

theorem logsListener_completes_iff_sample :
    ∃ s', logsListener ∅ (consoleSet "") (LogState.new idleOs) = .ok s' := by
  refine (logsListener_completes_iff (decoded_of_reread consoleYaml_loadEmit ?_ (by decide))
    (.new idleOs)).2 ⟨canAnnounce_new idleOs, fun i _ => KeyedSet.notMem_empty i⟩
  intro i hi
  rw [List.mem_singleton.1 hi]
  exact consoleLogger_wellFormed "a" ""

/-- Adding a logger to a set crashes: the logger pointer of the other entry stays null. -/
theorem logsListener_crashes :
    ¬ ∀ (Y : YamlCpp) (old_value new_value : LogDefineSet) (s : LogState), Decoded Y old_value →
      Decoded Y new_value → old_value ≠ new_value → s.Reachable →
      ∃ s', logsListener old_value new_value s = .ok s' := by
  intro h
  have hold := decoded_of_reread (S := consoleSet "") consoleYaml_loadEmit
    (fun i hi => List.mem_singleton.1 hi ▸ consoleLogger_wellFormed "a" "") (by decide)
  have hwf : ∀ i ∈ twoConsoles, i.WellFormed := by
    intro i hi
    rcases List.mem_pair.1 hi with rfl | rfl
    · exact consoleLogger_wellFormed "a" ""
    · exact consoleLogger_wellFormed "b" ""
  have hnew := decoded_of_reread consoleYaml_loadEmit hwf (by decide)
  have hok := h _ _ _ (LogState.new idleOs) hold hnew (by decide) (.new idleOs)
  have hall := ((logsListener_ok_iff (Inv.new idleOs).root_root _ _).1 hok).2
  exact (hall (consoleLogger "a" "") (by decide)).1 (by decide)

/-! ## Does it disable the loggers that are no longer defined? -/

/-- What deleting a logger is meant to do to it. -/
def LogState.Disabled (s : LogState) (p : LoggerPtr) : Prop :=
  (s.logger p).m_level = .cast100 ∧ (s.logger p).m_appenders = []

/-- An event of a level of the enumeration passes a disabled logger by. -/
theorem LogState.Disabled.log_eq {s : LogState} {p : LoggerPtr} (h : s.Disabled p) {level : Level}
    (hlevel : level ≠ .cast100) (event : String) : s.log p level event = .ok s := by
  have hlt : ¬ Level.toNat .cast100 ≤ level.toNat := by
    cases level <;> simp [Level.toNat] at hlevel ⊢
  simp only [LogState.log, LogState.logFuel, h.1, if_neg hlt]

/-- The listener leaves a logger alone that the new set does not name. -/
theorem logsListener_other {old_value new_value : LogDefineSet} {s s' : LogState}
    (h : logsListener old_value new_value s = .ok s') (name : String)
    (hname : new_value.find? name = none) :
    s'.logger name = s.logger name ∧ (name ∈ s'.m_loggers ↔ name ∈ s.m_loggers) := by
  obtain ⟨s₁, hsame, hall⟩ := logsListener_configured h
  have hnot : name ∉ new_value.elems.map LogDefine.name := by
    intro hin
    obtain ⟨i, hi, hi'⟩ := List.mem_map.1 hin
    exact KeyedSet.find?_eq_none.1 hname i hi hi'
  refine ⟨(hall.other name hnot).trans (congrFun hsame.logger name), ?_⟩
  rw [hall.mem, hsame.m_loggers]
  exact or_iff_left hnot

/-- What the loop over the old set is for: a logger that only the old set names is disabled, so that
an event logged through it reaches no appender, and a logger the new set names has its level and is
not disabled. -/
def LogState.DropsOld (s : LogState) (old_value new_value : LogDefineSet) : Prop :=
  (∀ i ∈ old_value, new_value.find? i.name = none → i.name ∈ s.m_loggers →
    s.Disabled i.name ∧ ∀ level event, level ≠ .cast100 → s.log i.name level event = .ok s) ∧
  ∀ i ∈ new_value, (s.logger i.name).m_level = i.level ∧
    (i.level ≠ .cast100 → ¬ s.Disabled i.name)

/-- **Deletion.** The listener drops the loggers that are no longer defined exactly when they were
disabled before. -/
theorem logsListener_dropsOld_iff {old_value new_value : LogDefineSet} {s s' : LogState}
    (h : logsListener old_value new_value s = .ok s') :
    s'.DropsOld old_value new_value ↔ ∀ i ∈ old_value, new_value.find? i.name = none →
      i.name ∈ s.m_loggers → s.Disabled i.name := by
  constructor
  · rintro ⟨hdel, -⟩ i hi hname hmem
    obtain ⟨hlogger, hmem'⟩ := logsListener_other h i.name hname
    have hdis := (hdel i hi hname (hmem'.2 hmem)).1
    rwa [LogState.Disabled, hlogger] at hdis
  · intro hbefore
    refine ⟨fun i hi hname hmem => ?_, fun i hi => ?_⟩
    · obtain ⟨hlogger, hmem'⟩ := logsListener_other h i.name hname
      have hdis : s'.Disabled i.name := by
        rw [LogState.Disabled, hlogger]
        exact hbefore i hi hname (hmem'.1 hmem)
      exact ⟨hdis, fun level event hlevel => hdis.log_eq hlevel event⟩
    · obtain ⟨s₁, -, hall⟩ := logsListener_configured h
      obtain ⟨start, -, -, hlogger, -⟩ := hall.logger i hi
      have hlevel : (s'.logger i.name).m_level = i.level := by rw [hlogger]
      exact ⟨hlevel, fun hne hdis => hne (hlevel.symm.trans hdis.1)⟩

/-- A state with a logger `a` that is as it was constructed. -/
def withLogger : LogState := ((LogState.new idleOs).getLogger "a").2

theorem withLogger_reachable : withLogger.Reachable :=
  .step (a := .getLogger "a") (.new idleOs) trivial rfl

theorem withLogger_canAnnounce : withLogger.CanAnnounce := canAnnounce_new idleOs

theorem withLogger_undefine : ∃ s', logsListener (consoleSet "") ∅ withLogger = .ok s' :=
  (logsListener_ok_iff withLogger_reachable.inv.root_root _ _).2
    ⟨withLogger_canAnnounce, fun i hi => absurd hi (KeyedSet.notMem_empty i)⟩

/-- The logger `a` is dropped from the set. -/
theorem logsListener_dropsOld_iff_sample :
    ∃ s', logsListener (consoleSet "") ∅ withLogger = .ok s' ∧
      ¬ s'.DropsOld (consoleSet "") ∅ := by
  obtain ⟨s', h⟩ := withLogger_undefine
  refine ⟨s', h, fun hdrops => ?_⟩
  have hdis := (logsListener_dropsOld_iff h).1 hdrops (consoleLogger "a" "") (by decide) rfl
    (by decide)
  exact absurd hdis.1 (by decide)

/-- A logger that is dropped from the set keeps its level. -/
theorem logsListener_keeps_dropped :
    ¬ ∀ (old_value new_value : LogDefineSet) (s s' : LogState), s.Reachable →
      logsListener old_value new_value s = .ok s' → s'.DropsOld old_value new_value := by
  intro hall
  obtain ⟨s', h⟩ := withLogger_undefine
  obtain ⟨hlogger, hmem⟩ := logsListener_other h "a" rfl
  have hdis := ((hall _ _ _ _ withLogger_reachable h).1 (consoleLogger "a" "") (by decide) rfl
    (hmem.2 (by decide))).1
  have hlevel : (withLogger.logger "a").m_level = .cast100 := hlogger ▸ hdis.1
  exact absurd hlevel (by decide)

end Ipmsg
