import Ipmsg.Log.Reconfigure

set_option autoImplicit false

/-! # Histories of the `logs` variable

A fresh manager is reconfigured with one value of `logs` after another. What a logger ends with is
determined by the last value, except for its formatter: an entry without a pattern leaves the
formatter that an earlier value set, and the appenders without a pattern of their own follow it. -/

namespace Ipmsg

open LogState

/-! ## Runs -/

/-- `g_log_defines->setValue(v)`: the variable and the state of the loggers. -/
def setLogs (c : LogDefineSet × LogState) (v : LogDefineSet) :
    Except NullDeref (LogDefineSet × LogState) :=
  if v = c.1 then .ok c else do return (v, ← logsListener c.1 v c.2)

/-- The values `h`, one after another, from the construction of the manager on. -/
def runLogs (os : ℕ → Os) (h : List LogDefineSet) : Except NullDeref (LogDefineSet × LogState) :=
  h.foldlM setLogs (∅, LogState.new os)

/-- The formatter last set for a name: that of the latest entry with an accepted pattern, or the
    default one. -/
def lastFormatter (name : String) (h : List LogDefineSet) : Option LogFormatter :=
  h.foldl (fun f v => match v.find? name with
    | some i => acceptedOr i.formatter f
    | none => f) (some (LogFormatter.new defaultPattern))

theorem lastFormatter_concat (name : String) (h : List LogDefineSet) (v : LogDefineSet) :
    lastFormatter name (h ++ [v]) = match v.find? name with
      | some i => acceptedOr i.formatter (lastFormatter name h)
      | none => lastFormatter name h := by
  simp [lastFormatter]

theorem LogDefine.view_acceptedOr (i : LogDefine) (f : Option LogFormatter) :
    i.view (acceptedOr i.formatter f) = i.view f := by
  simp only [LogDefine.view, acceptedOr_idem]

/-! ## The invariant of a run -/

/-- The variable and the loggers after the history `h`. -/
structure AfterHistory (h : List LogDefineSet) (c : LogDefineSet × LogState) : Prop where
  inv : c.2.Inv
  formatter : ∀ name, (c.2.loggerOr name).m_formatter = lastFormatter name h
  defined : ∀ i ∈ c.1, i.name ∈ c.2.m_loggers ∧
    c.2.loggerView i.name = i.view (lastFormatter i.name h)

theorem AfterHistory.nil (os : ℕ → Os) : AfterHistory [] (∅, LogState.new os) := by
  refine ⟨Inv.new os, fun name => ?_, fun i hi => absurd hi (KeyedSet.notMem_empty i)⟩
  unfold loggerOr
  split
  · next hname =>
      have hroot : name = "root" := List.mem_singleton.1 hname
      subst hroot
      rfl
  · rfl

/-- Setting the same value again changes nothing, and asks for nothing new. -/
theorem AfterHistory.same {h : List LogDefineSet} {c : LogDefineSet × LogState}
    (hc : AfterHistory h c) : AfterHistory (h ++ [c.1]) c := by
  have hlast : ∀ name, lastFormatter name (h ++ [c.1]) = lastFormatter name h := by
    intro name
    rw [lastFormatter_concat]
    cases hfind : c.1.find? name with
    | none => rfl
    | some i =>
        obtain ⟨hi, rfl⟩ := KeyedSet.find?_eq_some.1 hfind
        obtain ⟨hmem, hview⟩ := hc.defined i hi
        have hformatter := congrArg LoggerView.formatter hview
        have hor := hc.formatter i.name
        rw [loggerOr, if_pos hmem] at hor
        exact hformatter.symm.trans hor
  refine ⟨hc.inv, fun name => ?_, fun i hi => ?_⟩
  · rw [hlast]
    exact hc.formatter name
  · rw [hlast]
    exact hc.defined i hi

/-- A new value configures the loggers it names, and leaves the formatters of the others. -/
theorem AfterHistory.changed {h : List LogDefineSet} {c : LogDefineSet × LogState}
    {v : LogDefineSet} {s' : LogState} (hc : AfterHistory h c)
    (hrun : logsListener c.1 v c.2 = .ok s') : AfterHistory (h ++ [v]) (v, s') := by
  obtain ⟨s₁, hsame, hall⟩ := logsListener_configured hrun
  have hinv : s₁.Inv := hc.inv.same hsame
  have hor : ∀ name, s₁.loggerOr name = c.2.loggerOr name := loggerOr_same hsame
  have hmem : ∀ i ∈ v, i.name ∈ s'.m_loggers :=
    fun i hi => (hall.mem i.name).2 (Or.inr (List.mem_map_of_mem hi))
  refine ⟨hc.inv.logsListener hrun, fun name => ?_, fun i hi => ?_⟩
  · rw [lastFormatter_concat]
    cases hfind : v.find? name with
    | some i =>
        obtain ⟨hi, rfl⟩ := KeyedSet.find?_eq_some.1 hfind
        obtain ⟨start, -, -, hlogger, -⟩ := hall.logger i hi
        rw [loggerOr, if_pos (hmem i hi), hlogger, hor, hc.formatter]
    | none =>
        obtain ⟨hlogger, hiff⟩ := logsListener_other hrun name hfind
        rw [← hc.formatter name]
        simp only [loggerOr, hlogger, hiff]
        split <;> rfl
  · obtain ⟨start, -, -, -, hview⟩ := hall.logger i hi
    refine ⟨hmem i hi, ?_⟩
    rw [lastFormatter_concat, KeyedSet.find?_of_mem hi]
    show _ = i.view (acceptedOr i.formatter (lastFormatter i.name h))
    rw [LogDefine.view_acceptedOr, hview (hinv.bounded _), hor, hc.formatter]

theorem AfterHistory.step {h : List LogDefineSet} {c c' : LogDefineSet × LogState}
    {v : LogDefineSet} (hc : AfterHistory h c) (hset : setLogs c v = .ok c') :
    AfterHistory (h ++ [v]) c' ∧ c'.1 = v := by
  unfold setLogs at hset
  split at hset
  · next hv =>
      rw [← Except.ok.inj hset, hv]
      exact ⟨hc.same, rfl⟩
  · obtain ⟨s', hrun, hret⟩ := bind_eq_ok.1 hset
    rw [← Except.ok.inj hret]
    exact ⟨hc.changed hrun, rfl⟩

/-- A run that completes satisfies the invariant. -/
theorem foldlM_setLogs {l : List LogDefineSet} :
    ∀ {h : List LogDefineSet} {c c' : LogDefineSet × LogState}, AfterHistory h c →
      l.foldlM setLogs c = .ok c' → AfterHistory (h ++ l) c' := by
  induction l with
  | nil =>
      intro h c c' hc hrun
      rw [List.append_nil, ← Except.ok.inj hrun]
      exact hc
  | cons v l ih =>
      intro h c c' hc hrun
      rw [List.foldlM_cons, bind_eq_ok] at hrun
      obtain ⟨c₁, hset, hrun⟩ := hrun
      have hfinal := ih (hc.step hset).1 hrun
      rwa [List.append_assoc] at hfinal

theorem runLogs_after {os : ℕ → Os} {h : List LogDefineSet} {c : LogDefineSet × LogState}
    (hrun : runLogs os h = .ok c) : AfterHistory h c := by
  have hfinal := foldlM_setLogs (.nil os) hrun
  rwa [List.nil_append] at hfinal

/-- The loggers the last value names, after a run that completes. -/
theorem runLogs_last {os : ℕ → Os} {h : List LogDefineSet} {N : LogDefineSet} {s : LogState}
    (hrun : runLogs os (h ++ [N]) = .ok (N, s)) :
    ∀ i ∈ N, i.name ∈ s.m_loggers ∧ s.loggerView i.name = i.view (lastFormatter i.name h) := by
  intro i hi
  obtain ⟨hmem, hview⟩ := (runLogs_after hrun).defined i hi
  rw [lastFormatter_concat, KeyedSet.find?_of_mem hi] at hview
  exact ⟨hmem, hview.trans (i.view_acceptedOr _)⟩

/-! ## What the last value determines -/

/-- What an appender has of its own: all but a formatter it shares with its logger. -/
def AppenderView.own (v : AppenderView) : AppenderView :=
  { v with formatter := if v.hasFormatter then v.formatter else none }

theorem LogDefine.view_own (i : LogDefine) (f g : Option LogFormatter) :
    (i.view f).appenders.map AppenderView.own = (i.view g).appenders.map AppenderView.own := by
  simp only [LogDefine.view, List.map_map]
  refine List.map_congr_left fun a _ => ?_
  simp only [Function.comp_apply, LogAppenderDefine.view, AppenderView.own]
  by_cases ha : accepted a.formatter = true <;> simp [ha, acceptedOr]

/-- **What the last value determines.** Two histories that end in the same value leave every logger
it names with the same level and the same appenders, up to the formatter they share with the logger;
that formatter is the one last set in the history, so it is the same when the entry has an accepted
pattern or the histories agree on the last one. -/
theorem runLogs_determined {os₁ os₂ : ℕ → Os} {h₁ h₂ : List LogDefineSet} {N : LogDefineSet}
    {s₁ s₂ : LogState} (hrun₁ : runLogs os₁ (h₁ ++ [N]) = .ok (N, s₁))
    (hrun₂ : runLogs os₂ (h₂ ++ [N]) = .ok (N, s₂)) :
    ∀ i ∈ N, i.name ∈ s₁.m_loggers ∧ i.name ∈ s₂.m_loggers ∧
      (s₁.loggerView i.name).level = (s₂.loggerView i.name).level ∧
      (s₁.loggerView i.name).appenders.map AppenderView.own =
        (s₂.loggerView i.name).appenders.map AppenderView.own ∧
      s₁.loggerView i.name = i.view (lastFormatter i.name h₁) ∧
      s₂.loggerView i.name = i.view (lastFormatter i.name h₂) ∧
      (accepted i.formatter = true ∨ lastFormatter i.name h₁ = lastFormatter i.name h₂ →
        s₁.loggerView i.name = s₂.loggerView i.name) := by
  intro i hi
  obtain ⟨hmem₁, hview₁⟩ := runLogs_last hrun₁ i hi
  obtain ⟨hmem₂, hview₂⟩ := runLogs_last hrun₂ i hi
  refine ⟨hmem₁, hmem₂, ?_, ?_, hview₁, hview₂, ?_⟩
  · rw [hview₁, hview₂]
    rfl
  · rw [hview₁, hview₂]
    exact i.view_own _ _
  · rw [hview₁, hview₂]
    rintro (hacc | heq)
    · simp only [LogDefine.view, acceptedOr, hacc, if_true]
    · rw [heq]

/-! ## What it does not determine -/

theorem runLogs_of_isOk (os : ℕ → Os) (h : List LogDefineSet) (N : LogDefineSet)
    (hok : (runLogs os (h ++ [N])).isOk = true) : ∃ s, runLogs os (h ++ [N]) = .ok (N, s) := by
  cases hrun : runLogs os (h ++ [N]) with
  | error e =>
      rw [hrun] at hok
      exact absurd hok (by simp [Except.isOk, Except.toBool])
  | ok c =>
      rw [runLogs, List.foldlM_append, bind_eq_ok] at hrun
      obtain ⟨c₁, hrun₁, hlast⟩ := hrun
      rw [List.foldlM_cons, bind_eq_ok] at hlast
      obtain ⟨c₂, hset, hret⟩ := hlast
      have hN : c₂.1 = N := ((runLogs_after hrun₁).step hset).2
      rw [← Except.ok.inj hret, ← hN]
      exact ⟨c₂.2, rfl⟩

/-- The value `{a}` directly, and after a value that gave `a` the pattern `%m`. -/
theorem runLogs_determined_sample :
    ∃ s₁ s₂, runLogs idleOs ([] ++ [consoleSet ""]) = .ok (consoleSet "", s₁) ∧
      runLogs idleOs ([consoleSet "%m"] ++ [consoleSet ""]) = .ok (consoleSet "", s₂) ∧
      (s₁.loggerView "a").level = (s₂.loggerView "a").level := by
  obtain ⟨s₁, hrun₁⟩ := runLogs_of_isOk idleOs [] (consoleSet "") (by decide)
  obtain ⟨s₂, hrun₂⟩ := runLogs_of_isOk idleOs [consoleSet "%m"] (consoleSet "") (by decide)
  exact ⟨s₁, s₂, hrun₁, hrun₂,
    (runLogs_determined hrun₁ hrun₂ (consoleLogger "a" "") (by decide)).2.2.1⟩

/-- The pattern of an earlier value stays when the last one gives none. -/
theorem runLogs_keeps_formatter :
    ¬ ∀ (os : ℕ → Os) (h₁ h₂ : List LogDefineSet) (N : LogDefineSet) (s₁ s₂ : LogState),
      runLogs os (h₁ ++ [N]) = .ok (N, s₁) → runLogs os (h₂ ++ [N]) = .ok (N, s₂) →
      ∀ i ∈ N, s₁.loggerView i.name = s₂.loggerView i.name := by
  intro hall
  obtain ⟨s₁, hrun₁⟩ := runLogs_of_isOk idleOs [] (consoleSet "") (by decide)
  obtain ⟨s₂, hrun₂⟩ := runLogs_of_isOk idleOs [consoleSet "%m"] (consoleSet "") (by decide)
  have heq := hall _ _ _ _ _ _ hrun₁ hrun₂ (consoleLogger "a" "") (by decide)
  have hview₁ := (runLogs_last hrun₁ (consoleLogger "a" "") (by decide)).2
  have hview₂ := (runLogs_last hrun₂ (consoleLogger "a" "") (by decide)).2
  rw [hview₁, hview₂] at heq
  have hnone : accepted "" = false := by decide
  have hm : accepted "%m" = true := by decide
  have hlast₂ : lastFormatter "a" [consoleSet "%m"] = some (LogFormatter.new "%m") := by
    show acceptedOr "%m" (some (LogFormatter.new defaultPattern)) = _
    rw [acceptedOr, if_pos hm]
  have hformatter : some (LogFormatter.new defaultPattern) = some (LogFormatter.new "%m") := by
    have hf := congrArg LoggerView.formatter heq
    change acceptedOr "" (lastFormatter "a" []) = acceptedOr "" (lastFormatter "a" _) at hf
    simp only [acceptedOr, hnone, hlast₂] at hf
    exact hf
  have hpattern := congrArg LogFormatter.m_pattern (Option.some.inj hformatter)
  rw [LogFormatter.new_m_pattern, LogFormatter.new_m_pattern] at hpattern
  exact absurd hpattern (by decide)

end Ipmsg
