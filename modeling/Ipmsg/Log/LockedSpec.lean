import Ipmsg.Log.Locked

set_option autoImplicit false

/-! # What the programs with locks do alone

A program that no other thread interferes with does what the method it stands for does. -/

namespace Ipmsg
namespace Locked

open Prog

/-! ## Loggers and the manager -/

theorem setFormatterPtr_run (p : LoggerPtr) (val : Option LogFormatter) (s : LogState) :
    (setFormatterPtr p val).run s = ((), s.setFormatterPtr p val) := by
  unfold setFormatterPtr spin
  rw [run_locked, run_bind]
  exact run_foldlM _ _ _

theorem setFormatter_run (p : LoggerPtr) (val : String) (s : LogState) :
    (setFormatter p val).run s = ((), s.setFormatter p val) := by
  unfold setFormatter LogState.setFormatter
  split
  · rfl
  · exact setFormatterPtr_run p _ s

theorem addAppender_run (p : LoggerPtr) (ap : AppenderPtr) (s : LogState) :
    (addAppender p ap).run s = ((), s.addAppender p ap) := by
  have hget : (appenderGetFormatter ap).run s = ((s.appender ap).m_formatter, s) := rfl
  unfold addAppender LogState.addAppender spin
  rw [run_locked, run_bind, hget]
  dsimp only
  split <;> rfl

theorem clearAppenders_run (p : LoggerPtr) (s : LogState) :
    (clearAppenders p).run s = ((), s.clearAppenders p) := rfl

theorem getLogger_run (name : String) (s : LogState) :
    (getLogger name).run s = s.getLogger name := rfl

/-! ## Log calls -/

theorem modifyFile_modifyAppender {a : LogAppender} {members : FileLogAppender}
    (ha : a.cls = .fileLogAppender members) (i : AppenderPtr)
    (f : FileLogAppender → FileLogAppender) (s : LogState) :
    modifyFile i f (s.modifyAppender i fun _ => a) =
      s.modifyAppender i fun _ => { a with cls := .fileLogAppender (f members) } := by
  simp [modifyFile, LogState.modifyAppender, ha]

theorem modifyFile_stdout {a : LogAppender} (ha : a.cls = .stdoutLogAppender) (i : AppenderPtr)
    (f : FileLogAppender → FileLogAppender) (s : LogState) :
    modifyFile i f (s.modifyAppender i fun _ => a) = s.modifyAppender i fun _ => a := by
  simp [modifyFile, LogState.modifyAppender, ha]

theorem modifyAppender_self (s : LogState) (i : AppenderPtr) :
    (s.modifyAppender i fun _ => s.appender i) = s := by
  simp [LogState.modifyAppender]

theorem format_run (i : AppenderPtr) (os : Os) (s : LogState) :
    Prog.run (format i os).run s = match (s.appender i).m_formatter with
      | none => (.error .formatter, s)
      | some f => (.ok f, modifyFile i (fun members => members.write os f) s) := by
  have hrun : Prog.run (format i os).run s = Prog.run (do
      let f ← Prog.ofExcept (s.appender i).derefFormatter
      update (modifyFile i fun members => members.write os f)
      return f : LogProgT LogFormatter).run s := (run_locked ..).trans rfl
  rw [hrun, LogAppender.derefFormatter]
  cases (s.appender i).m_formatter <;> rfl

/-- What a call that got past the level check does in the end. -/
theorem write_run (i : AppenderPtr) (os : Os) (s : LogState) :
    Prog.run (do return some (← format i os) : LogProgT _).run s =
      match (s.appender i).m_formatter with
      | none => (.error .formatter, s)
      | some f => (.ok (some f), modifyFile i (fun members => members.write os f) s) := by
  have hrun : Prog.run (do return some (← format i os) : LogProgT _).run s =
      Prog.run (ExceptT.bindCont (fun f => Pure.pure (some f)) (Prog.run (format i os).run s).1)
        (Prog.run (format i os).run s).2 := run_bind ..
  rw [hrun, format_run]
  cases (s.appender i).m_formatter <;> rfl

/-- A file that is due is reopened before the call writes. -/
theorem refresh_run {level : Level} {i : AppenderPtr} {s : LogState} {members : FileLogAppender}
    (hlevel : (s.appender i).m_level.toNat ≤ level.toNat)
    (hcls : (s.appender i).cls = .fileLogAppender members) :
    Prog.run (appenderLog level i).run s =
      Prog.run (do return some (← format i (s.os s.tick)) : LogProgT _).run
        (s.modifyAppender i fun _ => { s.appender i with
          cls := .fileLogAppender (members.refresh (s.os s.tick)) }) := by
  show Prog.run (ExceptT.run
    (if (s.appender i).m_level.toNat ≤ level.toNat then _ else _)) s = _
  rw [if_pos hlevel, hcls]
  dsimp only
  unfold FileLogAppender.refresh
  by_cases htime : (s.os s.tick).time = members.m_lastTime
  · rw [if_neg (not_not_intro htime), if_neg (not_not_intro htime)]
    have hsame : { s.appender i with cls := .fileLogAppender members } = s.appender i := by
      rw [← hcls]
    rw [hsame, modifyAppender_self]
  · rw [if_pos htime, if_pos htime]
    have hopen := modifyFile_modifyAppender hcls i
      (fun members => (members.reopen (s.os s.tick)).1) s
    rw [modifyAppender_self] at hopen
    have hstamp := modifyFile_modifyAppender (a := { s.appender i with
        cls := .fileLogAppender (members.reopen (s.os s.tick)).1 }) rfl i
      (fun members => { members with m_lastTime := (s.os s.tick).time }) s
    rw [← hstamp, ← hopen]
    rfl

/-- The `log` of an appender changes the appender. -/
theorem appenderLog_run (level : Level) (i : AppenderPtr) (s : LogState) :
    (∃ a w, (s.appender i).log (s.os s.tick) level = .ok (a, w) ∧
      Prog.run (appenderLog level i).run s = (.ok w, s.modifyAppender i fun _ => a)) ∨
    ∃ e s', (s.appender i).log (s.os s.tick) level = .error e ∧
      Prog.run (appenderLog level i).run s = (.error e, s') := by
  unfold LogAppender.log
  by_cases hlevel : (s.appender i).m_level.toNat ≤ level.toNat
  · rw [if_pos hlevel]
    cases hcls : (s.appender i).cls with
    | stdoutLogAppender =>
        have hrun : Prog.run (appenderLog level i).run s =
            Prog.run (do return some (← format i (s.os s.tick)) : LogProgT _).run s := by
          show Prog.run (ExceptT.run
            (if (s.appender i).m_level.toNat ≤ level.toNat then _ else _)) s = _
          rw [if_pos hlevel, hcls]
        rw [hrun, write_run, LogAppender.derefFormatter]
        cases (s.appender i).m_formatter with
        | none => exact Or.inr ⟨.formatter, s, rfl, rfl⟩
        | some f =>
            have hsame := modifyFile_stdout hcls i (fun members => members.write (s.os s.tick) f) s
            rw [modifyAppender_self] at hsame
            refine Or.inl ⟨s.appender i, some f, rfl, ?_⟩
            dsimp only
            rw [hsame, modifyAppender_self]
    | fileLogAppender members =>
        rw [refresh_run hlevel hcls, write_run, LogAppender.derefFormatter]
        have hself : ∀ a : LogAppender, (s.modifyAppender i fun _ => a).appender i = a :=
          fun a => Function.update_self ..
        rw [hself]
        cases hf : (s.appender i).m_formatter with
        | none => exact Or.inr ⟨.formatter, _, rfl, rfl⟩
        | some f =>
            have hwrite := modifyFile_modifyAppender (a := { s.appender i with
                cls := .fileLogAppender (members.refresh (s.os s.tick)) }) rfl i
              (fun members => members.write (s.os s.tick) f) s
            refine Or.inl ⟨_, some f, rfl, congrArg (Prod.mk _) (hwrite.trans ?_)⟩
            dsimp only
            rw [hf]
  · refine Or.inl ⟨s.appender i, none, if_neg hlevel, ?_⟩
    rw [modifyAppender_self]
    show Prog.run (ExceptT.run
      (if (s.appender i).m_level.toNat ≤ level.toNat then _ else _)) s = _
    rw [if_neg hlevel]
    rfl

theorem logAppenders_outcome (self : LoggerPtr) (level : Level) (event : String)
    (is : List AppenderPtr) : ∀ s : LogState,
    outcome (is.foldlM (fun _ i => logAppender self level event i) ()) s =
      LogState.logAppenders self level event is s := by
  intro s
  rw [outcome_foldlM]
  induction is generalizing s with
  | nil => rfl
  | cons i is ih =>
      rw [List.foldlM_cons, LogState.logAppenders]
      rcases appenderLog_run level i s with ⟨a, w, hlog, hrun⟩ | ⟨e, s', hlog, hrun⟩
      · have hpass : outcome (logAppender self level event i) s =
            .ok { s.modifyAppender i fun _ => a with
              tick := s.tick + 1
              deliveries := s.deliveries ++ [⟨self, i, level, event, w⟩] } :=
          (outcome_bind_ok hrun).trans (outcome_lift _ _)
        rw [hpass, hlog]
        exact ih _
      · have hpass : outcome (logAppender self level event i) s = .error e :=
          outcome_bind_error hrun
        rw [hpass, hlog]
        rfl

theorem logFuel_outcome (level : Level) (event : String) (fuel : ℕ) :
    ∀ (p : LoggerPtr) (s : LogState),
      outcome (logFuel level event fuel p) s = LogState.logFuel level event fuel p s := by
  induction fuel with
  | zero => exact fun p s => rfl
  | succ fuel ih =>
      intro p s
      unfold logFuel LogState.logFuel
      refine (outcome_lift_bind state _ s).trans ?_
      show outcome (if (s.logger p).m_level.toNat ≤ level.toNat then _ else _) s = _
      split
      · rw [outcome_lockedT]
        refine (outcome_lift_bind state _ s).trans ?_
        show outcome (if (s.logger p).m_appenders ≠ [] then _ else _) s = _
        split
        · exact logAppenders_outcome p level event _ s
        · have hstate : (run state s).1 = s := rfl
          rw [hstate]
          cases (s.logger p).m_root with
          | none => rfl
          | some root => exact ih root s
      · rfl

theorem log_outcome (p : LoggerPtr) (level : Level) (event : String) (s : LogState) :
    outcome (log p level event) s = s.log p level event :=
  (outcome_lift_bind state _ s).trans (logFuel_outcome level event _ p s)

theorem logLevel_outcome (p : LoggerPtr) (level : Level) (event : String) (s : LogState) :
    outcome (logLevel p level event) s = s.logLevel p level event := by
  refine (outcome_lift_bind state _ s).trans ?_
  show outcome (if (s.logger p).m_level.toNat ≤ level.toNat then _ else _) s = _
  unfold LogState.logLevel
  split
  · exact log_outcome p level event s
  · rfl

/-! ## Printing -/

theorem appenderToYamlString_run (Y : YamlCpp) (i : AppenderPtr) (s : LogState) :
    Prog.run (appenderToYamlString Y i).run s = ((s.appender i).toYamlString Y, s) :=
  run_locked ..

theorem loggerToYamlString_eq (Y : YamlCpp) (s : LogState) (p : LoggerPtr) :
    s.loggerToYamlString Y p = (do
      let node ← loggerHead s p
      let node ← (s.logger p).m_appenders.foldlM (s.printAppender Y) node
      return Y.emit node) := by
  unfold LogState.loggerToYamlString loggerHead
  rw [bind_assoc]
  refine congrArg _ (funext fun node => ?_)
  cases (s.logger p).m_formatter with
  | none =>
      dsimp only
      split
      · rw [bind_assoc]
        rfl
      · rfl
  | some f =>
      dsimp only
      split
      · rw [bind_assoc]
        refine congrArg _ (funext fun node => ?_)
        rw [bind_assoc]
        rfl
      · rw [bind_assoc]
        rfl

theorem loggerToYamlString_run (Y : YamlCpp) (p : LoggerPtr) (s : LogState) :
    Prog.run (loggerToYamlString Y p).run s = (s.loggerToYamlString Y p, s) := by
  have hpass : ∀ node i, Prog.run (do
      Prog.ofExcept (pushAppenderNode node (← Prog.ofExcept (Y.load (← appenderToYamlString Y i)))) :
        ExceptT StdException LogProg Node).run s = (s.printAppender Y node i, s) :=
    fun node i => run_bindT_reads (appenderToYamlString_run Y i s) fun text =>
      run_bindT_reads rfl fun n => rfl
  rw [loggerToYamlString_eq]
  refine (run_locked ..).trans ((run_lift_bindT state _ s).trans ?_)
  exact run_bindT_reads rfl fun node =>
    run_bindT_reads (run_foldlM_reads hpass _ node) fun node => rfl

theorem toYamlString_run (Y : YamlCpp) (s : LogState) :
    Prog.run (toYamlString Y).run s = (s.toYamlString Y, s) := by
  have hpass : ∀ (node : Node) i, Prog.run (do
      Prog.ofExcept (node.pushBack (← Prog.ofExcept (Y.load (← loggerToYamlString Y i)))) :
        ExceptT StdException LogProg Node).run s =
        (do node.pushBack (← Y.load (← s.loggerToYamlString Y i)), s) :=
    fun node i => run_bindT_reads (loggerToYamlString_run Y i s) fun text =>
      run_bindT_reads rfl fun n => rfl
  refine (run_locked ..).trans ((run_lift_bindT state _ s).trans ?_)
  exact run_bindT_reads (run_foldlM_reads hpass _ Node.null) fun node => rfl

/-! ## The listener -/

theorem newFileLogAppender_run (filename : String) (s : LogState) :
    (newFileLogAppender filename).run s = s.newFileLogAppender filename := by
  refine Prod.ext rfl ?_
  show modifyFile s.nextAppender (fun members => (members.reopen (s.os s.tick)).1)
    (({ s with tick := s.tick + 1, nextAppender := s.nextAppender + 1 } : LogState).modifyAppender
      s.nextAppender fun _ => { cls := .fileLogAppender { m_filename := filename } }) = _
  rw [modifyFile_modifyAppender rfl]
  rfl

theorem makeAppender_run (a : LogAppenderDefine) (s : LogState) :
    (makeAppender a).run s = s.makeAppender a := by
  unfold makeAppender LogState.makeAppender
  split
  · rw [run_bind, newFileLogAppender_run]
    rfl
  · split <;> rfl

theorem configureAppender_outcome (logger : LoggerPtr) (a : LogAppenderDefine) (s : LogState) :
    outcome (configureAppender logger a) s = LogState.configureAppender logger s a := by
  refine (outcome_lift_bind (makeAppender a) _ s).trans ?_
  rw [makeAppender_run]
  unfold LogState.configureAppender
  obtain ⟨ap, s'⟩ := s.makeAppender a
  cases ap with
  | none => rfl
  | some ap =>
      refine (outcome_lift_bind (appenderSetLevel ap a.level) _ s').trans ?_
      have hadd : ∀ t, outcome (liftM (addAppender logger ap) : LogProgT Unit) t =
          .ok (t.addAppender logger ap) := by
        intro t
        rw [outcome_lift, addAppender_run]
      dsimp only
      by_cases hempty : a.formatter = ""
      · simp only [hempty, ne_eq, not_true_eq_false, false_and, if_false]
        exact hadd _
      · by_cases herror : (LogFormatter.new a.formatter).m_error = true
        · simp only [herror, hempty, ne_eq, not_false_eq_true, Bool.not_true, Bool.false_eq_true,
            and_false, if_false, if_true]
          exact hadd _
        · simp only [herror, hempty, ne_eq, not_false_eq_true, Bool.not_false, and_self, if_true]
          exact (outcome_lift_bind (appenderSetFormatter ap _) _ _).trans (hadd _)

theorem selectLogger_run (old_value : LogDefineSet) (i : LogDefine) (s : LogState) :
    (selectLogger old_value i).run s = s.selectLogger old_value i := by
  unfold selectLogger LogState.selectLogger
  dsimp only
  split
  · rfl
  · split <;> rfl

theorem configureLogger_outcome (old_value : LogDefineSet) (i : LogDefine) (s : LogState) :
    outcome (configureLogger old_value i) s = LogState.configureLogger old_value s i := by
  refine (outcome_lift_bind (selectLogger old_value i) _ s).trans ?_
  rw [selectLogger_run]
  unfold LogState.configureLogger
  obtain ⟨logger, s'⟩ := s.selectLogger old_value i
  cases logger with
  | none => rfl
  | some logger =>
      have hrest : ∀ t, outcome (do
          liftM (clearAppenders logger)
          i.appenders.foldlM (fun _ a => configureAppender logger a) () : LogProgT Unit) t =
          i.appenders.foldlM (LogState.configureAppender logger) (t.clearAppenders logger) := by
        intro t
        refine (outcome_lift_bind (clearAppenders logger) _ t).trans ?_
        rw [outcome_foldlM]
        simp only [configureAppender_outcome]
        rfl
      refine (outcome_lift_bind (setLevel logger i.level) _ s').trans ?_
      dsimp only
      split
      · refine (outcome_lift_bind (setFormatter logger i.formatter) _ _).trans ?_
        rw [setFormatter_run]
        exact hrest _
      · exact hrest _

theorem deleteLogger_run (new_value : LogDefineSet) (i : LogDefine) (s : LogState) :
    (deleteLogger new_value i).run s = ((), s.deleteLogger new_value i) := by
  unfold deleteLogger LogState.deleteLogger
  dsimp only
  split <;> rfl

/-- **The listener with its locks does what the listener does**, when nothing interferes. -/
theorem logsListener_outcome (old_value new_value : LogDefineSet) (s : LogState) :
    outcome (logsListener old_value new_value) s =
      LogState.logsListener old_value new_value s := by
  have hdelete : ∀ t, outcome (old_value.elems.foldlM
      (fun _ i => liftM (deleteLogger new_value i)) () : LogProgT Unit) t =
      .ok (old_value.elems.foldl (LogState.deleteLogger new_value) t) := by
    intro t
    rw [outcome_foldlM]
    simp only [outcome_lift, deleteLogger_run]
    exact List.foldlM_pure
  refine (outcome_lift_bind state _ s).trans ?_
  refine (outcome_bind _ _ s).trans ?_
  unfold LogState.logsListener
  rw [← logLevel_outcome]
  refine congrArg _ (funext fun t => ?_)
  refine (outcome_bind _ _ t).trans ?_
  rw [outcome_foldlM]
  simp only [configureLogger_outcome]
  exact congrArg _ (funext hdelete)

end Locked
end Ipmsg
