import Ipmsg.Log.Locked
import Ipmsg.Log.ListenerSpec

set_option autoImplicit false

/-! # The order in which loggers take locks

Every method takes the locks of the manager, of a logger, of the root logger and of an appender in
this order, each while it holds only earlier ones. That a logger falls back to the root logger and
to no other is an invariant of the state. -/

namespace Ipmsg

open LogState Prog

/-! ## The root logger -/

/-- The root logger is the only one others fall back to, and falls back to none. -/
structure Rooted (s : LogState) : Prop where
  m_root : s.m_root = "root"
  mem : "root" ∈ s.m_loggers
  logger : ∀ p root, (s.logger p).m_root = some root → p ≠ "root" ∧ root = "root"

theorem Rooted.frame {s s' : LogState} (h : Rooted s) (hroot : s'.m_root = s.m_root)
    (hmem : s'.m_loggers = s.m_loggers)
    (hlogger : ∀ q, (s'.logger q).m_root = (s.logger q).m_root) : Rooted s' := by
  refine ⟨hroot.trans h.m_root, hmem ▸ h.mem, fun p root hp => ?_⟩
  rw [hlogger] at hp
  exact h.logger p root hp

theorem Rooted.modifyLogger {s : LogState} (h : Rooted s) (p : LoggerPtr) {f : Logger → Logger}
    (hf : ∀ l, (f l).m_root = l.m_root) : Rooted (s.modifyLogger p f) := by
  refine h.frame rfl rfl fun q => ?_
  simp only [LogState.modifyLogger]
  by_cases hq : q = p
  · rw [hq, Function.update_self, hf]
  · rw [Function.update_of_ne hq]

theorem Rooted.modifyAppender {s : LogState} (h : Rooted s) (i : AppenderPtr)
    (f : LogAppender → LogAppender) : Rooted (s.modifyAppender i f) :=
  ⟨h.m_root, h.mem, h.logger⟩

theorem Rooted.getLogger {s : LogState} (h : Rooted s) (name : String) :
    Rooted (s.getLogger name).2 := by
  have hmem := (mem_getLogger s name "root").2 (Or.inl h.mem)
  unfold LogState.getLogger at hmem ⊢
  split_ifs at hmem ⊢ with hold
  · exact h
  · -- the root logger is known, so the new one is another
    have hne : name ≠ "root" := fun heq => hold (heq ▸ h.mem)
    refine ⟨h.m_root, hmem, fun p root hp => ?_⟩
    change (Function.update s.logger name _ p).m_root = some root at hp
    by_cases hp' : p = name
    · rw [hp', Function.update_self] at hp
      exact ⟨hp' ▸ hne, (Option.some.inj hp).symm.trans h.m_root⟩
    · rw [Function.update_of_ne hp'] at hp
      exact h.logger p root hp

theorem Rooted.new (os : ℕ → Os) : Rooted (LogState.new os) := by
  refine ⟨rfl, List.mem_singleton.2 rfl, fun p root hp => ?_⟩
  have hnone : ((LogState.new os).logger p).m_root = none := by
    by_cases hp' : p = "root"
    · rw [hp']
      rfl
    · simp [LogState.new, newStdoutLogAppender, newAppender, addAppender_logger,
        Function.update_of_ne hp']
  exact absurd (hnone.symm.trans hp) (by simp)

namespace Locked

/-- The method takes only locks that come after `r`, in order. -/
abbrev After {α : Type} (r : Fin 7) (p : LogProg α) : Prop := p.Above Lock.rank Rooted r

section
variable {α ε : Type} {r : Fin 7}

theorem after_state {g : LogState → LogProg α} (hg : ∀ s, Rooted s → After r (g s)) :
    After r (state >>= g) := above_get_bind hg

theorem after_stateT {g : LogState → ExceptT ε LogProg α}
    (hg : ∀ s, Rooted s → After r (g s).run) :
    After r ((liftM state : ExceptT ε LogProg LogState) >>= g).run := above_get_bindT hg

theorem after_update {f : LogState → LogState} (hf : ∀ s, Rooted s → Rooted (f s)) :
    After r (update f) := above_modify hf

/-- A change of one appender. -/
theorem after_updateAppender (i : AppenderPtr) (f : LogState → LogAppender → LogAppender) :
    After r (update fun s => s.modifyAppender i (f s)) :=
  after_update fun _ h => h.modifyAppender i _

theorem after_updateLogger (p : LoggerPtr) {f : LogState → Logger → Logger}
    (hf : ∀ s l, (f s l).m_root = l.m_root) :
    After r (update fun s => s.modifyLogger p (f s)) :=
  after_update fun s h => h.modifyLogger p (hf s)

theorem after_spin {l : Lock} {body : LogProg α} (hl : r < l.rank) (hbody : After l.rank body) :
    After r (spin l body) := above_locked hl hbody

/-- The locks of the appenders are the last ones. -/
theorem lt_rank_appender (hr : r < 6) (i : AppenderPtr) : r < (Lock.appender i).rank := hr

/-- The locks of the loggers come right before. -/
theorem rank_logger (p : LoggerPtr) :
    3 < (Lock.logger p).rank ∧ (Lock.logger p).rank < 6 := by
  simp only [Lock.rank]
  split_ifs <;> decide

end

/-! ## Appenders -/

section
variable {r : Fin 7} (hr : r < 6)
include hr

theorem appenderSetFormatter_after (i : AppenderPtr) (val : Option LogFormatter) :
    After r (appenderSetFormatter i val) :=
  after_spin (lt_rank_appender hr i) (after_updateAppender i _)

theorem appenderGetFormatter_after (i : AppenderPtr) : After r (appenderGetFormatter i) :=
  after_spin (lt_rank_appender hr i) (after_state fun _ _ => above_pure _ _)

theorem reopen_after (i : AppenderPtr) (os : Os) : After r (reopen i os) :=
  after_spin (lt_rank_appender hr i) (after_updateAppender i _)

theorem format_after (i : AppenderPtr) (os : Os) : After r (format i os).run := by
  refine above_lockedT (lt_rank_appender hr i) (after_stateT fun s _ => ?_)
  refine (above_ofExcept _).bindT fun f => ?_
  exact (above_lift (after_updateAppender i _)).bindT fun _ => above_pureT f

theorem appenderLog_after (level : Level) (i : AppenderPtr) :
    After r (appenderLog level i).run := by
  refine after_stateT fun s _ => ?_
  dsimp only
  split
  · have hformat : After r (do return some (← format i (s.os s.tick)) : LogProgT _).run :=
      (format_after hr i _).bindT fun f => above_pureT (some f)
    cases (s.appender i).cls with
    | stdoutLogAppender => exact hformat
    | fileLogAppender members =>
        dsimp only
        split
        · -- the file is reopened first
          refine (above_lift (reopen_after hr i _)).bindT fun _ => ?_
          exact (above_lift (after_updateAppender i _)).bindT fun _ => hformat
        · exact hformat
  · exact above_pureT none

theorem appenderToYamlString_after (Y : YamlCpp) (i : AppenderPtr) :
    After r (appenderToYamlString Y i).run :=
  above_lockedT (lt_rank_appender hr i) (after_stateT fun _ _ => above_ofExcept _)

end

section
variable {r : Fin 7}

theorem newStdoutLogAppender_after : After r newStdoutLogAppender :=
  above_access (fun _ h => ⟨h.m_root, h.mem, h.logger⟩) fun _ _ => above_pure _ _

theorem newFileLogAppender_after (hr : r < 6) (filename : String) :
    After r (newFileLogAppender filename) := by
  refine Above.bind ?_ fun ap => Above.bind ?_ fun os => ?_
  · exact above_access (fun _ h => ⟨h.m_root, h.mem, h.logger⟩) fun _ _ => above_pure _ _
  · exact above_access (fun _ h => ⟨h.m_root, h.mem, h.logger⟩) fun _ _ => above_pure _ _
  · exact (reopen_after hr ap os).bind fun _ => above_pure _ ap

end

/-! ## Loggers -/

section
variable {r : Fin 7} (hr : r ≤ 3)
include hr

theorem lt_rank_logger (p : LoggerPtr) : r < (Lock.logger p).rank := hr.trans_lt (rank_logger p).1

theorem setFormatterPtr_after (p : LoggerPtr) (val : Option LogFormatter) :
    After r (setFormatterPtr p val) := by
  refine after_spin (lt_rank_logger hr p) ?_
  refine Above.bind ?_ fun _ => after_state fun s _ => above_foldlM (fun _ i _ => ?_) ()
  · exact after_updateLogger p fun _ _ => rfl
  · exact after_spin (lt_rank_appender (rank_logger p).2 i) (after_updateAppender i _)

theorem setFormatter_after (p : LoggerPtr) (val : String) : After r (setFormatter p val) := by
  unfold setFormatter
  split
  · exact above_pure _ ()
  · exact setFormatterPtr_after hr p _

theorem getFormatter_after (p : LoggerPtr) : After r (getFormatter p) :=
  after_spin (lt_rank_logger hr p) (after_state fun _ _ => above_pure _ _)

theorem addAppender_after (p : LoggerPtr) (ap : AppenderPtr) : After r (addAppender p ap) := by
  refine after_spin (lt_rank_logger hr p) ?_
  have hattach : After (Lock.logger p).rank (update fun s =>
      s.modifyLogger p fun l => { l with m_appenders := l.m_appenders ++ [ap] }) :=
    after_updateLogger p fun _ _ => rfl
  refine (appenderGetFormatter_after (rank_logger p).2 ap).bind fun f => ?_
  dsimp only
  split
  · refine Above.bind ?_ fun _ => hattach
    exact after_spin (lt_rank_appender (rank_logger p).2 ap) (after_updateAppender ap _)
  · exact hattach

theorem clearAppenders_after (p : LoggerPtr) : After r (clearAppenders p) :=
  after_spin (lt_rank_logger hr p) (after_updateLogger p fun _ _ => rfl)

omit hr in
theorem setLevel_after (p : LoggerPtr) (val : Level) : After r (setLevel p val) :=
  after_updateLogger p fun _ _ => rfl

theorem loggerToYamlString_after (Y : YamlCpp) (p : LoggerPtr) :
    After r (loggerToYamlString Y p).run := by
  refine above_lockedT (lt_rank_logger hr p) (after_stateT fun s _ => ?_)
  refine (above_ofExcept _).bindT fun node => Above.bindT ?_ fun node => above_pureT _
  refine above_foldlMT (fun node i _ => ?_) node
  refine (appenderToYamlString_after (rank_logger p).2 Y i).bindT fun text => ?_
  exact (above_ofExcept _).bindT fun n => above_ofExcept _

end

theorem logAppender_after {r : Fin 7} (hr : r < 6) (self : LoggerPtr) (level : Level)
    (event : String) (i : AppenderPtr) : After r (logAppender self level event i).run := by
  refine (appenderLog_after hr level i).bindT fun written => ?_
  exact above_lift (after_update fun s h => ⟨h.m_root, h.mem, h.logger⟩)

/-- The root logger is logged to after any other one. -/
theorem logFuel_after (level : Level) (event : String) (fuel : ℕ) : ∀ (r : Fin 7) (p : LoggerPtr),
    r < (Lock.logger p).rank → After r (logFuel level event fuel p).run := by
  induction fuel with
  | zero => exact fun r p _ => above_throw _
  | succ fuel ih =>
      intro r p hr
      refine after_stateT fun s _ => ?_
      split
      · refine above_lockedT hr (after_stateT fun s hs => ?_)
        split
        · exact above_foldlMT (fun _ i _ => logAppender_after (rank_logger p).2 p level event i) ()
        · split
          · next root hroot =>
              obtain ⟨hp, rfl⟩ := hs.logger p root hroot
              refine ih _ "root" ?_
              simp only [Lock.rank, if_neg hp]
              decide
          · exact above_pureT ()
      · exact above_pureT ()

section
variable {r : Fin 7} (hr : r ≤ 3)
include hr

theorem log_after (p : LoggerPtr) (level : Level) (event : String) :
    After r (log p level event).run :=
  after_stateT fun _ _ => logFuel_after level event _ r p (lt_rank_logger hr p)

theorem logLevel_after (p : LoggerPtr) (level : Level) (event : String) :
    After r (logLevel p level event).run := by
  refine after_stateT fun s _ => ?_
  split
  · exact log_after hr p level event
  · exact above_pureT ()

end

/-! ## The manager and the listener -/

section
variable {r : Fin 7} (hr : r ≤ 2)
include hr

theorem lt_rank_manager : r < Lock.manager.rank := lt_of_le_of_lt hr (by decide)

theorem getLogger_after (name : String) : After r (getLogger name) :=
  after_spin (lt_rank_manager hr) (above_access (fun _ h => h.getLogger name) fun _ _ =>
    above_pure _ _)

theorem toYamlString_after (Y : YamlCpp) : After r (toYamlString Y).run := by
  refine above_lockedT (lt_rank_manager hr) (after_stateT fun s _ => ?_)
  refine Above.bindT ?_ fun node => above_pureT _
  refine above_foldlMT (fun node i _ => ?_) _
  refine (loggerToYamlString_after (le_refl 3) Y i).bindT fun text => ?_
  exact (above_ofExcept _).bindT fun n => above_ofExcept _

theorem makeAppender_after (a : LogAppenderDefine) : After r (makeAppender a) := by
  unfold makeAppender
  split
  · exact (newFileLogAppender_after (lt_of_le_of_lt hr (by decide)) a.file).bind fun _ =>
      above_pure _ _
  · split
    · exact newStdoutLogAppender_after.bind fun _ => above_pure _ _
    · exact above_pure _ none

theorem configureAppender_after (logger : LoggerPtr) (a : LogAppenderDefine) :
    After r (configureAppender logger a).run := by
  have hr3 : r ≤ 3 := hr.trans (by decide)
  refine (above_lift (makeAppender_after hr a)).bindT fun ap => ?_
  cases ap with
  | none => exact above_throw _
  | some ap =>
      refine (above_lift (after_updateAppender ap _)).bindT fun _ => ?_
      have hadd : After r (liftM (addAppender logger ap) : LogProgT Unit).run :=
        above_lift (addAppender_after hr3 logger ap)
      dsimp only
      split
      · have hlt : r < 6 := lt_of_le_of_lt hr (by decide)
        exact (above_lift (appenderSetFormatter_after hlt ap _)).bindT fun _ => hadd
      · exact hadd

theorem selectLogger_after (old_value : LogDefineSet) (i : LogDefine) :
    After r (selectLogger old_value i) := by
  unfold selectLogger
  dsimp only
  split
  · exact (getLogger_after hr i.name).bind fun _ => above_pure _ _
  · split
    · exact (getLogger_after hr i.name).bind fun _ => above_pure _ _
    · exact above_pure _ none

theorem configureLogger_after (old_value : LogDefineSet) (i : LogDefine) :
    After r (configureLogger old_value i).run := by
  have hr3 : r ≤ 3 := hr.trans (by decide)
  refine (above_lift (selectLogger_after hr old_value i)).bindT fun logger => ?_
  cases logger with
  | none => exact above_throw _
  | some logger =>
      have hrest : After r (do
          liftM (clearAppenders logger)
          i.appenders.foldlM (fun _ a => configureAppender logger a) () : LogProgT Unit).run :=
        (above_lift (clearAppenders_after hr3 logger)).bindT fun _ =>
          above_foldlMT (fun _ a _ => configureAppender_after hr logger a) ()
      refine (above_lift (setLevel_after logger i.level)).bindT fun _ => ?_
      dsimp only
      split
      · exact (above_lift (setFormatter_after hr3 logger i.formatter)).bindT fun _ => hrest
      · exact hrest

theorem deleteLogger_after (new_value : LogDefineSet) (i : LogDefine) :
    After r (deleteLogger new_value i) := by
  have hr3 : r ≤ 3 := hr.trans (by decide)
  unfold deleteLogger
  split
  · refine (getLogger_after hr i.name).bind fun logger => ?_
    exact (setLevel_after logger .cast100).bind fun _ => clearAppenders_after hr3 logger
  · exact above_pure _ ()

/-- The listener takes its locks after that of the variable. -/
theorem logsListener_after (old_value new_value : LogDefineSet) :
    After r (logsListener old_value new_value).run := by
  have hr3 : r ≤ 3 := hr.trans (by decide)
  refine after_stateT fun s _ => (logLevel_after hr3 s.m_root .info _).bindT fun _ => ?_
  refine Above.bindT ?_ fun _ => ?_
  · exact above_foldlMT (fun _ i _ => configureLogger_after hr old_value i) ()
  · exact above_foldlMT (fun _ i _ => above_lift (deleteLogger_after hr new_value i)) ()

end

end Locked
end Ipmsg
