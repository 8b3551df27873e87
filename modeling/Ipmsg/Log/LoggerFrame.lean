import Ipmsg.Log.Logger

set_option autoImplicit false

/-! # What the methods of loggers and appenders leave alone

A log call changes file streams and nothing that was configured; the setters change one logger and
the appenders attached to it. The configured part of an appender and of a logger is its *view*. -/

namespace Ipmsg

/-! ## Views -/

/-- What is configured of an appender: the file name of a `FileLogAppender` (`none` for the other
    class), the level, and the formatter with its flag. -/
structure AppenderView where
  file : Option String
  level : Level
  hasFormatter : Bool
  formatter : Option LogFormatter

def AppenderClass.file : AppenderClass → Option String
  | .fileLogAppender members => some members.m_filename
  | .stdoutLogAppender => none

def LogAppender.view (a : LogAppender) : AppenderView :=
  { file := a.cls.file, level := a.m_level, hasFormatter := a.m_hasFormatter
    formatter := a.m_formatter }

/-- What is configured of a logger. -/
structure LoggerView where
  level : Level
  formatter : Option LogFormatter
  appenders : List AppenderView

def LogState.loggerView (s : LogState) (p : LoggerPtr) : LoggerView :=
  { level := (s.logger p).m_level
    formatter := (s.logger p).m_formatter
    appenders := (s.logger p).m_appenders.map fun q => (s.appender q).view }

/-! ## Log calls -/

theorem FileLogAppender.reopen_m_filename (os : Os) (a : FileLogAppender) :
    (a.reopen os).1.m_filename = a.m_filename := rfl

theorem FileLogAppender.refresh_m_filename (os : Os) (a : FileLogAppender) :
    (a.refresh os).m_filename = a.m_filename := by
  unfold refresh
  split
  · exact reopen_m_filename os a
  · rfl

theorem FileLogAppender.write_m_filename (os : Os) (f : LogFormatter) (a : FileLogAppender) :
    (a.write os f).m_filename = a.m_filename := by
  unfold write
  split <;> rfl

/-- An appender can be handed an event: it drops it, or has a formatter to write it with. -/
def AppenderView.Accepts (level : Level) (v : AppenderView) : Prop :=
  v.level.toNat ≤ level.toNat → v.formatter ≠ none

/-- The formatter an event of the level is written with. -/
def LogAppender.writesWith (level : Level) (a : LogAppender) : Option LogFormatter :=
  if a.m_level.toNat ≤ level.toNat then a.m_formatter else none

theorem LogAppender.log_spec (os : Os) (level : Level) (a : LogAppender) :
    (a.view.Accepts level ∧
        ∃ a', a.log os level = .ok (a', a.writesWith level) ∧ a'.view = a.view) ∨
      (¬ a.view.Accepts level ∧ a.log os level = .error .formatter) := by
  by_cases hlevel : a.m_level.toNat ≤ level.toNat
  · cases hf : a.m_formatter with
    | none =>
        refine Or.inr ⟨fun h => h hlevel hf, ?_⟩
        cases hcls : a.cls <;>
          simp [LogAppender.log, hlevel, hcls, derefFormatter, hf, bind, Except.bind]
    | some f =>
        have haccepts : a.view.Accepts level := by
          intro _
          simp [LogAppender.view, hf]
        have hwrites : a.writesWith level = some f := by rw [writesWith, if_pos hlevel, hf]
        rw [hwrites]
        refine Or.inl ⟨haccepts, ?_⟩
        cases hcls : a.cls with
        | stdoutLogAppender =>
            refine ⟨a, ?_, rfl⟩
            simp [LogAppender.log, hlevel, hcls, derefFormatter, hf, bind, Except.bind, pure,
              Except.pure]
        | fileLogAppender members =>
            refine ⟨{ a with cls := .fileLogAppender ((members.refresh os).write os f) }, ?_, ?_⟩
            · simp [LogAppender.log, hlevel, hcls, derefFormatter, hf, bind, Except.bind, pure,
                Except.pure]
            · simp [LogAppender.view, AppenderClass.file, hcls,
                FileLogAppender.write_m_filename, FileLogAppender.refresh_m_filename]
  · refine Or.inl ⟨fun h => absurd h hlevel, a, ?_, rfl⟩
    simp [LogAppender.log, writesWith, hlevel, pure, Except.pure]

namespace LogState

/-- Nothing configured differs. -/
structure SameConfig (s s' : LogState) : Prop where
  m_loggers : s'.m_loggers = s.m_loggers
  m_root : s'.m_root = s.m_root
  logger : s'.logger = s.logger
  nextAppender : s'.nextAppender = s.nextAppender
  view : ∀ q, (s'.appender q).view = (s.appender q).view

theorem SameConfig.refl (s : LogState) : SameConfig s s := ⟨rfl, rfl, rfl, rfl, fun _ => rfl⟩

theorem SameConfig.trans {s₁ s₂ s₃ : LogState} (h : SameConfig s₁ s₂) (h' : SameConfig s₂ s₃) :
    SameConfig s₁ s₃ :=
  ⟨h'.m_loggers.trans h.m_loggers, h'.m_root.trans h.m_root, h'.logger.trans h.logger,
    h'.nextAppender.trans h.nextAppender, fun q => (h'.view q).trans (h.view q)⟩

/-- What an appender is handed, and the formatter it writes the event with. -/
def delivery (s : LogState) (self : LoggerPtr) (level : Level) (event : String) (i : AppenderPtr) :
    Delivery :=
  { self, appender := i, level, event, written := (s.appender i).writesWith level }

theorem SameConfig.delivery {s s' : LogState} (h : SameConfig s s') (self : LoggerPtr)
    (level : Level) (event : String) :
    s'.delivery self level event = s.delivery self level event := by
  funext i
  have hlevel : (s'.appender i).m_level = (s.appender i).m_level :=
    congrArg AppenderView.level (h.view i)
  have hformatter : (s'.appender i).m_formatter = (s.appender i).m_formatter :=
    congrArg AppenderView.formatter (h.view i)
  simp only [LogState.delivery, LogAppender.writesWith, hlevel, hformatter]

/-- What a loop over the appenders `is` leaves behind: all of them have been handed the event, in
    their order, and no other appender has changed. -/
structure HandedTo (p : LoggerPtr) (level : Level) (event : String) (is : List AppenderPtr)
    (s s' : LogState) : Prop where
  same : SameConfig s s'
  deliveries : s'.deliveries = s.deliveries ++ is.map (s.delivery p level event)
  others : ∀ q, q ∉ is → s'.appender q = s.appender q

/-- The loop over the appenders of one logger: it completes when each of them accepts the event. -/
theorem logAppenders_spec (self : LoggerPtr) (level : Level) (event : String)
    (is : List AppenderPtr) : ∀ s : LogState,
    ((∀ q ∈ is, (s.appender q).view.Accepts level) ∧
        ∃ s', logAppenders self level event is s = .ok s' ∧ HandedTo self level event is s s') ∨
      ((∃ q ∈ is, ¬ (s.appender q).view.Accepts level) ∧
        logAppenders self level event is s = .error .formatter) := by
  induction is with
  | nil => exact fun s => Or.inl ⟨by simp, s, rfl, .refl s, by simp, fun _ _ => rfl⟩
  | cons i is ih =>
      intro s
      rcases (s.appender i).log_spec (s.os s.tick) level with ⟨hi, a, hlog, hview⟩ | ⟨hi, hlog⟩
      · -- the state the rest of the loop starts from
        obtain ⟨s₁, hs₁⟩ : ∃ s₁ : LogState, s₁ = { s.modifyAppender i fun _ => a with
            tick := s.tick + 1
            deliveries := s.deliveries ++ [s.delivery self level event i] } := ⟨_, rfl⟩
        have hother : ∀ q, q ≠ i → s₁.appender q = s.appender q := by
          intro q hq
          rw [hs₁]
          exact Function.update_of_ne hq ..
        have hsame : SameConfig s s₁ := by
          subst hs₁
          refine ⟨rfl, rfl, rfl, rfl, fun q => ?_⟩
          by_cases hq : q = i
          · show (Function.update s.appender i a q).view = _
            rw [hq, Function.update_self, hview]
          · rw [hother q hq]
        have hstep : logAppenders self level event (i :: is) s =
            logAppenders self level event is s₁ := by
          subst hs₁
          simp only [logAppenders, hlog, bind, Except.bind]
          rfl
        rw [hstep]
        rcases ih s₁ with ⟨hall, s', hloop, hhanded⟩ | ⟨⟨q, hq, hno⟩, hloop⟩
        · refine Or.inl ⟨?_, s', hloop, hsame.trans hhanded.same, ?_, fun q hq => ?_⟩
          · intro q hq
            rcases List.mem_cons.1 hq with rfl | hq
            · exact hi
            · exact hsame.view q ▸ hall q hq
          · rw [hhanded.deliveries, hsame.delivery, hs₁, List.map_cons, List.append_assoc,
              List.singleton_append]
          · obtain ⟨hne, hnot⟩ := List.ne_and_not_mem_of_not_mem_cons hq
            rw [hhanded.others q hnot, hother q hne]
        · exact Or.inr ⟨⟨q, List.mem_cons_of_mem i hq, hsame.view q ▸ hno⟩, hloop⟩
      · refine Or.inr ⟨⟨i, List.mem_cons_self, hi⟩, ?_⟩
        simp only [logAppenders, hlog, bind, Except.bind]

/-- A log call that completes changes nothing that is configured. -/
theorem logFuel_same {level : Level} {event : String} (fuel : ℕ) :
    ∀ {p : LoggerPtr} {s s' : LogState}, logFuel level event fuel p s = .ok s' →
      SameConfig s s' := by
  induction fuel with
  | zero => exact fun h => absurd h (by simp [logFuel])
  | succ fuel ih =>
      intro p s s' h
      unfold logFuel at h
      split at h
      · split at h
        · rcases logAppenders_spec p level event (s.logger p).m_appenders s with
            ⟨-, s'', hloop, hhanded⟩ | ⟨-, hloop⟩
          · rw [hloop] at h
            exact Except.ok.inj h ▸ hhanded.same
          · exact absurd (hloop.symm.trans h) (by simp)
        · split at h
          · exact ih h
          · exact Except.ok.inj h ▸ .refl s
      · exact Except.ok.inj h ▸ .refl s

/-- One round of `Logger::log`. -/
theorem logFuel_succ (s : LogState) (p : LoggerPtr) (level : Level) (event : String) (fuel : ℕ) :
    logFuel level event (fuel + 1) p s =
      if (s.logger p).m_level.toNat ≤ level.toNat then
        if (s.logger p).m_appenders ≠ [] then
          logAppenders p level event (s.logger p).m_appenders s
        else match (s.logger p).m_root with
          | some root => logFuel level event fuel root s
          | none => .ok s
      else .ok s := rfl

/-- The logger whose appenders a log call goes to: the logger itself or, if it has none, its root
    logger. -/
def logsThrough (s : LogState) (p : LoggerPtr) (level : Level) : Option LoggerPtr :=
  if (s.logger p).m_level.toNat ≤ level.toNat then
    if (s.logger p).m_appenders ≠ [] then some p
    else match (s.logger p).m_root with
      | some root => if (s.logger root).m_level.toNat ≤ level.toNat then some root else none
      | none => none
  else none

section
variable {s : LogState} {p : LoggerPtr}
  (hroot : ∀ root, (s.logger p).m_root = some root →
    root ∈ s.m_loggers ∧ (s.logger root).m_root = none)
include hroot

/-- From a root logger in the manager a log call goes no further. -/
theorem log_eq (level : Level) (event : String) : s.log p level event =
    match s.logsThrough p level with
    | some q => logAppenders q level event (s.logger q).m_appenders s
    | none => .ok s := by
  unfold log logsThrough
  rw [logFuel_succ]
  by_cases hlevel : (s.logger p).m_level.toNat ≤ level.toNat
  · rw [if_pos hlevel, if_pos hlevel]
    by_cases happ : (s.logger p).m_appenders = []
    · rw [if_neg (not_not_intro happ), if_neg (not_not_intro happ)]
      cases hm : (s.logger p).m_root with
      | none => rfl
      | some root =>
          obtain ⟨hmem, hend⟩ := hroot root hm
          -- there is fuel for the root logger, since the manager has it
          obtain ⟨fuel, hfuel⟩ : ∃ fuel, s.m_loggers.elems.length = fuel + 1 :=
            Nat.exists_eq_succ_of_ne_zero (List.ne_nil_of_mem hmem ∘ List.eq_nil_of_length_eq_zero)
          simp only [hfuel, logFuel_succ, hend]
          by_cases hlevel' : (s.logger root).m_level.toNat ≤ level.toNat
          · rw [if_pos hlevel', if_pos hlevel']
            by_cases happ' : (s.logger root).m_appenders = []
            · simp only [happ', logAppenders, ne_eq, not_true_eq_false, if_false]
            · rw [if_pos happ']
          · rw [if_neg hlevel', if_neg hlevel']
    · rw [if_pos happ, if_pos happ]
  · rw [if_neg hlevel, if_neg hlevel]

theorem mem_of_logsThrough (hp : p ∈ s.m_loggers) {level : Level} {q : LoggerPtr}
    (h : s.logsThrough p level = some q) : q ∈ s.m_loggers := by
  unfold logsThrough at h
  split at h
  · split at h
    · exact Option.some.inj h ▸ hp
    · split at h
      · next root hm =>
          split_ifs at h
          exact Option.some.inj h ▸ (hroot root hm).1
      · simp at h
  · simp at h

end

theorem logLevel_same {s s' : LogState} {p : LoggerPtr} {level : Level} {event : String}
    (h : s.logLevel p level event = .ok s') : SameConfig s s' := by
  unfold logLevel at h
  split at h
  · exact logFuel_same _ h
  · exact Except.ok.inj h ▸ .refl s

/-- A log call through a logger without `m_root` completes exactly when its appenders accept the
event. -/
theorem logLevel_ok_iff {s : LogState} {p : LoggerPtr} (hroot : (s.logger p).m_root = none)
    (level : Level) (event : String) :
    (∃ s', s.logLevel p level event = .ok s') ↔
      ((s.logger p).m_level.toNat ≤ level.toNat →
        ∀ q ∈ (s.logger p).m_appenders, (s.appender q).view.Accepts level) := by
  by_cases hlevel : (s.logger p).m_level.toNat ≤ level.toNat
  · have hlog : s.logLevel p level event =
        if (s.logger p).m_appenders ≠ [] then
          logAppenders p level event (s.logger p).m_appenders s else .ok s := by
      simp only [logLevel, log, logFuel, if_pos hlevel, hroot]
    rw [hlog]
    by_cases hempty : (s.logger p).m_appenders = []
    · simp [hempty]
    · rw [if_pos hempty]
      rcases logAppenders_spec p level event (s.logger p).m_appenders s with
        ⟨hall, s', hloop, -⟩ | ⟨⟨q, hq, hno⟩, hloop⟩
      · exact iff_of_true ⟨s', hloop⟩ fun _ => hall
      · refine iff_of_false ?_ fun h => hno (h hlevel q hq)
        rintro ⟨s', h⟩
        exact absurd (hloop.symm.trans h) (by simp)
  · exact iff_of_true ⟨s, if_neg hlevel⟩ fun h => absurd h hlevel

/-! ## Setting the formatter of a logger -/

/-- A loop that makes the same idempotent change to some appenders. -/
theorem foldl_modifyAppender {f : LogAppender → LogAppender} (hf : ∀ a, f (f a) = f a)
    (ps : List AppenderPtr) : ∀ s : LogState,
    ps.foldl (fun s i => s.modifyAppender i f) s =
      { s with appender := fun q => if q ∈ ps then f (s.appender q) else s.appender q } := by
  induction ps with
  | nil => exact fun s => by simp
  | cons i ps ih =>
      intro s
      have hother : ∀ q, (s.modifyAppender i f).appender q =
          if q = i then f (s.appender q) else s.appender q := by
        intro q
        show Function.update s.appender i (f (s.appender i)) q = _
        split_ifs with hq
        · rw [hq, Function.update_self]
        · exact Function.update_of_ne hq _ _
      rw [List.foldl_cons, ih]
      show LogState.mk _ _ _ _ _ _ _ _ = LogState.mk _ _ _ _ _ _ _ _
      congr 1
      funext q
      rw [hother]
      by_cases hi : q = i <;> by_cases hps : q ∈ ps <;> simp [hi, hps, hf]

end LogState

/-- The appender follows a new formatter of its logger, unless it has its own. -/
def LogAppender.inherit (val : Option LogFormatter) (a : LogAppender) : LogAppender :=
  if !a.m_hasFormatter then { a with m_formatter := val } else a

theorem LogAppender.inherit_inherit (val : Option LogFormatter) (a : LogAppender) :
    (a.inherit val).inherit val = a.inherit val := by
  unfold inherit
  split <;> simp_all

namespace LogState

theorem setFormatterPtr_eq (s : LogState) (p : LoggerPtr) (val : Option LogFormatter) :
    s.setFormatterPtr p val = { s with
      logger := Function.update s.logger p { s.logger p with m_formatter := val }
      appender := fun q =>
        if q ∈ (s.logger p).m_appenders then (s.appender q).inherit val else s.appender q } := by
  have hloop := foldl_modifyAppender (LogAppender.inherit_inherit val) (s.logger p).m_appenders
    (s.modifyLogger p fun l => { l with m_formatter := val })
  have hlist : ((s.modifyLogger p fun l => { l with m_formatter := val }).logger p).m_appenders =
      (s.logger p).m_appenders := by simp [modifyLogger]
  have hset : s.setFormatterPtr p val =
      ((s.modifyLogger p fun l => { l with m_formatter := val }).logger p).m_appenders.foldl
        (fun (s : LogState) i => s.modifyAppender i (LogAppender.inherit val))
        (s.modifyLogger p fun l => { l with m_formatter := val }) := rfl
  rw [hset, hlist]
  exact hloop

/-! ## Attaching an appender -/

theorem addAppender_logger (s : LogState) (p : LoggerPtr) (ap : AppenderPtr) :
    (s.addAppender p ap).logger = Function.update s.logger p { s.logger p with
      m_appenders := (s.logger p).m_appenders ++ [ap] } := by
  unfold addAppender
  split <;> rfl

/-- An appender without a formatter gets the one of its logger. -/
theorem addAppender_appender (s : LogState) (p : LoggerPtr) (ap : AppenderPtr) :
    (s.addAppender p ap).appender = Function.update s.appender ap { s.appender ap with
      m_formatter := (s.appender ap).m_formatter.or (s.logger p).m_formatter } := by
  unfold addAppender
  cases hf : (s.appender ap).m_formatter with
  | none => rfl
  | some f =>
      have hsame : { s.appender ap with m_formatter := some f } = s.appender ap := by rw [← hf]
      rw [Option.some_or, hsame, Function.update_eq_self]
      rfl

end LogState

end Ipmsg
