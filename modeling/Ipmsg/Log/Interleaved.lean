import Ipmsg.Lib.Rely
import Ipmsg.Log.LockOrder

set_option autoImplicit false

/-! # Loggers under interference

What the methods of loggers, appenders and the manager rely on while other threads call them too,
and what they keep up in return: loggers fall back to the root logger only, every logger has a
formatter, and an appender that is attached is constructed and has one too. An appender never gets
another file, and does not lose its formatter. -/

namespace Ipmsg

open Prog

/-! ## What the threads agree on -/

namespace LogState

/-- An appender that is constructed and has a formatter. -/
def Ready (s : LogState) (i : AppenderPtr) : Prop :=
  i < s.nextAppender ∧ (s.appender i).m_formatter ≠ none

/-- A logger has a formatter, and an appender it is given too. -/
structure Sound (s : LogState) : Prop where
  rooted : Rooted s
  formatter : ∀ p, (s.logger p).m_formatter ≠ none
  attached : ∀ p, ∀ i ∈ (s.logger p).m_appenders, s.Ready i

/-- What stays of the appenders that are constructed. -/
structure Later (s s' : LogState) : Prop where
  nextAppender : s.nextAppender ≤ s'.nextAppender
  file : ∀ i < s.nextAppender, (s'.appender i).cls.file = (s.appender i).cls.file
  formatter : ∀ i < s.nextAppender, (s.appender i).m_formatter ≠ none →
    (s'.appender i).m_formatter ≠ none

theorem Later.refl (s : LogState) : s.Later s := ⟨le_refl _, fun _ _ => rfl, fun _ _ => id⟩

theorem Later.trans {s s' s'' : LogState} (h : s.Later s') (h' : s'.Later s'') : s.Later s'' where
  nextAppender := h.nextAppender.trans h'.nextAppender
  file i hi := (h'.file i (hi.trans_le h.nextAppender)).trans (h.file i hi)
  formatter i hi hf := h'.formatter i (hi.trans_le h.nextAppender) (h.formatter i hi hf)

theorem Later.exists {s s' : LogState} {i : AppenderPtr} (h : s.Later s') (hi : i < s.nextAppender) :
    i < s'.nextAppender :=
  hi.trans_le h.nextAppender

theorem Later.ready {s s' : LogState} {i : AppenderPtr} (h : s.Later s') (hi : s.Ready i) :
    s'.Ready i :=
  ⟨h.exists hi.1, h.formatter i hi.1 hi.2⟩

/-- The appenders are the same ones. -/
theorem Later.same {s s' : LogState} (hnext : s'.nextAppender = s.nextAppender)
    (happender : s'.appender = s.appender) : s.Later s' :=
  ⟨hnext.ge, fun _ _ => by rw [happender], fun _ _ => by rw [happender]; exact id⟩

/-- An access keeps both. -/
def Keeps (s s' : LogState) : Prop := s.Sound → s'.Sound ∧ s.Later s'

end LogState

/-- Accesses keep the loggers sound; no lock is relied on for more. -/
def soundD : Discipline Lock LogState where
  guar := LogState.Keeps
  same _ _ _ := True
  inv _ _ := True
  guar_refl s h := ⟨h, .refl s⟩
  guar_trans h h' hs := ⟨(h' (h hs).1).1, (h hs).2.trans (h' (h hs).1).2⟩
  same_refl _ _ := trivial
  same_trans _ _ := trivial
  inv_same _ _ := trivial

namespace LogState

/-! ## Changes of the state -/

/-- A change of loggers that leaves the appenders alone. -/
theorem keeps_loggers {s s' : LogState} (hrooted : Rooted s')
    (hnext : s'.nextAppender = s.nextAppender) (happender : s'.appender = s.appender)
    (hlogger : ∀ p, (s'.logger p).m_formatter ≠ none ∧
      ∀ i ∈ (s'.logger p).m_appenders, s.Ready i) : s'.Sound ∧ s.Later s' := by
  refine ⟨⟨hrooted, fun p => (hlogger p).1, fun p i hi => ?_⟩, .same hnext happender⟩
  rw [Ready, hnext, happender]
  exact (hlogger p).2 i hi

section
variable {s : LogState} (h : s.Sound)
include h

theorem Sound.modifyLogger (p : LoggerPtr) {f : Logger → Logger}
    (hroot : ∀ l, (f l).m_root = l.m_root) (hformatter : (f (s.logger p)).m_formatter ≠ none)
    (hattached : ∀ i ∈ (f (s.logger p)).m_appenders, s.Ready i) :
    (s.modifyLogger p f).Sound ∧ s.Later (s.modifyLogger p f) := by
  refine keeps_loggers (h.rooted.modifyLogger p hroot) rfl rfl fun q => ?_
  show (Function.update s.logger p _ q).m_formatter ≠ none ∧
    ∀ i ∈ (Function.update s.logger p _ q).m_appenders, _
  by_cases hq : q = p
  · subst hq
    rw [Function.update_self]
    exact ⟨hformatter, hattached⟩
  · rw [Function.update_of_ne hq]
    exact ⟨h.formatter q, h.attached q⟩

/-- A change of an appender that keeps its file and does not take its formatter. -/
theorem Sound.modifyAppender (i : AppenderPtr) {f : LogAppender → LogAppender}
    (hfile : (f (s.appender i)).cls.file = (s.appender i).cls.file)
    (hformatter : (s.appender i).m_formatter ≠ none → (f (s.appender i)).m_formatter ≠ none) :
    (s.modifyAppender i f).Sound ∧ s.Later (s.modifyAppender i f) := by
  have hkeep : ∀ j, (Function.update s.appender i (f (s.appender i)) j).cls.file =
        (s.appender j).cls.file ∧ ((s.appender j).m_formatter ≠ none →
      (Function.update s.appender i (f (s.appender i)) j).m_formatter ≠ none) := by
    intro j
    by_cases hj : j = i
    · subst hj
      rw [Function.update_self]
      exact ⟨hfile, hformatter⟩
    · rw [Function.update_of_ne hj]
      exact ⟨rfl, id⟩
  refine ⟨⟨h.rooted.modifyAppender i f, h.formatter, fun p j hj => ?_⟩,
    ⟨le_refl _, fun j _ => (hkeep j).1, fun j _ => (hkeep j).2⟩⟩
  obtain ⟨hnext, hformatter⟩ := h.attached p j hj
  exact ⟨hnext, (hkeep j).2 hformatter⟩

theorem Sound.modifyFile (i : AppenderPtr) {f : FileLogAppender → FileLogAppender}
    (hf : ∀ members, (f members).m_filename = members.m_filename) :
    (Locked.modifyFile i f s).Sound ∧ s.Later (Locked.modifyFile i f s) := by
  refine h.modifyAppender i ?_ fun hformatter => ?_
  · cases hcls : (s.appender i).cls with
    | stdoutLogAppender => exact congrArg AppenderClass.file hcls
    | fileLogAppender members => simp only [AppenderClass.file, hf]
  · split
    · exact hformatter
    · exact hformatter

theorem Sound.newAppender (cls : AppenderClass) :
    (s.newAppender cls).2.Sound ∧ s.Later (s.newAppender cls).2 := by
  have hold : ∀ i < s.nextAppender, (s.newAppender cls).2.appender i = s.appender i :=
    fun i hi => Function.update_of_ne hi.ne _ _
  refine ⟨⟨⟨h.rooted.m_root, h.rooted.mem, h.rooted.logger⟩, h.formatter, fun p i hi => ?_⟩,
    ⟨Nat.le_succ _, fun i hi => by rw [hold i hi], fun i hi => by rw [hold i hi]; exact id⟩⟩
  obtain ⟨hnext, hformatter⟩ := h.attached p i hi
  rw [Ready, hold i hnext]
  exact ⟨Nat.lt_succ_of_lt hnext, hformatter⟩

theorem Sound.getLogger (name : String) :
    (s.getLogger name).2.Sound ∧ s.Later (s.getLogger name).2 := by
  have hrooted := h.rooted.getLogger name
  unfold LogState.getLogger at hrooted ⊢
  split_ifs at hrooted ⊢ with hold
  · exact ⟨h, .refl s⟩
  · refine keeps_loggers hrooted rfl rfl fun p => ?_
    show (Function.update s.logger name _ p).m_formatter ≠ none ∧
      ∀ i ∈ (Function.update s.logger name _ p).m_appenders, _
    by_cases hp : p = name
    · subst hp
      rw [Function.update_self]
      exact ⟨nofun, fun i hi => absurd hi List.not_mem_nil⟩
    · rw [Function.update_of_ne hp]
      exact ⟨h.formatter p, h.attached p⟩

end

theorem Sound.new (os : ℕ → Os) : (LogState.new os).Sound := by
  have hother : ∀ p ≠ "root", (LogState.new os).logger p = {} :=
    fun p hp => Function.update_of_ne hp _ _
  refine ⟨.new os, fun p => ?_, fun p i hi => ?_⟩
  · by_cases hp : p = "root"
    · rw [hp]
      exact nofun
    · rw [hother p hp]
      exact nofun
  · by_cases hp : p = "root"
    · rw [hp] at hi
      obtain rfl : i = 0 := List.mem_singleton.1 hi
      exact ⟨Nat.zero_lt_one, nofun⟩
    · rw [hother p hp] at hi
      exact absurd hi List.not_mem_nil

end LogState

namespace Locked

/-! ## Methods -/

/-- The method keeps the loggers sound, whatever other threads do. -/
def Safe {α : Type} (p : LogProg α) : Prop :=
  ∀ h, Triple soundD h (fun _ => True) p fun _ _ => True

section
variable {α ε : Type}

theorem stable_true (h : List (Lock × LockMode)) : soundD.Stable h fun _ => True :=
  fun _ _ _ _ => trivial

theorem safe_pure (a : α) : Safe (Pure.pure a : LogProg α) :=
  fun _ => triple_pure fun _ _ _ _ => trivial

theorem Safe.bind {β : Type} {p : LogProg α} {g : α → LogProg β} (hp : Safe p)
    (hg : ∀ a, Safe (g a)) : Safe (p >>= g) :=
  fun h => (hp h).bind fun a => hg a h

theorem safe_access {f : LogState → LogState} {k : LogState → LogProg α}
    (hf : ∀ s : LogState, s.Sound → (f s).Sound ∧ s.Later (f s)) (hk : ∀ s, Safe (k s)) :
    Safe (.access f k) :=
  fun h => triple_access (R := fun _ _ => True)
    (fun _ s' _ _ => ⟨hf s', fun _ _ => trivial, trivial⟩) fun s => hk s h

theorem safe_update {f : LogState → LogState}
    (hf : ∀ s : LogState, s.Sound → (f s).Sound ∧ s.Later (f s)) : Safe (update f) :=
  safe_access hf fun _ => safe_pure ()

theorem safe_state {g : LogState → LogProg α} (hg : ∀ s, Safe (g s)) : Safe (state >>= g) :=
  safe_access (fun s hs => ⟨hs, .refl s⟩) hg

theorem safe_locked {l : Lock} {m : LockMode} {body : LogProg α} (hbody : Safe body) :
    Safe (Prog.locked l m body) := by
  refine fun h => triple_locked (stable_true h) (fun _ => stable_true h) ?_
  exact ((hbody ((l, m) :: h)).conseq fun _ _ => trivial) fun _ _ _ => ⟨fun _ => trivial, trivial⟩

theorem safe_foldlM {β γ : Type} {f : β → γ → LogProg β} {l : List γ}
    (hf : ∀ b, ∀ c ∈ l, Safe (f b c)) (b : β) : Safe (l.foldlM f b) :=
  fun h => triple_foldlM_keeps (R := fun _ _ => True) (fun _ => stable_true h)
    (fun b c hc => hf b c hc h) b

theorem Safe.bindT {β : Type} {p : ExceptT ε LogProg α} {g : α → ExceptT ε LogProg β}
    (hp : Safe p.run) (hg : ∀ a, Safe (g a).run) : Safe (p >>= g).run := by
  refine hp.bind fun x => ?_
  cases x with
  | ok a => exact hg a
  | error e => exact safe_pure _

theorem safe_stateT {g : LogState → ExceptT ε LogProg α} (hg : ∀ s, Safe (g s).run) :
    Safe ((liftM state : ExceptT ε LogProg LogState) >>= g).run := safe_state hg

theorem safe_ofExcept (x : Except ε α) : Safe (Prog.ofExcept x : ExceptT ε LogProg α).run :=
  safe_pure x

theorem safe_foldlMT {β γ : Type} {f : β → γ → ExceptT ε LogProg β} {l : List γ}
    (hf : ∀ b, ∀ c ∈ l, Safe (f b c).run) : ∀ b, Safe (l.foldlM f b).run := by
  induction l with
  | nil => exact fun b => safe_pure _
  | cons c l ih =>
      intro b
      rw [List.foldlM_cons]
      have hrest : ∀ b, ∀ c' ∈ l, Safe (f b c').run :=
        fun b c' hc' => hf b c' (List.mem_cons_of_mem c hc')
      exact (hf b c List.mem_cons_self).bindT fun b' => ih hrest b'

end

/-- An assertion about the appenders that are constructed stays true. -/
theorem stable_sound {R : LogState → Prop} (hR : ∀ {s s' : LogState}, s.Later s' → R s → R s')
    (h : List (Lock × LockMode)) : soundD.Stable h fun s => s.Sound ∧ R s :=
  fun _ _ hs henv => ⟨(henv.1 hs.1).1, hR (henv.1 hs.1).2 hs.2⟩

theorem Safe.triple {α : Type} {p : LogProg α} (hp : Safe p) {R : LogState → Prop}
    (hR : ∀ {s s' : LogState}, s.Later s' → R s → R s') (h : List (Lock × LockMode)) :
    Triple soundD h (fun s => s.Sound ∧ R s) p fun _ s => s.Sound ∧ R s :=
  (((hp h).frame fun _ _ hs hguar => ⟨(hguar hs.1).1, hR (hguar hs.1).2 hs.2⟩).conseq
    fun _ hs => ⟨trivial, hs⟩) fun _ _ hs => hs.2

section
variable {α : Type} {R : LogState → Prop} {R' : α → LogState → Prop}
  (hR : ∀ {s s' : LogState}, s.Later s' → R s → R s')
  (hR' : ∀ a {s s' : LogState}, s.Later s' → R' a s → R' a s')
include hR hR'

/-- One access, with a result from the state that was found. -/
theorem triple_return {f : LogState → LogState} {a : LogState → α}
    (hf : ∀ s : LogState, s.Sound → R s → ((f s).Sound ∧ s.Later (f s)) ∧ R' (a s) (f s))
    (h : List (Lock × LockMode)) :
    Triple soundD h (fun s => s.Sound ∧ R s) (.access f fun s => return a s)
      fun x s => s.Sound ∧ R' x s := by
  refine triple_access (R := fun s s' => s'.Sound ∧ R' (a s) s') (fun s s' hs henv => ?_)
    fun s => triple_pure fun s₁ s₂ hs henv => stable_sound (hR' (a s)) h s₁ s₂ hs henv
  obtain ⟨hsound, hr⟩ := stable_sound hR h s s' hs henv
  obtain ⟨hkeeps, hr'⟩ := hf s' hsound hr
  exact ⟨fun _ => hkeeps, fun _ _ => trivial, hkeeps.1, hr'⟩

theorem triple_spin {l : Lock} {body : LogProg α}
    (hbody : ∀ h, Triple soundD h (fun s => s.Sound ∧ R s) body fun a s => s.Sound ∧ R' a s)
    (h : List (Lock × LockMode)) :
    Triple soundD h (fun s => s.Sound ∧ R s) (spin l body) fun a s => s.Sound ∧ R' a s := by
  refine triple_locked (stable_sound hR h) (fun a => stable_sound (hR' a) h) ?_
  exact ((hbody _).conseq fun _ hs => hs.1) fun _ _ hs => ⟨fun _ => trivial, hs⟩

end

/-! ## Appenders -/

/-- A change of an appender that keeps its file and does not take its formatter. -/
theorem safe_updateAppender (i : AppenderPtr) {f : LogState → LogAppender → LogAppender}
    (hfile : ∀ s a, (f s a).cls.file = a.cls.file)
    (hformatter : ∀ s : LogState, s.Sound → ∀ a, a.m_formatter ≠ none →
      (f s a).m_formatter ≠ none) :
    Safe (update fun s => s.modifyAppender i (f s)) :=
  safe_update fun s h => h.modifyAppender i (hfile s _) (hformatter s h _)

theorem safe_modifyFile (i : AppenderPtr) {f : FileLogAppender → FileLogAppender}
    (hf : ∀ members, (f members).m_filename = members.m_filename) :
    Safe (update (modifyFile i f)) :=
  safe_update fun _ h => h.modifyFile i hf

theorem appenderSetFormatter_safe (i : AppenderPtr) (val : LogFormatter) :
    Safe (appenderSetFormatter i (some val)) :=
  safe_locked (safe_updateAppender i (fun _ _ => rfl) fun _ _ _ _ => nofun)

theorem appenderSetLevel_safe (i : AppenderPtr) (val : Level) : Safe (appenderSetLevel i val) :=
  safe_updateAppender i (fun _ _ => rfl) fun _ _ _ h => h

theorem appenderGetFormatter_safe (i : AppenderPtr) : Safe (appenderGetFormatter i) :=
  safe_locked (safe_state fun _ => safe_pure _)

theorem reopen_safe (i : AppenderPtr) (os : Os) : Safe (reopen i os) :=
  safe_locked (safe_modifyFile i fun _ => rfl)

theorem appenderToYamlString_safe (Y : YamlCpp) (i : AppenderPtr) :
    Safe (appenderToYamlString Y i).run :=
  safe_locked (safe_stateT fun _ => safe_ofExcept _)

theorem newStdoutLogAppender_safe : Safe newStdoutLogAppender :=
  safe_access (fun _ h => h.newAppender _) fun _ => safe_pure _

theorem safe_tick : Safe (.access (fun s => { s with tick := s.tick + 1 })
    fun s => return s.os s.tick : LogProg Os) :=
  safe_access (fun _ h => ⟨⟨⟨h.rooted.m_root, h.rooted.mem, h.rooted.logger⟩, h.formatter,
    h.attached⟩, .same rfl rfl⟩) fun _ => safe_pure _

theorem newFileLogAppender_safe (filename : String) : Safe (newFileLogAppender filename) := by
  refine Safe.bind ?_ fun ap => safe_tick.bind fun os => ?_
  · exact safe_access (fun _ h => h.newAppender _) fun _ => safe_pure _
  · exact (reopen_safe ap os).bind fun _ => safe_pure _

/-! ## Loggers -/

theorem setLevel_safe (p : LoggerPtr) (val : Level) : Safe (setLevel p val) :=
  safe_update fun _ h => h.modifyLogger p (fun _ => rfl) (h.formatter p) (h.attached p)

theorem setFormatterPtr_safe (p : LoggerPtr) (val : LogFormatter) :
    Safe (setFormatterPtr p (some val)) := by
  refine safe_locked (Safe.bind ?_ fun _ => safe_state fun s => safe_foldlM (fun _ i _ => ?_) ())
  · exact safe_update fun _ h => h.modifyLogger p (fun _ => rfl) nofun (h.attached p)
  · refine safe_locked (safe_updateAppender i (fun _ a => ?_) fun _ _ a h => ?_)
    · split <;> rfl
    · split
      · exact nofun
      · exact h

theorem setFormatter_safe (p : LoggerPtr) (val : String) : Safe (setFormatter p val) := by
  unfold setFormatter
  split
  · exact safe_pure ()
  · exact setFormatterPtr_safe p _

theorem getFormatter_safe (p : LoggerPtr) : Safe (getFormatter p) :=
  safe_locked (safe_state fun _ => safe_pure _)

theorem clearAppenders_safe (p : LoggerPtr) : Safe (clearAppenders p) :=
  safe_locked (safe_update fun _ h => h.modifyLogger p (fun _ => rfl) (h.formatter p)
    fun _ hi => absurd hi List.not_mem_nil)

theorem loggerToYamlString_safe (Y : YamlCpp) (p : LoggerPtr) :
    Safe (loggerToYamlString Y p).run := by
  refine safe_locked (safe_stateT fun s => ?_)
  refine (safe_ofExcept _).bindT fun node => Safe.bindT ?_ fun node => safe_pure _
  refine safe_foldlMT (fun node i _ => ?_) node
  refine (appenderToYamlString_safe Y i).bindT fun text => ?_
  exact (safe_ofExcept _).bindT fun n => safe_ofExcept _

/-- A formatter that was found is still there. -/
theorem appenderGetFormatter_triple (h : List (Lock × LockMode)) (ap : AppenderPtr) :
    Triple soundD h (fun s => s.Sound ∧ ap < s.nextAppender) (appenderGetFormatter ap)
      fun f s => s.Sound ∧ ap < s.nextAppender ∧ (f ≠ none → s.Ready ap) := by
  have hfound : ∀ (f : Option LogFormatter) {s s' : LogState}, s.Later s' →
      ap < s.nextAppender ∧ (f ≠ none → s.Ready ap) →
        ap < s'.nextAppender ∧ (f ≠ none → s'.Ready ap) :=
    fun f _ _ hlater hs => ⟨hlater.exists hs.1, fun hf => hlater.ready (hs.2 hf)⟩
  refine triple_spin LogState.Later.exists hfound (fun h => ?_) h
  refine triple_return LogState.Later.exists hfound ?_ h
  exact fun s hs hap => ⟨⟨hs, .refl s⟩, hap, fun hf => ⟨hap, hf⟩⟩

/-- An appender that exists is attached with a formatter. -/
theorem addAppender_triple (h : List (Lock × LockMode)) (p : LoggerPtr) (ap : AppenderPtr) :
    Triple soundD h (fun s => s.Sound ∧ ap < s.nextAppender) (addAppender p ap)
      fun _ s => s.Sound ∧ ap < s.nextAppender := by
  have hattach : ∀ h, Triple soundD h (fun s => s.Sound ∧ s.Ready ap) (update fun s =>
      s.modifyLogger p fun l => { l with m_appenders := l.m_appenders ++ [ap] })
      fun _ s => s.Sound ∧ ap < s.nextAppender := by
    refine triple_return LogState.Later.ready (fun _ => LogState.Later.exists) fun s hs hready => ?_
    refine ⟨hs.modifyLogger p (fun _ => rfl) (hs.formatter p) fun i hi => ?_, hready.1⟩
    exact (List.mem_append.1 hi).elim (hs.attached p i) fun h => List.mem_singleton.1 h ▸ hready
  refine triple_spin LogState.Later.exists (fun _ => LogState.Later.exists) (fun h => ?_) h
  refine (appenderGetFormatter_triple h ap).bind fun f => ?_
  cases f with
  | some f => exact (hattach h).conseq (fun s hs => ⟨hs.1, hs.2.2 nofun⟩) fun _ _ => id
  | none =>
      -- it gets the formatter of the logger
      have hgive : Triple soundD h (fun s => s.Sound ∧ ap < s.nextAppender)
          (spin (.appender ap) (update fun s =>
            s.modifyAppender ap fun a => { a with m_formatter := (s.logger p).m_formatter }))
          fun _ s => s.Sound ∧ s.Ready ap := by
        refine triple_spin LogState.Later.exists (fun _ => LogState.Later.ready) (fun h => ?_) h
        refine triple_return LogState.Later.exists (fun _ => LogState.Later.ready)
          (fun s hs hap => ?_) h
        have hnew : ((s.modifyAppender ap fun a =>
            { a with m_formatter := (s.logger p).m_formatter }).appender ap).m_formatter ≠ none := by
          show (Function.update s.appender ap _ ap).m_formatter ≠ none
          rw [Function.update_self]
          exact hs.formatter p
        exact ⟨hs.modifyAppender ap rfl fun _ => hs.formatter p, hap, hnew⟩
      exact (hgive.conseq (fun s hs => ⟨hs.1, hs.2.1⟩) fun _ _ => id).bind fun _ => hattach h

/-! ## The manager -/

theorem getLogger_safe (name : String) : Safe (getLogger name) :=
  safe_locked (safe_access (fun _ h => h.getLogger name) fun _ => safe_pure _)

theorem toYamlString_safe (Y : YamlCpp) : Safe (toYamlString Y).run := by
  refine safe_locked (safe_stateT fun s => ?_)
  refine Safe.bindT ?_ fun node => safe_pure _
  refine safe_foldlMT (fun node i _ => ?_) _
  refine (loggerToYamlString_safe Y i).bindT fun text => ?_
  exact (safe_ofExcept _).bindT fun n => safe_ofExcept _

/-! ## The listener -/

/-- The method is not called through a null pointer. -/
def Completes (p : LogProgT Unit) : Prop :=
  ∀ h, Triple soundD h (fun s => s.Sound ∧ True) p.run fun x s => s.Sound ∧ x = .ok ()

theorem completes_pure : Completes (Pure.pure ()) := by
  refine fun h => triple_pure fun s s' hs henv => ⟨(henv.1 hs.1).1, rfl⟩

theorem Completes.bind {p q : LogProgT Unit} (hp : Completes p) (hq : Completes q) :
    Completes (p >>= fun _ => q) := by
  refine fun h => (hp h).bindT (fun _ => ?_) fun e s s' hs _ => absurd hs.2 nofun
  exact (hq h).conseq (fun s hs => ⟨hs.1, trivial⟩) fun _ _ => id

theorem completes_bind_lift {α : Type} {p : LogProg α} {g : α → LogProgT Unit} (hp : Safe p)
    (hg : ∀ a, Completes (g a)) : Completes (liftM p >>= g) :=
  fun h => triple_lift_bindT (fun _ => stable_sound (fun _ => id) h) (hp.triple (fun _ => id) h)
    fun a => hg a h

theorem completes_foldlM {γ : Type} {f : γ → LogProgT Unit} {l : List γ}
    (hf : ∀ c ∈ l, Completes (f c)) : Completes (l.foldlM (fun _ c => f c) ()) := by
  induction l with
  | nil => exact completes_pure
  | cons c l ih =>
      rw [List.foldlM_cons]
      exact (hf c List.mem_cons_self).bind (ih fun c' hc' => hf c' (List.mem_cons_of_mem c hc'))

/-- A new appender exists. -/
theorem newAppender_triple (cls : AppenderClass) (h : List (Lock × LockMode)) :
    Triple soundD h (fun s => s.Sound ∧ True)
      (.access (fun s => (s.newAppender cls).2) fun s => return s.nextAppender : LogProg _)
      fun ap s => s.Sound ∧ ap < s.nextAppender := by
  have hexists : ∀ (ap : AppenderPtr) {s s' : LogState}, s.Later s' →
      ap < s.nextAppender → ap < s'.nextAppender := fun _ _ _ => LogState.Later.exists
  refine triple_return (R := fun _ => True) (fun _ => id) hexists (fun s hs _ => ?_) h
  exact ⟨hs.newAppender cls, Nat.lt_succ_self s.nextAppender⟩

theorem newFileLogAppender_triple (filename : String) (h : List (Lock × LockMode)) :
    Triple soundD h (fun s => s.Sound ∧ True) (newFileLogAppender filename) fun ap s =>
      s.Sound ∧ ap < s.nextAppender := by
  refine (newAppender_triple _ h).bind fun ap => ?_
  refine (safe_tick.triple LogState.Later.exists h).bind fun os => ?_
  refine ((reopen_safe ap os).triple LogState.Later.exists h).bind fun _ => ?_
  exact triple_pure fun s s' hs henv => stable_sound LogState.Later.exists h s s' hs henv

/-- An appender is constructed for a definition of one of the two types. -/
theorem makeAppender_triple {a : LogAppenderDefine} (ha : a.type = 1 ∨ a.type = 2)
    (h : List (Lock × LockMode)) :
    Triple soundD h (fun s => s.Sound ∧ True) (makeAppender a) fun r s =>
      s.Sound ∧ ∃ ap, r = some ap ∧ ap < s.nextAppender := by
  have hsome : ∀ ap, Triple soundD h (fun s => s.Sound ∧ ap < s.nextAppender)
      (return some ap : LogProg _) fun r s => s.Sound ∧ ∃ ap, r = some ap ∧ ap < s.nextAppender := by
    refine fun ap => triple_pure fun s s' hs henv => ?_
    obtain ⟨hsound, hap⟩ := stable_sound LogState.Later.exists h s s' hs henv
    exact ⟨hsound, ap, rfl, hap⟩
  unfold makeAppender
  rcases ha with ha | ha
  · rw [if_pos ha]
    exact (newFileLogAppender_triple a.file h).bind hsome
  · rw [if_neg (by omega), if_pos ha]
    exact (newAppender_triple .stdoutLogAppender h).bind hsome

theorem configureAppender_completes (logger : LoggerPtr) {a : LogAppenderDefine}
    (ha : a.type = 1 ∨ a.type = 2) : Completes (configureAppender logger a) := by
  intro h
  have hmade : ∀ (r : Option AppenderPtr) {s s' : LogState}, s.Later s' →
      (∃ ap, r = some ap ∧ ap < s.nextAppender) → ∃ ap, r = some ap ∧ ap < s'.nextAppender :=
    fun _ _ _ hlater ⟨ap, hr, hap⟩ => ⟨ap, hr, hlater.exists hap⟩
  refine triple_lift_bindT (fun r => stable_sound (hmade r) h) (makeAppender_triple ha h) fun r => ?_
  cases r with
  | none => exact fun s ⟨_, ap, hr, _⟩ => absurd hr nofun
  | some ap =>
      have hstable := stable_sound (R := fun s => ap < s.nextAppender) LogState.Later.exists h
      have hadd : Triple soundD h (fun s => s.Sound ∧ ap < s.nextAppender)
          (liftM (addAppender logger ap) : LogProgT Unit).run fun x s => s.Sound ∧ x = .ok () := by
        refine triple_lift (fun x => stable_sound (fun _ => id) h) ?_
        exact (addAppender_triple h logger ap).conseq (fun _ => id) fun _ s hs => ⟨hs.1, rfl⟩
      have hset : Triple soundD h (fun s => s.Sound ∧ ap < s.nextAppender)
          (do
            if a.formatter ≠ "" ∧ !(LogFormatter.new a.formatter).m_error then
              appenderSetFormatter ap (some (LogFormatter.new a.formatter))
            addAppender logger ap : LogProgT Unit).run fun x s => s.Sound ∧ x = .ok () := by
        split
        · exact triple_lift_bindT (fun _ => hstable)
            ((appenderSetFormatter_safe ap _).triple LogState.Later.exists h) fun _ => hadd
        · exact hadd
      refine (triple_lift_bindT (fun _ => hstable)
        ((appenderSetLevel_safe ap a.level).triple LogState.Later.exists h) fun _ => hset).conseq
          (fun s hs => ?_) fun _ _ => id
      obtain ⟨hsound, ap', hr, hap⟩ := hs
      exact ⟨hsound, Option.some.inj hr ▸ hap⟩

/-- The logger of an entry that is not in the old set as it is. -/
theorem selectLogger_triple {old_value : LogDefineSet} {i : LogDefine} (hi : i ∉ old_value)
    (h : List (Lock × LockMode)) :
    Triple soundD h (fun s => s.Sound ∧ True) (selectLogger old_value i) fun r s =>
      s.Sound ∧ ∃ logger, r = some logger := by
  have hget : selectLogger old_value i = (do return some (← getLogger i.name)) := by
    unfold selectLogger SetIterator.find SetIterator.end_
    cases hfind : old_value.find? i.name with
    | none => rfl
    | some it =>
        have hne : it ≠ i := fun heq => hi (heq ▸ (KeyedSet.find?_eq_some.1 hfind).1)
        simp [hne]
  rw [hget]
  refine ((getLogger_safe i.name).triple (R := fun _ => True) (fun _ => id) h).bind fun p => ?_
  exact triple_pure fun s s' hs henv => ⟨(henv.1 hs.1).1, p, rfl⟩

theorem configureLogger_completes {old_value : LogDefineSet} {i : LogDefine} (hi : i ∉ old_value)
    (htyped : i.Typed) : Completes (configureLogger old_value i) := by
  intro h
  refine triple_lift_bindT (fun r => stable_sound (fun _ => id) h) (selectLogger_triple hi h)
    fun r => ?_
  cases r with
  | none => exact fun s ⟨_, logger, hr⟩ => absurd hr nofun
  | some logger =>
      have happenders : Completes (do
          liftM (clearAppenders logger)
          i.appenders.foldlM (fun _ a => configureAppender logger a) () : LogProgT Unit) :=
        completes_bind_lift (clearAppenders_safe logger) fun _ =>
          completes_foldlM fun a ha => configureAppender_completes logger (htyped a ha)
      have hall : Completes (do
          setLevel logger i.level
          if i.formatter ≠ "" then setFormatter logger i.formatter
          clearAppenders logger
          i.appenders.foldlM (fun _ a => configureAppender logger a) () : LogProgT Unit) := by
        refine completes_bind_lift (setLevel_safe logger i.level) fun _ => ?_
        dsimp only
        split
        · exact completes_bind_lift (setFormatter_safe logger i.formatter) fun _ => happenders
        · exact happenders
      exact (hall h).conseq (fun s hs => ⟨hs.1, trivial⟩) fun _ _ => id

theorem deleteLogger_safe (new_value : LogDefineSet) (i : LogDefine) :
    Safe (deleteLogger new_value i) := by
  unfold deleteLogger
  split
  · refine (getLogger_safe i.name).bind fun logger => ?_
    exact (setLevel_safe logger .cast100).bind fun _ => clearAppenders_safe logger
  · exact safe_pure ()

end Locked

end Ipmsg
