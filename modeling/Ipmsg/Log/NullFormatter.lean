import Ipmsg.Log.Inherited
import Mathlib.Data.Set.Insert

set_option autoImplicit false

/-! # Null formatters

A logger always has a formatter, and gives it to an appender that has none when it is attached. So
the formatter of an attached appender is null only after `LogAppender::setFormatter` was called with
the null pointer, until the appender is attached again or either it or its logger gets a new one. A
log call that writes to the appender in between goes through the null pointer. -/

namespace Ipmsg
namespace LogState

/-! ## What a log call writes to -/

/-- The appenders of a logger that let events of the level through. -/
def letThrough (s : LogState) (level : Level) (p : LoggerPtr) : List AppenderPtr :=
  (s.logger p).m_appenders.filter fun i => (s.appender i).m_level.toNat ≤ level.toNat

/-- The appenders `Logger::log` writes to, which are those of the root logger if the logger has
    none. -/
def writesTo (s : LogState) (p : LoggerPtr) (level : Level) : List AppenderPtr :=
  if (s.logger p).m_level.toNat ≤ level.toNat then
    if (s.logger p).m_appenders ≠ [] then s.letThrough level p
    else match (s.logger p).m_root with
      | some root =>
          if (s.logger root).m_level.toNat ≤ level.toNat then s.letThrough level root else []
      | none => []
  else []

/-- Root loggers are in the manager and have no root of their own. -/
def RootsEnd (s : LogState) : Prop :=
  ∀ p root, (s.logger p).m_root = some root →
    root ∈ s.m_loggers ∧ (s.logger root).m_root = none

/-- The loop over the appenders of one logger. -/
theorem logAppenders_formatter_iff (s : LogState) (self p : LoggerPtr) (level : Level)
    (event : String) :
    logAppenders self level event (s.logger p).m_appenders s = .error .formatter ↔
      ∃ i ∈ s.letThrough level p, (s.appender i).m_formatter = none := by
  have hiff : (∃ i ∈ s.letThrough level p, (s.appender i).m_formatter = none) ↔
      ∃ i ∈ (s.logger p).m_appenders, ¬ (s.appender i).view.Accepts level := by
    simp [letThrough, AppenderView.Accepts, LogAppender.view, and_assoc]
  rw [hiff]
  rcases logAppenders_spec self level event (s.logger p).m_appenders s with
    ⟨hall, s', hloop, -⟩ | ⟨hno, hloop⟩
  · rw [hloop]
    refine iff_of_false (by simp) ?_
    rintro ⟨i, hi, hnot⟩
    exact hnot (hall i hi)
  · exact iff_of_true hloop hno

theorem writesTo_eq (s : LogState) (p : LoggerPtr) (level : Level) :
    s.writesTo p level = (s.logsThrough p level).elim [] (s.letThrough level) := by
  unfold writesTo logsThrough
  split
  · split
    · rfl
    · cases (s.logger p).m_root with
      | none => rfl
      | some root =>
          dsimp only
          split <;> rfl
  · rfl

/-- A log call goes through a null formatter if an appender it writes to has none. -/
theorem log_formatter_iff {s : LogState} (hroots : s.RootsEnd) (p : LoggerPtr) (level : Level)
    (event : String) :
    s.log p level event = .error .formatter ↔
      ∃ i ∈ s.writesTo p level, (s.appender i).m_formatter = none := by
  rw [log_eq (hroots p), writesTo_eq]
  cases s.logsThrough p level with
  | none => simp
  | some q => exact logAppenders_formatter_iff s q q level event

/-! ## Appenders left without a formatter -/

/-- The appenders whose last formatter was the null pointer, after one more act: attaching an
    appender and setting the formatter of its logger also give it one. -/
def nulled (s : LogState) (c : Set AppenderPtr) : Act → Set AppenderPtr
  | .appenderSetFormatter ap none => insert ap c
  | .appenderSetFormatter ap (some _) => c \ {ap}
  | .addAppender _ ap => c \ {ap}
  | .setFormatter p val =>
      if (LogFormatter.new val).m_error then c else c \ {i | i ∈ (s.logger p).m_appenders}
  | _ => c

/-- An act together with the appenders it leaves without a formatter. -/
def trackedAct (c : LogState × Set AppenderPtr) (a : Act) : Option (LogState × Set AppenderPtr) :=
  (c.1.act a).map fun s' => (s', c.1.nulled c.2 a)

/-- The act attaches or detaches an appender, sets a formatter or logs. -/
def Act.Formats : Act → Prop
  | .addAppender _ _ | .delAppender _ _ | .clearAppenders _ | .setFormatter _ _
  | .appenderSetFormatter _ _ | .log _ _ _ => True
  | _ => False

/-- No appender that the call writes to was left without a formatter. -/
def WritesFormatted (c : LogState × Set AppenderPtr) : Act → Prop
  | .log p level _ => ∀ i ∈ c.1.writesTo p level, i ∉ c.2
  | _ => True

/-- Every logger has a formatter, and so have all attached appenders but those in `c`. -/
structure Supplied (s : LogState) (c : Set AppenderPtr) : Prop where
  roots : s.RootsEnd
  formatter : ∀ p, (s.logger p).m_formatter ≠ none
  own : ∀ ap, (s.appender ap).m_hasFormatter = true → (s.appender ap).m_formatter ≠ none
  attached : ∀ p, ∀ ap ∈ (s.logger p).m_appenders, (s.appender ap).m_formatter = none ↔ ap ∈ c

/-- No act of these runs changes `m_root` or the manager's loggers. -/
theorem RootsEnd.frame {s s' : LogState} (h : s.RootsEnd) (hm : s'.m_loggers = s.m_loggers)
    (hroot : ∀ q, (s'.logger q).m_root = (s.logger q).m_root) : s'.RootsEnd := by
  intro p root hp
  rw [hroot] at hp
  rw [hroot, hm]
  exact h p root hp

section
variable {s : LogState} {c : Set AppenderPtr} (h : s.Supplied c)
include h

theorem Supplied.same {s' : LogState} (hsame : SameConfig s s') : s'.Supplied c := by
  have hformatter : ∀ ap, (s'.appender ap).m_formatter = (s.appender ap).m_formatter :=
    fun ap => congrArg AppenderView.formatter (hsame.view ap)
  have hflag : ∀ ap, (s'.appender ap).m_hasFormatter = (s.appender ap).m_hasFormatter :=
    fun ap => congrArg AppenderView.hasFormatter (hsame.view ap)
  refine ⟨h.roots.frame hsame.m_loggers fun q => by rw [hsame.logger], ?_, ?_, ?_⟩
  · rw [hsame.logger]
    exact h.formatter
  · intro ap hown
    rw [hflag] at hown
    rw [hformatter]
    exact h.own ap hown
  · intro p ap hap
    rw [hsame.logger] at hap
    rw [hformatter]
    exact h.attached p ap hap

/-- Detaching appenders. -/
theorem Supplied.detach (p : LoggerPtr) {f : List AppenderPtr → List AppenderPtr}
    (hf : ∀ l, ∀ ap ∈ f l, ap ∈ l) :
    (s.modifyLogger p fun l => { l with m_appenders := f l.m_appenders }).Supplied c := by
  have hlogger : ∀ q, ∃ l, (s.modifyLogger p fun l =>
      { l with m_appenders := f l.m_appenders }).logger q =
        { s.logger q with m_appenders := l } ∧ ∀ ap ∈ l, ap ∈ (s.logger q).m_appenders := by
    intro q
    simp only [modifyLogger]
    by_cases hq : q = p
    · subst hq
      exact ⟨_, Function.update_self .., hf _⟩
    · exact ⟨_, Function.update_of_ne hq .., fun ap => id⟩
  refine ⟨h.roots.frame rfl fun q => ?_, fun q => ?_, h.own, fun q ap hap => ?_⟩
  · obtain ⟨l, hl, -⟩ := hlogger q
    rw [hl]
  · obtain ⟨l, hl, -⟩ := hlogger q
    rw [hl]
    exact h.formatter q
  · obtain ⟨l, hl, hmem⟩ := hlogger q
    rw [hl] at hap
    exact h.attached q ap (hmem ap hap)

/-- An appender that is attached has a formatter afterwards. -/
theorem Supplied.addAppender (p : LoggerPtr) (ap : AppenderPtr) :
    (s.addAppender p ap).Supplied (c \ {ap}) := by
  have hlogger : ∀ q, ∃ l, (s.addAppender p ap).logger q = { s.logger q with m_appenders := l } ∧
      ∀ i ∈ l, i ≠ ap → i ∈ (s.logger q).m_appenders := by
    intro q
    rw [addAppender_logger]
    by_cases hq : q = p
    · subst hq
      refine ⟨_, Function.update_self .., fun i hi hne => ?_⟩
      exact (List.mem_append.1 hi).resolve_right fun hap => hne (List.mem_singleton.1 hap)
    · exact ⟨_, Function.update_of_ne hq .., fun i hi _ => hi⟩
  have hself : ((s.addAppender p ap).appender ap).m_formatter ≠ none := by
    rw [addAppender_appender, Function.update_self]
    exact fun hnone => h.formatter p (Option.or_eq_none_iff.1 hnone).2
  have hother : ∀ i, i ≠ ap → (s.addAppender p ap).appender i = s.appender i := by
    intro i hi
    rw [addAppender_appender, Function.update_of_ne hi]
  refine ⟨h.roots.frame ?_ fun q => ?_, fun q => ?_, fun i hown => ?_, fun q i hi => ?_⟩
  · unfold LogState.addAppender
    split <;> rfl
  · obtain ⟨l, hl, -⟩ := hlogger q
    rw [hl]
  · obtain ⟨l, hl, -⟩ := hlogger q
    rw [hl]
    exact h.formatter q
  · by_cases hap : i = ap
    · exact hap ▸ hself
    · rw [hother i hap] at hown ⊢
      exact h.own i hown
  · by_cases hap : i = ap
    · subst hap
      exact iff_of_false hself fun hi => hi.2 rfl
    · obtain ⟨l, hl, hmem⟩ := hlogger q
      rw [hl] at hi
      rw [hother i hap, h.attached q i (hmem i hi hap)]
      exact ⟨fun hc => ⟨hc, hap⟩, And.left⟩

/-- A formatter of a logger reaches all its appenders without one. -/
theorem Supplied.setFormatterPtr (p : LoggerPtr) (f : LogFormatter) :
    (s.setFormatterPtr p (some f)).Supplied (c \ {i | i ∈ (s.logger p).m_appenders}) := by
  have hlogger : ∀ q, ∃ g, (s.setFormatterPtr p (some f)).logger q =
      { s.logger q with m_formatter := g } ∧ g ≠ none := by
    intro q
    rw [setFormatterPtr_eq]
    dsimp only
    by_cases hq : q = p
    · subst hq
      exact ⟨_, Function.update_self .., by simp⟩
    · exact ⟨_, Function.update_of_ne hq .., h.formatter q⟩
  have hin : ∀ i ∈ (s.logger p).m_appenders,
      ((s.setFormatterPtr p (some f)).appender i).m_formatter ≠ none := by
    intro i hi
    rw [setFormatterPtr_eq]
    dsimp only
    rw [if_pos hi, LogAppender.inherit]
    split
    · simp
    · next hown => exact h.own i (by simpa using hown)
  have hout : ∀ i ∉ (s.logger p).m_appenders,
      (s.setFormatterPtr p (some f)).appender i = s.appender i := by
    intro i hi
    rw [setFormatterPtr_eq]
    exact if_neg hi
  refine ⟨h.roots.frame ?_ fun q => ?_, fun q => ?_, fun i hown => ?_, fun q i hi => ?_⟩
  · rw [setFormatterPtr_eq]
  · obtain ⟨g, hg, -⟩ := hlogger q
    rw [hg]
  · obtain ⟨g, hg, hsome⟩ := hlogger q
    rw [hg]
    exact hsome
  · by_cases hp : i ∈ (s.logger p).m_appenders
    · exact hin i hp
    · rw [hout i hp] at hown ⊢
      exact h.own i hown
  · by_cases hp : i ∈ (s.logger p).m_appenders
    · exact iff_of_false (hin i hp) fun hc => hc.2 hp
    · obtain ⟨g, hg, -⟩ := hlogger q
      rw [hg] at hi
      rw [hout i hp, h.attached q i hi]
      exact ⟨fun hc => ⟨hc, hp⟩, And.left⟩

/-- A formatter, or the null pointer, for one appender. -/
theorem Supplied.appenderSetFormatter (ap : AppenderPtr) (val : Option LogFormatter) :
    (s.modifyAppender ap (LogAppender.setFormatter val)).Supplied
      (s.nulled c (.appenderSetFormatter ap val)) := by
  have hself : (s.modifyAppender ap (LogAppender.setFormatter val)).appender ap =
      (s.appender ap).setFormatter val := Function.update_self ..
  have hother : ∀ i, i ≠ ap →
      (s.modifyAppender ap (LogAppender.setFormatter val)).appender i = s.appender i :=
    fun i hi => Function.update_of_ne hi ..
  refine ⟨h.roots, h.formatter, fun i hown => ?_, fun q i hi => ?_⟩
  · by_cases hap : i = ap
    · rw [hap, hself] at hown ⊢
      exact Option.isSome_iff_ne_none.1 hown
    · rw [hother i hap] at hown ⊢
      exact h.own i hown
  · by_cases hap : i = ap
    · subst hap
      rw [hself]
      cases val <;> simp [nulled, LogAppender.setFormatter]
    · rw [hother i hap, h.attached q i hi]
      cases val <;> simp [nulled, hap]

/-- Every act of these runs keeps track of the appenders without a formatter. -/
theorem Supplied.act {s' : LogState} {a : Act} (ha : a.Formats) (hact : s.act a = some s') :
    s'.Supplied (s.nulled c a) := by
  have hstep := act_eq_some.1 hact
  cases a with
  | addAppender p ap => exact Except.ok.inj hstep ▸ h.addAppender p ap
  | delAppender p ap =>
      exact Except.ok.inj hstep ▸ h.detach p (f := fun l => l.erase ap)
        fun _ _ => List.mem_of_mem_erase
  | clearAppenders p =>
      exact Except.ok.inj hstep ▸ h.detach p (f := fun _ => [])
        fun _ _ hap => absurd hap List.not_mem_nil
  | setFormatter p val =>
      refine Except.ok.inj hstep ▸ ?_
      show (if (LogFormatter.new val).m_error then s else s.setFormatterPtr p _).Supplied
        (if (LogFormatter.new val).m_error then c else c \ {i | i ∈ (s.logger p).m_appenders})
      split_ifs
      · exact h
      · exact h.setFormatterPtr p _
  | appenderSetFormatter ap val => exact Except.ok.inj hstep ▸ h.appenderSetFormatter ap val
  | log p level event => exact h.same (logFuel_same _ hstep)
  | _ => exact ha.elim

/-- Only the appenders left without a formatter make a log call go wrong. -/
theorem Supplied.step_formatter_iff {a : Act} (ha : a.Formats) :
    s.step a ≠ .error .formatter ↔ WritesFormatted (s, c) a := by
  cases a with
  | log p level event =>
      have hattached : ∀ i ∈ s.writesTo p level, (s.appender i).m_formatter = none ↔ i ∈ c := by
        intro i hi
        have hmem : ∃ q, i ∈ s.letThrough level q := by
          unfold writesTo at hi
          split_ifs at hi
          · exact ⟨p, hi⟩
          · split at hi
            · next root _ =>
                split_ifs at hi
                · exact ⟨root, hi⟩
                · exact absurd hi List.not_mem_nil
            · exact absurd hi List.not_mem_nil
          · exact absurd hi List.not_mem_nil
        obtain ⟨q, hq⟩ := hmem
        exact h.attached q i (List.mem_of_mem_filter hq)
      have hiff := (log_formatter_iff h.roots p level event).not
      rw [not_exists] at hiff
      refine hiff.trans (forall_congr' fun i => ?_)
      rw [not_and]
      exact forall_congr' fun hi => not_congr (hattached i hi)
  | _ => first | exact ha.elim | exact iff_of_true (by simp [LogState.step]) trivial

end

/-! ## The result -/

/-- **Exactly the appenders left without a formatter are written to through a null pointer.** In
    every run no log call goes through a null formatter exactly if no log call writes to an appender
    that was given the null pointer and neither attached again nor given a formatter since. -/
theorem neverNull_iff {s : LogState} (hs : s.Supplied ∅) {as : List Act}
    (has : ∀ a ∈ as, a.Formats) :
    Along LogState.act (fun u a => u.step a ≠ .error .formatter) s as ↔
      Along trackedAct WritesFormatted (s, ∅) as := by
  have hpart : Along LogState.act (fun u a => u.step a ≠ .error .formatter) s as ↔
      Along trackedAct (fun c a => c.1.step a ≠ .error .formatter) (s, ∅) as := by
    refine along_map (f := Prod.fst) (fun c a => ?_) (s, ∅)
    unfold trackedAct
    cases c.1.act a <;> rfl
  rw [hpart]
  refine along_congr (D := fun _ a => a.Formats) (fun c => c.1.Supplied c.2) ?_ ?_ hs ?_
  · rintro c a c' hc ha hstep
    obtain ⟨s', hs', rfl⟩ := Option.map_eq_some_iff.1 hstep
    exact hc.act ha hs'
  · exact fun c a hc ha => hc.step_formatter_iff ha
  · exact along_of_mem has _

theorem constructed_supplied : constructed.Supplied ∅ := by
  refine ⟨?_, ?_, ?_, ?_⟩
  · exact fun p root hroot => absurd hroot (by simp [constructed])
  · exact fun p => by simp [constructed]
  · exact fun ap hown => absurd hown (by simp [constructed])
  · exact fun p ap hap => absurd hap List.not_mem_nil

/-- An appender that is given the null pointer and attached again. -/
theorem neverNull_iff_sample : Along LogState.act (fun u a => u.step a ≠ .error .formatter)
    constructed [.addAppender "a" 0, .appenderSetFormatter 0 none, .addAppender "a" 0,
      .log "a" .info "hello"] := by
  refine (neverNull_iff constructed_supplied ?_).2 ⟨trivial, fun c₁ h₁ => ⟨trivial, fun c₂ h₂ =>
    ⟨trivial, fun c₃ h₃ => ⟨fun i _ hi => ?_, fun _ _ => trivial⟩⟩⟩⟩
  · intro a ha
    simp only [List.mem_cons, List.not_mem_nil, or_false] at ha
    rcases ha with rfl | rfl | rfl | rfl <;> trivial
  · obtain rfl := Option.some.inj h₁
    obtain rfl := Option.some.inj h₂
    obtain rfl := Option.some.inj h₃
    rcases hi.1 with rfl | hi
    · exact hi.2 rfl
    · exact hi.1

/-- An attached appender is given the null pointer, and its logger logs. -/
theorem log_derefsNull : ∃ u, exec LogState.act constructed
      [.addAppender "a" 0, .appenderSetFormatter 0 none] = some u ∧
    u.step (.log "a" .info "hello") = .error .formatter :=
  ⟨_, rfl, rfl⟩

end LogState
end Ipmsg
