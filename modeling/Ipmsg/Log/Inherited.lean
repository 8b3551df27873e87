import Ipmsg.Lib.Run
import Ipmsg.Log.Listener
import Ipmsg.Log.LoggerFrame

set_option autoImplicit false

/-! # Inherited formatters

An appender without a formatter of its own is meant to use the one of its logger. `addAppender`
copies it if the appender's pointer is null, and `Logger::setFormatter` copies it if the appender's
flag is not set. An appender that is detached keeps the copy, so when it comes back, or goes to
another logger, the copy may be out of date. Formatters never change, so a formatter stands for the
pointer to it. -/

namespace Ipmsg
namespace LogState

/-! ## Runs -/

/-- One act of a run; a run ends where a null pointer is used. -/
def act (s : LogState) (a : Act) : Option LogState := (s.step a).toOption

theorem act_eq_some {s s' : LogState} {a : Act} : s.act a = some s' ↔ s.step a = .ok s' := by
  unfold act
  cases s.step a <;> simp [Except.toOption]

/-- The act attaches or detaches appenders or sets formatters: no appender is given the null
    pointer, and none is attached to a second logger. -/
def KeepsSole (s : LogState) : Act → Prop
  | .addAppender p ap => ∀ q, ap ∈ (s.logger q).m_appenders → q = p
  | .delAppender _ _ | .clearAppenders _ | .setFormatter _ _ | .setFormatterPtr _ _ => True
  | .appenderSetFormatter _ val => val ≠ none
  | _ => False

/-- The formatter an appender is given by the act. -/
def Act.given (ap : AppenderPtr) : Act → Option LogFormatter
  | .appenderSetFormatter i val => if i = ap then val else none
  | _ => none

/-- The formatter last given to an appender by `LogAppender::setFormatter`. -/
def lastGiven (ap : AppenderPtr) (hist : List Act) : Option LogFormatter :=
  (hist.filterMap (Act.given ap)).getLast?

theorem lastGiven_concat (ap : AppenderPtr) (hist : List Act) (a : Act) :
    lastGiven ap (hist ++ [a]) = (a.given ap).or (lastGiven ap hist) := by
  unfold lastGiven
  rw [List.filterMap_append, List.getLast?_append]
  cases h : a.given ap <;> simp [List.filterMap, h]

/-- No appender is attached yet, and none has been given a formatter. -/
structure Unattached (s : LogState) : Prop where
  appenders : ∀ p, (s.logger p).m_appenders = []
  hasFormatter : ∀ ap, (s.appender ap).m_hasFormatter = false

/-- Every attached appender without a formatter of its own uses the one of its logger. -/
def Inherits (s : LogState) : Prop :=
  ∀ p, ∀ ap ∈ (s.logger p).m_appenders, (s.appender ap).m_hasFormatter = false →
    (s.appender ap).m_formatter = (s.logger p).m_formatter

/-- Every appender with a formatter of its own uses the one it was given last. -/
def KeepsGiven (hist : List Act) (s : LogState) : Prop :=
  ∀ ap, (s.appender ap).m_hasFormatter = true →
    ∃ f, lastGiven ap hist = some f ∧ (s.appender ap).m_formatter = some f

/-- An appender without a formatter of its own is attached only while its pointer is null or already
    the one of the logger. -/
def AttachesCurrent (s : LogState) : Act → Prop
  | .addAppender p ap => (s.appender ap).m_hasFormatter = false →
      (s.appender ap).m_formatter = none ∨ (s.appender ap).m_formatter = (s.logger p).m_formatter
  | _ => True

/-! ## Formatters that were given -/

/-- An act that gives no appender a formatter leaves those that have one of their own alone. -/
theorem KeepsGiven.concat {hist : List Act} {s s' : LogState} {a : Act} (h : KeepsGiven hist s)
    (ha : ∀ ap, a.given ap = none)
    (hsame : ∀ ap, (s'.appender ap).m_hasFormatter = true →
      (s.appender ap).m_hasFormatter = true ∧
        ((s.appender ap).m_formatter ≠ none →
          (s'.appender ap).m_formatter = (s.appender ap).m_formatter)) :
    KeepsGiven (hist ++ [a]) s' := by
  intro ap hown
  obtain ⟨hown', hval⟩ := hsame ap hown
  obtain ⟨f, hf, hsome⟩ := h ap hown'
  refine ⟨f, ?_, (hval (by simp [hsome])).trans hsome⟩
  rw [lastGiven_concat, ha ap, Option.none_or, hf]

theorem setFormatterPtr_own (s : LogState) (p : LoggerPtr) (val : Option LogFormatter)
    (ap : AppenderPtr) :
    ((s.setFormatterPtr p val).appender ap).m_hasFormatter = (s.appender ap).m_hasFormatter ∧
      ((s.appender ap).m_hasFormatter = true →
        ((s.setFormatterPtr p val).appender ap).m_formatter = (s.appender ap).m_formatter) := by
  rw [setFormatterPtr_eq]
  dsimp only
  unfold LogAppender.inherit
  split_ifs <;> simp_all

/-- Every act keeps the formatters that were given. -/
theorem KeepsGiven.act {hist : List Act} {s s' : LogState} {a : Act} (h : KeepsGiven hist s)
    (hsole : s.KeepsSole a) (hact : s.act a = some s') : KeepsGiven (hist ++ [a]) s' := by
  have hptr : ∀ (b : Act), (∀ ap, b.given ap = none) → ∀ p val,
      KeepsGiven (hist ++ [b]) (s.setFormatterPtr p val) := by
    intro b hb p val
    refine h.concat hb fun ap hown => ?_
    obtain ⟨hflag, hval⟩ := s.setFormatterPtr_own p val ap
    rw [hflag] at hown
    exact ⟨hown, fun _ => hval hown⟩
  have hstep := act_eq_some.1 hact
  cases a with
  | addAppender p ap =>
      refine Except.ok.inj hstep ▸ h.concat (fun _ => rfl) fun i hown => ?_
      rw [addAppender_appender] at hown ⊢
      by_cases hap : i = ap
      · subst hap
        rw [Function.update_self] at hown ⊢
        refine ⟨hown, fun hsome => ?_⟩
        obtain ⟨f, hf⟩ := Option.ne_none_iff_exists'.1 hsome
        rw [hf, Option.some_or]
      · rw [Function.update_of_ne hap] at hown ⊢
        exact ⟨hown, fun _ => rfl⟩
  | delAppender p ap =>
      exact Except.ok.inj hstep ▸ h.concat (fun _ => rfl) fun _ hown => ⟨hown, fun _ => rfl⟩
  | clearAppenders p =>
      exact Except.ok.inj hstep ▸ h.concat (fun _ => rfl) fun _ hown => ⟨hown, fun _ => rfl⟩
  | setFormatterPtr p val => exact Except.ok.inj hstep ▸ hptr _ (fun _ => rfl) p val
  | setFormatter p val =>
      refine Except.ok.inj hstep ▸ ?_
      unfold LogState.setFormatter
      split
      · exact h.concat (fun _ => rfl) fun _ hown => ⟨hown, fun _ => rfl⟩
      · exact hptr _ (fun _ => rfl) p _
  | appenderSetFormatter ap val =>
      obtain rfl := Except.ok.inj hstep
      obtain ⟨f, rfl⟩ := Option.ne_none_iff_exists'.1 hsole
      intro i hown
      rw [lastGiven_concat]
      by_cases hap : i = ap
      · subst hap
        exact ⟨f, by simp [Act.given], by simp [modifyAppender, LogAppender.setFormatter]⟩
      · have hnot : Act.given i (.appenderSetFormatter ap (some f)) = none :=
          if_neg fun heq => hap heq.symm
        change (Function.update s.appender ap _ i).m_hasFormatter = true at hown
        show ∃ g, _ ∧ (Function.update s.appender ap _ i).m_formatter = some g
        rw [Function.update_of_ne hap] at hown ⊢
        rw [hnot, Option.none_or]
        exact h i hown
  | _ => exact hsole.elim

/-! ## The invariant -/

/-- No appender is attached to two loggers, and those without a formatter of their own inherit. -/
structure Inheriting (s : LogState) : Prop where
  sole : ∀ p q ap, ap ∈ (s.logger p).m_appenders → ap ∈ (s.logger q).m_appenders → p = q
  inherits : s.Inherits

theorem Unattached.inheriting {s : LogState} (h : s.Unattached) : s.Inheriting := by
  have hnot : ∀ p ap, ap ∉ (s.logger p).m_appenders := by
    intro p ap hap
    rw [h.appenders p] at hap
    exact List.not_mem_nil hap
  exact ⟨fun p _ ap hp => absurd hp (hnot p ap), fun p ap hap => absurd hap (hnot p ap)⟩

theorem Unattached.keepsGiven {s : LogState} (h : s.Unattached) : KeepsGiven [] s := by
  intro ap hflag
  exact absurd ((h.hasFormatter ap).symm.trans hflag) (by simp)

section
variable {s : LogState} (h : s.Inheriting)
include h

/-- Detaching appenders keeps the invariant. -/
theorem Inheriting.detach (p : LoggerPtr) {f : List AppenderPtr → List AppenderPtr}
    (hf : ∀ l, ∀ ap ∈ f l, ap ∈ l) :
    (s.modifyLogger p fun l => { l with m_appenders := f l.m_appenders }).Inheriting := by
  have hlogger : ∀ q, ((s.modifyLogger p fun l =>
      { l with m_appenders := f l.m_appenders }).logger q).m_formatter = (s.logger q).m_formatter ∧
      ∀ ap ∈ ((s.modifyLogger p fun l =>
        { l with m_appenders := f l.m_appenders }).logger q).m_appenders,
        ap ∈ (s.logger q).m_appenders := by
    intro q
    simp only [modifyLogger]
    by_cases hq : q = p
    · subst hq
      rw [Function.update_self]
      exact ⟨rfl, hf _⟩
    · rw [Function.update_of_ne hq]
      exact ⟨rfl, fun ap => id⟩
  constructor
  · exact fun q r ap hq hr => h.sole q r ap ((hlogger q).2 ap hq) ((hlogger r).2 ap hr)
  · intro q ap hap hno
    rw [(hlogger q).1]
    exact h.inherits q ap ((hlogger q).2 ap hap) hno

/-- A new formatter of a logger reaches the appenders that are attached to it, and no others. -/
theorem Inheriting.setFormatterPtr (p : LoggerPtr) (val : Option LogFormatter) :
    (s.setFormatterPtr p val).Inheriting := by
  have happ : ∀ q, ((s.setFormatterPtr p val).logger q).m_appenders =
      (s.logger q).m_appenders := by
    intro q
    rw [setFormatterPtr_eq]
    by_cases hq : q = p
    · subst hq
      simp
    · simp [Function.update_of_ne hq]
  constructor
  · intro q r ap hq hr
    rw [happ] at hq hr
    exact h.sole q r ap hq hr
  · intro q ap hap hno
    rw [happ] at hap
    rw [(s.setFormatterPtr_own p val ap).1] at hno
    rw [setFormatterPtr_eq]
    dsimp only
    by_cases hq : q = p
    · subst hq
      simp [hap, LogAppender.inherit, hno]
    · -- the appender is attached to another logger only
      have hother : ap ∉ (s.logger p).m_appenders := fun hp => hq (h.sole q p ap hap hp)
      rw [if_neg hother, Function.update_of_ne hq]
      exact h.inherits q ap hap hno

/-- An appender that is up to date is attached. -/
theorem Inheriting.addAppender {p : LoggerPtr} {ap : AppenderPtr}
    (hsole : s.KeepsSole (.addAppender p ap)) (hcurrent : s.AttachesCurrent (.addAppender p ap)) :
    (s.addAppender p ap).Inheriting := by
  have hmem : ∀ q i, i ∈ ((s.addAppender p ap).logger q).m_appenders →
      i ∈ (s.logger q).m_appenders ∨ q = p ∧ i = ap := by
    intro q i hi
    rw [addAppender_logger] at hi
    by_cases hq : q = p
    · subst hq
      rw [Function.update_self] at hi
      exact (List.mem_append.1 hi).imp_right fun hap => ⟨rfl, List.mem_singleton.1 hap⟩
    · rw [Function.update_of_ne hq] at hi
      exact Or.inl hi
  have hlogger : ∀ q, ((s.addAppender p ap).logger q).m_formatter =
      (s.logger q).m_formatter := by
    intro q
    rw [addAppender_logger]
    by_cases hq : q = p
    · subst hq
      simp
    · simp [Function.update_of_ne hq]
  constructor
  · intro q r i hq hr
    rcases hmem q i hq with hq' | ⟨hqp, rfl⟩ <;> rcases hmem r i hr with hr' | ⟨hrp, hrap⟩
    · exact h.sole q r i hq' hr'
    · exact hrp ▸ hsole q (hrap ▸ hq')
    · exact hqp ▸ (hsole r hr').symm
    · exact hqp.trans hrp.symm
  · intro q i hi hno
    rw [hlogger]
    by_cases hap : i = ap
    · subst hap
      rw [addAppender_appender, Function.update_self] at hno ⊢
      -- it is attached to `p`, and to no other logger
      obtain rfl : q = p := (hmem q i hi).elim (hsole q) And.left
      rcases hcurrent hno with hnone | hsame
      · rw [hnone, Option.none_or]
      · rw [hsame, Option.or_self]
    · have hold := (hmem q i hi).resolve_right fun hnew => hap hnew.2
      rw [addAppender_appender, Function.update_of_ne hap] at hno ⊢
      exact h.inherits q i hold hno

/-- An act in a run keeps the invariant, if an appender it attaches is up to date. -/
theorem Inheriting.act {s' : LogState} {a : Act} (hsole : s.KeepsSole a)
    (hcurrent : s.AttachesCurrent a) (hact : s.act a = some s') : s'.Inheriting := by
  have hstep := act_eq_some.1 hact
  cases a with
  | addAppender p ap => exact Except.ok.inj hstep ▸ h.addAppender hsole hcurrent
  | delAppender p ap =>
      exact Except.ok.inj hstep ▸ h.detach p (f := fun l => l.erase ap)
        fun _ _ => List.mem_of_mem_erase
  | clearAppenders p =>
      exact Except.ok.inj hstep ▸ h.detach p (f := fun _ => [])
        fun _ _ hap => absurd hap List.not_mem_nil
  | setFormatterPtr p val => exact Except.ok.inj hstep ▸ h.setFormatterPtr p val
  | setFormatter p val =>
      refine Except.ok.inj hstep ▸ ?_
      unfold LogState.setFormatter
      split
      · exact h
      · exact h.setFormatterPtr p _
  | appenderSetFormatter ap val =>
      obtain rfl := Except.ok.inj hstep
      obtain ⟨f, rfl⟩ := Option.ne_none_iff_exists'.1 hsole
      refine ⟨h.sole, fun q i hi hno => ?_⟩
      change (Function.update s.appender ap _ i).m_hasFormatter = false at hno
      show (Function.update s.appender ap _ i).m_formatter = _
      by_cases hap : i = ap
      · rw [hap, Function.update_self] at hno
        exact absurd hno (by simp [LogAppender.setFormatter])
      · rw [Function.update_of_ne hap] at hno ⊢
        exact h.inherits q i hi hno
  | _ => exact hsole.elim

end

/-- An appender that is attached with an old formatter keeps it. -/
theorem not_inherits {s s' : LogState} {a : Act} (h : ¬ s.AttachesCurrent a)
    (hact : s.act a = some s') : ¬ s'.Inherits := by
  cases a with
  | addAppender p ap =>
      obtain rfl := Except.ok.inj (act_eq_some.1 hact)
      intro hall
      refine h fun hno => ?_
      by_contra hstale
      obtain ⟨hsome, hne⟩ := not_or.1 hstale
      have hcurrent := hall p ap (by simp [addAppender_logger])
        (by simp [addAppender_appender, hno])
      rw [addAppender_logger, addAppender_appender, Function.update_self,
        Function.update_self] at hcurrent
      obtain ⟨f, hf⟩ := Option.ne_none_iff_exists'.1 hsome
      rw [hf, Option.some_or] at hcurrent
      exact hne (hf.trans hcurrent)
  | _ => exact absurd trivial h

/-! ## The result -/

/-- **Exactly the appenders that come back with an old formatter break the inheritance.** In a run
    that attaches no appender to two loggers, appenders with a formatter of their own always keep
    it. The attached ones without use that of their logger all along exactly if each is attached
    only while it has no formatter or already that of the logger. -/
theorem inherits_iff {s t : LogState} (hs : s.Unattached) {as : List Act}
    (hsole : Along LogState.act KeepsSole s as) (hrun : exec LogState.act s as = some t) :
    (∀ before u, before <+: as → exec LogState.act s before = some u → KeepsGiven before u) ∧
    ((∀ before u, before <+: as → exec LogState.act s before = some u → u.Inherits) ↔
      Along LogState.act AttachesCurrent s as) := by
  constructor
  · have hiff := forall_reached_iff_along (D := KeepsSole) (G := fun _ _ => True) KeepsGiven
      KeepsGiven (fun _ _ => id) (fun _ _ _ _ h hsole _ => h.act hsole)
      (fun _ _ _ _ _ _ hno => absurd trivial hno) [] hs.keepsGiven hsole hrun
    exact hiff.2 (along_of_forall (fun _ _ => trivial) s)
  · exact forall_reached_iff_along (D := KeepsSole) (G := AttachesCurrent)
      (fun _ => Inheriting) (fun _ => Inherits) (fun _ _ h => h.inherits)
      (fun _ _ _ _ h => h.act) (fun _ _ _ _ _ _ => not_inherits) [] hs.inheriting hsole hrun

/-- Loggers and appenders as they are constructed. -/
def constructed : LogState where
  m_loggers := ∅
  m_root := "root"
  logger _ := {}
  appender _ := { cls := .stdoutLogAppender }
  nextAppender := 1
  os _ := { time := 0, opens := true, writes := true }
  tick := 0
  deliveries := []

theorem constructed_unattached : constructed.Unattached := ⟨fun _ => rfl, fun _ => rfl⟩

/-- An appender follows its logger. -/
theorem inherits_iff_sample : ((constructed.addAppender "a" 0).setFormatterPtr "a"
    (some (LogFormatter.new "%m"))).Inherits := by
  have hsole : Along LogState.act KeepsSole constructed
      [.addAppender "a" 0, .setFormatterPtr "a" (some (LogFormatter.new "%m"))] :=
    ⟨fun q hq => absurd hq List.not_mem_nil, fun _ _ => ⟨trivial, fun _ _ => trivial⟩⟩
  have hcurrent : Along LogState.act AttachesCurrent constructed
      [.addAppender "a" 0, .setFormatterPtr "a" (some (LogFormatter.new "%m"))] :=
    ⟨fun _ => Or.inl rfl, fun _ _ => ⟨trivial, fun _ _ => trivial⟩⟩
  exact (inherits_iff constructed_unattached hsole rfl).2.2 hcurrent _ _ (List.prefix_refl _) rfl

/-- The formatter of the logger changes while an appender is detached. -/
theorem reattached_stale : ∃ s t as, s.Unattached ∧ Along LogState.act KeepsSole s as ∧
    exec LogState.act s as = some t ∧ ¬ t.Inherits := by
  refine ⟨constructed, _, [.addAppender "a" 0, .delAppender "a" 0,
    .setFormatterPtr "a" (some (LogFormatter.new "%m")), .addAppender "a" 0],
    constructed_unattached, ?_, rfl, fun h => ?_⟩
  · -- it is attached to no logger when it comes back
    have hnowhere : ∀ q, ((((constructed.addAppender "a" 0).delAppender "a" 0).setFormatterPtr "a"
        (some (LogFormatter.new "%m"))).logger q).m_appenders = [] := by
      intro q
      by_cases hq : q = "a"
      · subst hq
        rfl
      · simp [constructed, addAppender_logger, delAppender, modifyLogger, setFormatterPtr_eq,
          Function.update_of_ne hq]
    refine ⟨fun q hq => absurd hq List.not_mem_nil, fun s₁ h₁ => ⟨trivial, fun s₂ h₂ => ⟨trivial,
      fun s₃ h₃ => ⟨fun q hq => ?_, fun _ _ => trivial⟩⟩⟩⟩
    obtain rfl := Option.some.inj h₁
    obtain rfl := Option.some.inj h₂
    obtain rfl := Option.some.inj h₃
    rw [hnowhere q] at hq
    exact absurd hq List.not_mem_nil
  · have hsame := h "a" 0 (by decide) rfl
    exact absurd (congrArg (Option.map LogFormatter.m_pattern) hsame) (by decide)

end LogState
end Ipmsg
