import Ipmsg.Log.NullFormatter
import Ipmsg.Log.Reachable

set_option autoImplicit false

/-! # Who receives an event

`Logger::log` hands an event to every appender of the logger, or, if the logger has none, passes it
on through `m_root`. Every registered logger but the root logger points to the root logger, which
points nowhere, so there is at most one such step. An appender that is attached has been given a
formatter, so a log call completes. -/

namespace Ipmsg

namespace LogState

/-! ## The invariant -/

/-- Registered loggers other than the root logger point to it, and every registered logger and every
    appender attached to one has a formatter. -/
structure Routed (s : LogState) : Prop where
  inv : s.Inv
  to_root : ∀ p ∈ s.m_loggers, p ≠ s.m_root → (s.logger p).m_root = some s.m_root
  formatter : ∀ p ∈ s.m_loggers, (s.logger p).m_formatter ≠ none
  attached : ∀ p ∈ s.m_loggers, ∀ i ∈ (s.logger p).m_appenders, (s.appender i).m_formatter ≠ none

/-- The acts that decide which appenders an event reaches, and log calls. -/
def Act.Routes : Act → Prop
  | .getLogger _ | .setLevel _ _ | .newStdoutLogAppender | .newFileLogAppender _
  | .addAppender _ _ | .delAppender _ _ | .clearAppenders _ | .appenderSetLevel _ _
  | .log _ _ _ => True
  | _ => False

theorem Routed.new (os : ℕ → Os) : (LogState.new os).Routed := by
  have hroot : ∀ p ∈ (LogState.new os).m_loggers, p = "root" := fun p hp => List.mem_singleton.1 hp
  refine ⟨.new os, fun p hp hne => absurd (hroot p hp) hne, fun p hp => ?_, fun p hp i hi => ?_⟩
  · obtain rfl := hroot p hp
    exact nofun
  · obtain rfl := hroot p hp
    obtain rfl : i = 0 := List.mem_singleton.1 hi
    exact nofun

section
variable {s : LogState} (h : s.Routed)
include h

/-- An act that changes no `m_root` and no formatter of a logger, and attaches only appenders that
    have a formatter. -/
theorem Routed.keep {s' : LogState} (hinv : s'.Inv) (hroot : s'.m_root = s.m_root)
    (hlogger : ∀ p ∈ s'.m_loggers, s'.logger p = { m_root := some s.m_root } ∨
      p ∈ s.m_loggers ∧ (s'.logger p).m_root = (s.logger p).m_root ∧
        (s'.logger p).m_formatter = (s.logger p).m_formatter ∧
        ∀ i ∈ (s'.logger p).m_appenders, (s'.appender i).m_formatter ≠ none) : s'.Routed := by
  refine ⟨hinv, fun p hp hne => ?_, fun p hp => ?_, fun p hp i hi => ?_⟩
  · rw [hroot] at hne ⊢
    rcases hlogger p hp with heq | ⟨hin, heq, -⟩
    · rw [heq]
    · rw [heq, h.to_root p hin hne]
  · rcases hlogger p hp with heq | ⟨hin, -, heq, -⟩
    · rw [heq]
      exact Option.some_ne_none _
    · rw [heq]
      exact h.formatter p hin
  · rcases hlogger p hp with heq | ⟨-, -, -, hatt⟩
    · rw [heq] at hi
      exact absurd hi List.not_mem_nil
    · exact hatt i hi

theorem Routed.same {s' : LogState} (hsame : SameConfig s s') : s'.Routed := by
  refine h.keep (h.inv.same hsame) hsame.m_root fun p hp => Or.inr ?_
  rw [hsame.m_loggers] at hp
  rw [hsame.logger]
  refine ⟨hp, rfl, rfl, fun i hi => ?_⟩
  rw [show (s'.appender i).m_formatter = _ from congrArg AppenderView.formatter (hsame.view i)]
  exact h.attached p hp i hi

theorem Routed.getLogger (name : String) : (s.getLogger name).2.Routed := by
  refine h.keep (h.inv.getLogger name) ?_ fun p hp => ?_
  · unfold LogState.getLogger
    split <;> rfl
  · by_cases hname : name ∈ s.m_loggers
    · rw [LogState.getLogger, if_pos hname] at hp ⊢
      exact Or.inr ⟨hp, rfl, rfl, h.attached p hp⟩
    · rw [LogState.getLogger, if_neg hname] at hp ⊢
      by_cases hpn : p = name
      · exact Or.inl (hpn ▸ Function.update_self ..)
      · have hin : p ∈ s.m_loggers := (KeyedSet.mem_insert_self_or hp).resolve_left hpn
        dsimp only
        rw [Function.update_of_ne hpn]
        exact Or.inr ⟨hin, rfl, rfl, h.attached p hin⟩

/-- The setters of a logger that may only detach appenders. -/
theorem Routed.modifyLogger {p : LoggerPtr} (hp : p ∈ s.m_loggers) {f : Logger → Logger}
    (hroot : ∀ l, (f l).m_root = l.m_root) (hformatter : ∀ l, (f l).m_formatter = l.m_formatter)
    (happ : ∀ l, ∀ i : ℕ, i ∈ (f l).m_appenders → i ∈ l.m_appenders) :
    (s.modifyLogger p f).Routed := by
  have hinv := h.inv.modifyLogger p (f := f) hroot (fun i hi => Or.inl (happ _ i hi)) hp
  refine h.keep hinv rfl fun q hq => Or.inr ⟨hq, ?_⟩
  show (Function.update s.logger p _ q).m_root = _ ∧
    (Function.update s.logger p _ q).m_formatter = _ ∧
    ∀ i ∈ (Function.update s.logger p _ q).m_appenders, (s.appender i).m_formatter ≠ none
  by_cases hqp : q = p
  · subst hqp
    rw [Function.update_self]
    exact ⟨hroot _, hformatter _, fun i hi => h.attached q hq i (happ _ i hi)⟩
  · rw [Function.update_of_ne hqp]
    exact ⟨rfl, rfl, h.attached q hq⟩

theorem Routed.newAppender (cls : AppenderClass) : (s.newAppender cls).2.Routed := by
  refine h.keep (h.inv.newAppender cls) rfl fun p hp => Or.inr ⟨hp, rfl, rfl, fun i hi => ?_⟩
  have hne : i ≠ s.nextAppender := (h.inv.appenders p hp i hi).ne
  show (Function.update s.appender s.nextAppender _ i).m_formatter ≠ none
  rw [Function.update_of_ne hne]
  exact h.attached p hp i hi

theorem Routed.addAppender {p : LoggerPtr} (hp : p ∈ s.m_loggers) {ap : AppenderPtr}
    (hap : ap < s.nextAppender) : (s.addAppender p ap).Routed := by
  have hsame : (s.addAppender p ap).m_root = s.m_root ∧
      (s.addAppender p ap).m_loggers = s.m_loggers := by
    unfold LogState.addAppender
    split <;> exact ⟨rfl, rfl⟩
  -- an appender with a formatter keeps it, and the one that is attached has one afterwards
  have hformatter : ∀ i, (s.appender i).m_formatter ≠ none ∨ i = ap →
      ((s.addAppender p ap).appender i).m_formatter ≠ none := by
    intro i hi
    rw [addAppender_appender]
    by_cases hia : i = ap
    · rw [hia, Function.update_self]
      exact fun hnone => h.formatter p hp (Option.or_eq_none_iff.1 hnone).2
    · rw [Function.update_of_ne hia]
      exact hi.resolve_right hia
  refine h.keep (h.inv.addAppender hp hap) hsame.1 fun q hq => Or.inr ?_
  rw [hsame.2] at hq
  refine ⟨hq, ?_⟩
  rw [addAppender_logger]
  by_cases hqp : q = p
  · subst hqp
    rw [Function.update_self]
    refine ⟨rfl, rfl, fun i hi => hformatter i ?_⟩
    exact (List.mem_append.1 hi).imp (h.attached q hq i) List.mem_singleton.1
  · rw [Function.update_of_ne hqp]
    exact ⟨rfl, rfl, fun i hi => hformatter i (Or.inl (h.attached q hq i hi))⟩

theorem Routed.appenderSetLevel (ap : AppenderPtr) (val : Level) :
    (s.modifyAppender ap fun a => { a with m_level := val }).Routed := by
  refine h.keep (h.inv.modifyAppender ap _) rfl fun p hp => Or.inr ⟨hp, rfl, rfl, fun i hi => ?_⟩
  show (Function.update s.appender ap _ i).m_formatter ≠ none
  by_cases hia : i = ap
  · subst hia
    rw [Function.update_self]
    exact h.attached p hp i hi
  · rw [Function.update_of_ne hia]
    exact h.attached p hp i hi

theorem Routed.act {s' : LogState} {a : Act} (ha : a.Routes) (hvalid : a.Valid s)
    (hact : s.act a = some s') : s'.Routed := by
  have hstep := act_eq_some.1 hact
  cases a with
  | getLogger name => exact Except.ok.inj hstep ▸ h.getLogger name
  | setLevel p val =>
      exact Except.ok.inj hstep ▸ h.modifyLogger hvalid (fun _ => rfl) (fun _ => rfl)
        (fun _ _ => id)
  | newStdoutLogAppender => exact Except.ok.inj hstep ▸ h.newAppender _
  | newFileLogAppender filename =>
      have hticked : ({ s with tick := s.tick + 1 } : LogState).Routed :=
        h.same ⟨rfl, rfl, rfl, rfl, fun _ => rfl⟩
      exact Except.ok.inj hstep ▸ hticked.newAppender _
  | addAppender p ap => exact Except.ok.inj hstep ▸ h.addAppender hvalid.1 hvalid.2
  | delAppender p ap =>
      exact Except.ok.inj hstep ▸ h.modifyLogger hvalid.1 (fun _ => rfl) (fun _ => rfl)
        (fun _ _ => List.mem_of_mem_erase)
  | clearAppenders p =>
      exact Except.ok.inj hstep ▸ h.modifyLogger hvalid (fun _ => rfl) (fun _ => rfl)
        (fun _ _ hi => absurd hi List.not_mem_nil)
  | appenderSetLevel ap val => exact Except.ok.inj hstep ▸ h.appenderSetLevel ap val
  | log p level event => exact h.same (logFuel_same _ hstep)
  | _ => exact ha.elim

end

/-! ## The result -/

/-- The attachments an event of the level is handed to, in their order: those of the logger, or
    those of the root logger if the logger has none, unless the level is too low on the way. -/
def receivers (s : LogState) (p : LoggerPtr) (level : Level) : List AppenderPtr :=
  if (s.logger p).m_level.toNat ≤ level.toNat then
    if (s.logger p).m_appenders ≠ [] then (s.logger p).m_appenders
    else if p ≠ s.m_root ∧ (s.logger s.m_root).m_level.toNat ≤ level.toNat then
      (s.logger s.m_root).m_appenders
    else []
  else []

/-- What a log call leaves behind that hands the event to `is`. -/
def Reaches (s : LogState) (level : Level) (event : String) (is : List AppenderPtr)
    (r : Except NullDeref LogState) : Prop :=
  ∃ s' new, r = .ok s' ∧ s'.deliveries = s.deliveries ++ new ∧ new.map Delivery.appender = is ∧
    (∀ d ∈ new, d.level = level ∧ d.event = event ∧
      (d.written.isSome ↔ (s.appender d.appender).m_level.toNat ≤ level.toNat)) ∧
    ∀ i, i ∉ is → s'.appender i = s.appender i

theorem reaches_nobody (s : LogState) (level : Level) (event : String) :
    s.Reaches level event [] (.ok s) :=
  ⟨s, [], rfl, by simp, rfl, by simp, fun _ _ => rfl⟩

theorem Routed.logAppenders_reaches {s : LogState} (h : s.Routed) {p : LoggerPtr}
    (hp : p ∈ s.m_loggers) (self : LoggerPtr) (level : Level) (event : String) :
    s.Reaches level event (s.logger p).m_appenders
      (logAppenders self level event (s.logger p).m_appenders s) := by
  have hformatter : ∀ i ∈ (s.logger p).m_appenders, (s.appender i).m_formatter ≠ none :=
    h.attached p hp
  rcases logAppenders_spec self level event (s.logger p).m_appenders s with
    ⟨-, s', hloop, hhanded⟩ | ⟨⟨i, hi, hno⟩, -⟩
  · refine ⟨s', _, hloop, hhanded.deliveries, ?_, fun d hd => ?_, hhanded.others⟩
    · rw [List.map_map]
      exact List.map_id' _
    · obtain ⟨i, hi, rfl⟩ := List.mem_map.1 hd
      refine ⟨rfl, rfl, ?_⟩
      show (if _ then _ else none : Option LogFormatter).isSome ↔ _
      split
      · next hlevel => exact iff_of_true (Option.isSome_iff_ne_none.2 (hformatter i hi)) hlevel
      · next hlevel => exact iff_of_false (by simp) hlevel
  · exact absurd (fun _ => hformatter i hi) hno

/-- A registered logger points to the root logger, and the root logger nowhere. -/
theorem Routed.root_end {s : LogState} (h : s.Routed) {p : LoggerPtr} (hp : p ∈ s.m_loggers)
    (root : LoggerPtr) (hroot : (s.logger p).m_root = some root) :
    root ∈ s.m_loggers ∧ (s.logger root).m_root = none := by
  by_cases hne : p = s.m_root
  · rw [hne, h.inv.root_root] at hroot
    simp at hroot
  · rw [h.to_root p hp hne] at hroot
    obtain rfl := Option.some.inj hroot
    exact ⟨h.inv.root_mem, h.inv.root_root⟩

theorem Routed.receivers_eq {s : LogState} (h : s.Routed) {p : LoggerPtr} (hp : p ∈ s.m_loggers)
    (level : Level) : s.receivers p level =
      (s.logsThrough p level).elim [] fun q => (s.logger q).m_appenders := by
  unfold receivers logsThrough
  split
  · split
    · rfl
    · by_cases hne : p = s.m_root
      · -- the root logger has nowhere to go
        rw [if_neg fun hand => hand.1 hne, hne, h.inv.root_root]
        rfl
      · simp only [h.to_root p hp hne, ne_eq, hne, not_false_eq_true, true_and]
        split_ifs <;> rfl
  · rfl

theorem Routed.log_reaches {s : LogState} (h : s.Routed) {p : LoggerPtr} (hp : p ∈ s.m_loggers)
    (level : Level) (event : String) :
    s.Reaches level event (s.receivers p level) (s.log p level event) := by
  rw [log_eq (h.root_end hp), h.receivers_eq hp]
  cases hq : s.logsThrough p level with
  | none => exact reaches_nobody s level event
  | some q =>
      exact h.logAppenders_reaches (mem_of_logsThrough (h.root_end hp) hp hq) q level event

/-- **Every event reaches the appenders it is meant for, once.** In every state a program brings the
manager into by getting loggers, attaching and detaching appenders, setting levels and logging, an
event logged through a registered logger is handed exactly to the attachments in `receivers`, one
after another; each writes it if and only if the event is not below the appender's level, and no
other appender is touched. -/
theorem log_reaches_receivers {os : ℕ → Os} {as : List Act} {s : LogState}
    (hvalid : Along LogState.act (fun u a => a.Routes ∧ a.Valid u) (LogState.new os) as)
    (hrun : exec LogState.act (LogState.new os) as = some s) {p : LoggerPtr} (hp : p ∈ s.m_loggers)
    (level : Level) (event : String) :
    s.Reaches level event (s.receivers p level) (s.log p level event) := by
  have hrouted : s.Routed := exec_history (fun _ => Routed)
    (fun _ _ _ _ h ha hact => h.act ha.1 ha.2 hact) [] (Routed.new os) hvalid hrun
  exact hrouted.log_reaches hp level event

/-- The acts of a program that attaches two appenders to a logger, the second one for errors. -/
def sampleActs : List Act :=
  [.getLogger "a", .newStdoutLogAppender, .newFileLogAppender "f", .addAppender "a" 1,
    .addAppender "a" 2, .appenderSetLevel 2 .error]

/-- The first appender writes the event, the second one filters it, and the appender of the root
    logger is left alone. -/
theorem log_reaches_receivers_sample :
    ∃ s : LogState, exec LogState.act (LogState.new fun _ => ⟨0, true, true⟩) sampleActs = some s ∧
      s.receivers "a" .info = [1, 2] ∧ (s.appender 1).m_level.toNat ≤ Level.info.toNat ∧
      Level.info.toNat < (s.appender 2).m_level.toNat ∧
      s.Reaches .info "hello" (s.receivers "a" .info) (s.log "a" .info "hello") := by
  have hvalid : Along LogState.act (fun u a => a.Routes ∧ a.Valid u)
      (LogState.new fun _ => ⟨0, true, true⟩) sampleActs := by
    have hattach : "a" ∈ ["a", "root"] := by decide
    refine (along_cons_of_step rfl).2 ⟨⟨trivial, trivial⟩, (along_cons_of_step rfl).2
      ⟨⟨trivial, trivial⟩, (along_cons_of_step rfl).2 ⟨⟨trivial, trivial⟩, ?_⟩⟩⟩
    refine (along_cons_of_step rfl).2 ⟨⟨trivial, hattach, show 1 < 3 by decide⟩, ?_⟩
    refine (along_cons_of_step rfl).2 ⟨⟨trivial, hattach, show 2 < 3 by decide⟩, ?_⟩
    exact (along_cons_of_step rfl).2 ⟨⟨trivial, show 2 < 3 by decide⟩, trivial⟩
  exact ⟨_, rfl, by decide, by decide, by decide,
    log_reaches_receivers hvalid rfl (by decide) .info "hello"⟩

end LogState
end Ipmsg
