import Ipmsg.Lib.Schedule
import Ipmsg.Log.OutputInvariant

set_option autoImplicit false

/-! # Lines are whole

Any number of threads log, attach appenders and reconfigure the loggers. No thread ever goes through
a null pointer, and what the stream of an appender has taken is, event by event, what its formatter
made of the event: the lock of the appender keeps the bytes of two events apart. -/

namespace Ipmsg

open Prog

namespace Output

variable {text : FormatItem → Level → LogEvent → List UInt8} {init : String → List UInt8} {W : Prop}

/-! ## An event -/

/-- An assertion on the stream says nothing if writes may fail. -/
theorem Writing.of_not {i : AppenderPtr} {file : Option String} {acc held acc' held' : List UInt8}
    {s : Output} (hs : Writing text init W i file acc held s) (hW : ¬ W) :
    Writing text init W i file acc' held' s :=
  ⟨hs.inv, hs.constructed, hs.file, fun h => absurd h hW⟩

/-- A stream that was good has taken the items `before`, and another one nothing. -/
def Taken (text : FormatItem → Level → LogEvent → List UInt8) (init : String → List UInt8)
    (W : Prop) (level : Level) (event : LogEvent) (i : AppenderPtr) (members : FileLogAppender)
    (before : List FormatItem) (good : Bool) (s : Output) : Prop :=
  (W → good = members.accepts) ∧ ∃ held, Writing text init W i (some members.m_filename)
    (if members.accepts then before.flatMap fun item => text item level event else []) held s ∧
    (W → members.accepts = true → before.getLast? = some .newLineFormatItem → held = [])

theorem stable_taken {i : AppenderPtr} {h : List (Lock × LockMode)} {m : LockMode}
    (hheld : (.appender i, m) ∈ h) (level : Level) (event : LogEvent) (members : FileLogAppender)
    (before : List FormatItem) (good : Bool) :
    (outputD text init W).Stable h (Taken text init W level event i members before good) := by
  rintro s s' ⟨hgood, held, hs, hempty⟩ henv
  exact ⟨hgood, held, stable_writing hheld _ _ _ s s' hs henv, hempty⟩

section
variable {i : AppenderPtr} {h : List (Lock × LockMode)} (hheld : (.appender i, .exclusive) ∈ h)
include hheld

theorem formatItem_triple (level : Level) (event : LogEvent) (name : String) (item : FormatItem)
    (acc held : List UInt8) :
    Triple (outputD text init W) h (Writing text init W i (some name) acc held)
      (formatItem text level event i name item) fun good s => (W → good = true) ∧ ∃ held',
        Writing text init W i (some name) (acc ++ text item level event) held' s ∧
          (W → item = .newLineFormatItem → held' = []) := by
  refine (insert_triple hheld name acc (text item level event) held).bind fun good => ?_
  rintro s ⟨hgood, held', hs⟩
  split
  · next hflush =>
      refine (writeOut_triple hheld name true _ held').conseq (fun _ => id) ?_ s hs
      exact fun good s hs => ⟨hs.1, hs.2.imp fun held'' h => ⟨h.1, fun hW _ => h.2 hW rfl⟩⟩
  · next hflush =>
      refine triple_pure (P := Writing text init W i (some name) _ held')
        (fun s₁ s₂ hs₁ henv => ?_) s hs
      exact ⟨hgood, held', stable_writing hheld _ _ _ s₁ s₂ hs₁ henv,
        fun hW hitem => absurd ⟨hgood hW, hitem⟩ hflush⟩

theorem formatTo_triple (level : Level) (event : LogEvent) (members : FileLogAppender)
    (f : LogFormatter) (held : List UInt8) :
    Triple (outputD text init W) h (Writing text init W i (some members.m_filename) [] held)
      (formatTo text level event i members f)
      (Taken text init W level event i members f.m_items) := by
  have hitem : ∀ before item after, f.m_items = before ++ item :: after → ∀ good : Bool,
      Triple (outputD text init W) h (Taken text init W level event i members before good)
        (if good then formatItem text level event i members.m_filename item else return false)
        (Taken text init W level event i members (before ++ [item])) := by
    rintro before item after - good s ⟨hgood, held, hs, hempty⟩
    cases good with
    | true =>
        refine (formatItem_triple hheld level event members.m_filename item _ held).conseq
          (fun _ => id) ?_ s hs
        rintro good' s' ⟨hgood', held', hs', hempty'⟩
        by_cases hW : W
        · have haccepts : members.accepts = true := (hgood hW).symm
          rw [if_pos haccepts] at hs'
          refine ⟨fun _ => (hgood' hW).trans haccepts.symm, held', ?_, fun _ _ hlast => ?_⟩
          · rwa [if_pos haccepts, List.flatMap_append, List.flatMap_singleton]
          · rw [List.getLast?_concat] at hlast
            exact hempty' hW (Option.some.inj hlast)
        · exact ⟨fun h => absurd h hW, held', hs'.of_not hW, fun h => absurd h hW⟩
    | false =>
        refine triple_pure (P := Writing text init W i _ _ held) (fun s₁ s₂ hs₁ henv => ?_) s hs
        have hs₂ := stable_writing hheld _ _ _ s₁ s₂ hs₁ henv
        by_cases hW : W
        · have hno : ¬ members.accepts = true := by
            rw [← hgood hW]
            exact Bool.false_ne_true
          rw [if_neg hno] at hs₂
          exact ⟨hgood, held, by rwa [if_neg hno], fun _ h => absurd h hno⟩
        · exact ⟨fun h => absurd h hW, held, hs₂.of_not hW, fun h => absurd h hW⟩
  have hloop := triple_foldlM (R := Taken text init W level event i members)
    (stable_taken hheld level event members) hitem members.accepts
  refine hloop.conseq (fun s hs => ⟨fun _ => rfl, held, ?_, fun _ _ => nofun⟩) fun _ _ => id
  split <;> exact hs

/-- The end of an event. -/
theorem record_triple (p : Printed) (hp : p.appender = i) (os : Os) {file : Option String}
    {acc held : List UInt8} (hacc : W → acc = p.line text ∨ file = none)
    (hheld' : W → p.done = true → p.formatter.EndsLine → held = [] ∨ file = none) :
    Triple (outputD text init W) h (Writing text init W i file acc held) (record p os)
      fun _ => Between text init W i := by
  subst hp
  refine triple_modify fun s s' hs henv => ?_
  have hs' := stable_writing hheld _ _ _ s s' hs henv
  have hmodify := hs'.inv.sound.modifyFile p.appender
    (FileLogAppender.write_m_filename os p.formatter)
  have hfile := (hmodify.2.file p.appender hs'.constructed).trans hs'.file
  have hinv := hs'.inv.printed (p := p) hmodify (fun hW => ?_) hs'.constructed
  · have hlast : ∀ i, i ≠ p.appender →
        ((s'.printed ++ [p]).filter fun q => q.appender = i).getLast? = s'.lastOf i := by
      intro i hi
      rw [List.filter_append, List.filter_cons_of_neg (by simpa using Ne.symm hi), List.filter_nil,
        List.append_nil]
      rfl
    have hafter : Between text init W p.appender { s' with
        loggers := Locked.modifyFile p.appender (fun members => members.write os p.formatter)
          s'.loggers
        line := Function.update s'.line p.appender []
        printed := s'.printed ++ [p] } := by
      refine ⟨hinv, fun hW => ⟨Function.update_self .., fun q hq hdone hends => ?_⟩⟩
      have hself : ((s'.printed ++ [p]).filter fun q => q.appender = p.appender).getLast? =
          some p := by
        rw [List.filter_append, List.filter_cons_of_pos (by simp), List.filter_nil,
          List.getLast?_concat]
      obtain rfl : p = q := Option.some.inj (hself.symm.trans hq)
      rcases hheld' hW hdone hends with rfl | hnone
      · exact (hs'.stream hW).2
      · exact (hinv.lines hW).console _ (hfile.trans hnone)
    refine ⟨⟨fun _ => hinv, fun _ => hmodify⟩, fun l hl => ?_, fun s'' henv' =>
      stable_between hheld _ s'' hafter henv'⟩
    exact same_other hl hheld fun j hj => ⟨Function.update_of_ne hj _ _, rfl, hlast j hj⟩
  · rcases hacc hW with hacc | hnone
    · exact Or.inl ((hs'.stream hW).1.trans hacc)
    · exact Or.inr (hfile.trans hnone)

/-- An event that has been printed to a file: the line is all there, and the buffer empty if the
    formatter ends it. -/
theorem printed_triple (level : Level) (event : LogEvent) (os : Os) (f : LogFormatter)
    (members : FileLogAppender) (good : Bool) :
    Triple (outputD text init W) h (Taken text init W level event i members f.m_items good) (do
      let done := (members.write { os with writes := good } f).m_filestream.good
      record ⟨i, level, event, f, done⟩ { os with writes := good }
      if !done then cout (bytes "error\n"))
      fun _ => Between text init W i := by
  rintro s ⟨hgood, held, hs, hempty⟩
  obtain ⟨done, hdone⟩ : ∃ done,
      done = (members.write { os with writes := good } f).m_filestream.good := ⟨_, rfl⟩
  have hline : W → (if members.accepts then f.lineOf text level event else []) =
      (⟨i, level, event, f, done⟩ : Printed).line text := by
    intro hW
    rw [hgood hW] at hdone
    by_cases hitems : f.m_items = []
    · -- there is nothing to print
      simp [Printed.line, LogFormatter.lineOf, hitems]
    · rw [Printed.line, hdone, members.write_good os hitems]
  have hsettled : W → done = true → f.EndsLine → held = [] := by
    intro hW htrue hends
    have hitems : f.m_items ≠ [] := by
      intro hnil
      rw [LogFormatter.EndsLine, hnil] at hends
      cases hends
    refine hempty hW ?_ hends
    rw [← members.write_good os hitems, ← hgood hW, ← hdone]
    exact htrue
  have hrecord : Triple (outputD text init W) h (Writing text init W i (some members.m_filename)
      (if members.accepts then f.lineOf text level event else []) held)
      (record ⟨i, level, event, f, done⟩ { os with writes := good })
      fun _ => Between text init W i :=
    record_triple hheld _ rfl _ (fun hW => Or.inl (hline hW)) fun hW htrue hends =>
      Or.inl (hsettled hW htrue hends)
  have hend : Triple (outputD text init W) h (Between text init W i)
      (if !done then cout (bytes "error\n") else return ())
      fun _ => Between text init W i := by
    split
    · exact cout_triple hheld (stable_between hheld)
        (fun s console hs => ⟨hs.inv.cout console, hs.settled⟩) _
    · exact triple_pure fun s s' hs henv => stable_between hheld s s' hs henv
  have hall := (hrecord.bind fun _ => hend) s hs
  rw [hdone] at hall
  exact hall

/-- The lock of the appender is free for the next event when one has been printed. -/
theorem print_triple (level : Level) (event : LogEvent) (os : Os) (f : LogFormatter)
    (cls : AppenderClass) (held : List UInt8) :
    Triple (outputD text init W) h (Writing text init W i cls.file [] held)
      (print text level event i os f cls) fun _ => Between text init W i := by
  cases cls with
  | stdoutLogAppender =>
      have hitems : Triple (outputD text init W) h (Writing text init W i none [] held)
          (f.m_items.foldlM (fun _ item => cout (text item level event)) ())
          fun _ => Writing text init W i none [] held := by
        refine triple_foldlM_keeps (R := fun _ => Writing text init W i none [] held)
          (fun _ => stable_writing hheld _ _ _) (fun _ item _ => ?_) ()
        exact cout_triple hheld (stable_writing hheld _ _ _)
          (fun s console hs => ⟨hs.inv.cout console, hs.constructed, hs.file, hs.stream⟩) _
      exact hitems.bind fun _ => record_triple hheld _ rfl os (fun _ => Or.inr rfl)
        fun _ _ _ => Or.inr rfl
  | fileLogAppender members =>
      exact (formatTo_triple hheld level event members f held).bind fun good =>
        printed_triple hheld level event os f members good

end

/-! ## Appenders -/

/-- The lock of the appender is free for the next event when one has been printed. -/
theorem format_triple (level : Level) (event : LogEvent) (i : AppenderPtr) (os : Os)
    (h : List (Lock × LockMode)) :
    Triple (outputD text init W) h (fun s => s.Inv text init W ∧ s.loggers.Ready i)
      (format text level event i os).run fun x s => s.Inv text init W ∧ ∃ f, x = .ok f := by
  refine triple_locked (stable_loggers LogState.Later.ready h)
    (fun x => stable_loggers (R := fun _ => ∃ f, x = .ok f) (fun _ => id) h) ?_
  have hheld : (Lock.appender i, LockMode.exclusive) ∈ (Lock.appender i, LockMode.exclusive) :: h :=
    List.mem_cons_self
  refine triple_get_bindT (fun s s' hs henv => ?_) fun s hs => ?_
  · exact ⟨stable_loggers LogState.Later.ready _ s s' hs.1 henv,
      (outputD text init W).inv_same (henv.2 _ hheld) hs.2⟩
  · obtain ⟨f, hf⟩ := Option.ne_none_iff_exists'.1 hs.1.2.2
    -- nothing has been printed of the event
    have hstart : ∀ s', (outputD text init W).Env ((.appender i, .exclusive) :: h) s s' →
        Writing text init W i (s.loggers.appender i).cls.file [] (s.buffer i) s' :=
      fun s' henv => stable_writing hheld _ _ _ s s'
        ⟨hs.1.1, hs.1.2.1, rfl, fun hW => ⟨(hs.2 i rfl hW).1, rfl⟩⟩ henv
    have hreturn : Triple (outputD text init W) ((.appender i, .exclusive) :: h)
        (Between text init W i) (Pure.pure f : OutputProgT LogFormatter).run
        fun x s => (LockMode.exclusive = .exclusive → (outputD text init W).inv (.appender i) s) ∧
          s.Inv text init W ∧ ∃ f, x = .ok f := by
      refine triple_pure fun s₁ s₂ hs₁ henv => ?_
      have hs₂ := stable_between hheld s₁ s₂ hs₁ henv
      exact ⟨fun _ j hj => Lock.appender.inj hj ▸ hs₂.settled, hs₂.inv, f, rfl⟩
    rw [LogAppender.derefFormatter_of_some hf]
    have hprint := (print_triple hheld level event os f (s.loggers.appender i).cls
      (s.buffer i)).conseq hstart fun _ _ => id
    exact triple_lift_bindT (fun _ => stable_between hheld) hprint fun _ => hreturn

/-- A stream that is closed holds nothing. -/
theorem close_triple {i : AppenderPtr} {h : List (Lock × LockMode)}
    (hheld : (.appender i, .exclusive) ∈ h) (name : String) (held : List UInt8) :
    Triple (outputD text init W) h (Writing text init W i (some name) [] held) (close i name)
      fun _ => Between text init W i := by
  refine (writeOut_triple hheld name true [] held).bind fun good => ?_
  rintro s ⟨-, held', hs, hempty⟩
  refine triple_modify (P := Writing text init W i (some name) [] held')
    (fun s s' hs henv => ?_) s hs
  have hs' := stable_writing hheld _ _ _ s s' hs henv
  have hinv : Output.Inv text init W { s' with buffer := Function.update s'.buffer i [] } := by
    refine ⟨hs'.inv.sound, hs'.inv.crashed, fun hW => ?_⟩
    -- nothing is lost
    have hsame : Function.update s'.buffer i [] = s'.buffer := by
      rw [Function.update_eq_self_iff, (hs'.stream hW).2]
      exact (hempty hW rfl).symm
    rw [hsame]
    exact hs'.inv.lines hW
  have hafter : Between text init W i { s' with buffer := Function.update s'.buffer i [] } :=
    ⟨hinv, fun hW => ⟨(hs'.stream hW).1, fun _ _ _ _ => Function.update_self ..⟩⟩
  refine ⟨⟨fun _ => hinv, fun hsound => ⟨hsound, .refl _⟩⟩, fun l hl => ?_, fun s'' henv' =>
    stable_between hheld _ s'' hafter henv'⟩
  exact same_other hl hheld fun j hj => ⟨rfl, Function.update_of_ne hj _ _, rfl⟩

/-- What `reopen` does once the stream is closed. -/
theorem open_triple {i : AppenderPtr} {h : List (Lock × LockMode)}
    (hheld : (.appender i, .exclusive) ∈ h) (members : FileLogAppender) (os : Os) :
    Triple (outputD text init W) h (Between text init W i) (do
      update fun s =>
        s.setLoggers (Locked.modifyFile i (fun members => (members.reopen os).1) s.loggers)
      if !(members.reopen os).2 then cout (bytes "!!!! open error !!!!\n"))
      fun _ => Between text init W i := by
  refine Triple.bind (R := fun _ => Between text init W i) ?_ fun _ => ?_
  · refine triple_modify fun s s' hs henv => ?_
    have hs' := stable_between hheld s s' hs henv
    have hmodify := hs'.inv.sound.modifyFile i (FileLogAppender.reopen_m_filename os)
    have hinv := hs'.inv.setLoggers hmodify
    refine ⟨⟨fun _ => hinv, fun _ => hmodify⟩, fun l hl => ?_, fun s'' henv' =>
      stable_between hheld _ s'' ⟨hinv, hs'.settled⟩ henv'⟩
    exact same_other hl hheld fun j _ => ⟨rfl, rfl, rfl⟩
  · split
    · exact cout_triple hheld (stable_between hheld)
        (fun s console hs => ⟨hs.inv.cout console, hs.settled⟩) _
    · exact triple_pure fun s s' hs henv => stable_between hheld s s' hs henv

theorem reopen_triple (i : AppenderPtr) (os : Os) (h : List (Lock × LockMode)) :
    Triple (outputD text init W) h (fun s => s.Inv text init W ∧ s.loggers.Ready i) (reopen i os)
      fun _ s => s.Inv text init W ∧ s.loggers.Ready i := by
  have hready : ∀ s s' : Output, (s.Inv text init W ∧ s.loggers.Ready i) →
      (outputD text init W).guar s s' → s'.Inv text init W ∧ s'.loggers.Ready i :=
    fun s s' hs hguar => ⟨hguar.1 hs.1, (hguar.2 hs.1.sound).2.ready hs.2⟩
  refine (Triple.frame hready (Q := fun _ s => s.Inv text init W ∧ True) ?_).conseq
    (fun s hs => ⟨hs, hs⟩) fun _ s hs => hs.2
  refine triple_locked (stable_loggers LogState.Later.ready h) (fun _ => stable_inv h) ?_
  have hheld : (Lock.appender i, LockMode.exclusive) ∈ (Lock.appender i, LockMode.exclusive) :: h :=
    List.mem_cons_self
  refine Triple.conseq (Q := fun _ => Between text init W i) ?_ (fun _ => id) fun _ s hs =>
    ⟨fun _ j hj => Lock.appender.inj hj ▸ hs.settled, hs.inv, trivial⟩
  refine triple_get_bind (fun s s' hs henv => ?_) fun s hs => ?_
  · exact ⟨stable_loggers LogState.Later.ready _ s s' hs.1 henv,
      (outputD text init W).inv_same (henv.2 _ hheld) hs.2⟩
  · have hstart : ∀ s', (outputD text init W).Env ((.appender i, .exclusive) :: h) s s' →
        Between text init W i s' :=
      fun s' henv => stable_between hheld s s' ⟨hs.1.1, hs.2 i rfl⟩ henv
    cases hcls : (s.loggers.appender i).cls with
    | stdoutLogAppender =>
        exact triple_pure fun s₁ s₂ henv henv' => hstart s₂ (henv.trans henv')
    | fileLogAppender members =>
        dsimp only
        split
        · refine Triple.bind (R := fun _ => Between text init W i) ?_ fun _ =>
            open_triple hheld members os
          refine (close_triple hheld members.m_filename (s.buffer i)).conseq (fun s' henv => ?_)
            fun _ _ => id
          have hfile : (s.loggers.appender i).cls.file = some members.m_filename := by
            rw [hcls]
            rfl
          exact stable_writing hheld _ _ _ s s'
            ⟨hs.1.1, hs.1.2.1, hfile, fun hW => ⟨(hs.2 i rfl hW).1, rfl⟩⟩ henv
        · exact (open_triple hheld members os).conseq hstart fun _ _ => id

/-- None of the locks held is one of an appender. -/
def NoAppender (h : List (Lock × LockMode)) : Prop := ∀ e ∈ h, ∀ i, e.1 ≠ .appender i

theorem onLog_triple {α : Type} {h : List (Lock × LockMode)} (hh : NoAppender h) {p : LogProg α}
    {P : LogState → Prop} {Q : α → LogState → Prop} (hp : Triple soundD h P p Q) :
    Triple (outputD text init W) h (fun s => s.Inv text init W ∧ P s.loggers) (onLog p)
      fun a s => s.Inv text init W ∧ Q a s.loggers := by
  have hput : ∀ {s : Output} {x : LogState}, s.loggers.Keeps x →
      (outputD text init W).guar s (s.setLoggers x) ∧
        ∀ l, (outputD text init W).same l s (s.setLoggers x) :=
    fun hx => ⟨⟨fun hs => hs.setLoggers (hx hs.sound), hx⟩, fun _ _ _ => ⟨rfl, rfl, rfl⟩⟩
  have henv : ∀ {h : List (Lock × LockMode)} {s s' : Output},
      (outputD text init W).Env h s s' → soundD.Env h s.loggers s'.loggers :=
    fun henv => ⟨henv.1.2, fun _ _ => trivial⟩
  have hzoom : Triple (outputD text init W) h (fun s => P s.loggers) (onLog p)
      fun a s => Q a s.loggers :=
    hp.zoom (fun _ _ => rfl) henv (fun _ => trivial) hput fun e he s i hi => absurd hi (hh e he i)
  have hinv : ∀ s s' : Output, s.Inv text init W → (outputD text init W).guar s s' →
      s'.Inv text init W :=
    fun s s' hs hguar => hguar.1 hs
  exact ((hzoom.frame hinv).conseq fun _ hs => ⟨hs.2, hs.1⟩) fun _ _ hs => ⟨hs.2, hs.1⟩

/-- A method that does not print keeps an assertion about the appenders. -/
theorem onLog_keeps {α : Type} {h : List (Lock × LockMode)} (hh : NoAppender h) {p : LogProg α}
    (hp : Locked.Safe p) {R : LogState → Prop}
    (hR : ∀ {x x' : LogState}, x.Later x' → R x → R x') :
    Triple (outputD text init W) h (fun s => s.Inv text init W ∧ R s.loggers) (onLog p)
      fun _ s => s.Inv text init W ∧ R s.loggers :=
  ((onLog_triple hh (hp.triple hR h)).conseq fun _ hs => ⟨hs.1, hs.1.sound, hs.2⟩)
    fun _ _ hs => ⟨hs.1, hs.2.2⟩

/-! ## Log calls -/

theorem appenderLog_triple (level : Level) (event : LogEvent) (i : AppenderPtr)
    {h : List (Lock × LockMode)} (hh : NoAppender h) :
    Triple (outputD text init W) h (fun s => s.Inv text init W ∧ s.loggers.Ready i)
      (appenderLog text level event i).run fun x s => s.Inv text init W ∧ ∃ w, x = .ok w := by
  refine triple_get_bindT (stable_loggers LogState.Later.ready h) fun s hs => ?_
  have hlater : ∀ s', (outputD text init W).Env h s s' →
      s'.Inv text init W ∧ s'.loggers.Ready i :=
    fun s' henv => stable_loggers LogState.Later.ready h s s' hs henv
  split
  · have hformat : Triple (outputD text init W) h (fun s => s.Inv text init W ∧ s.loggers.Ready i)
        (do return some (← format text level event i (s.loggers.os s.loggers.tick)) :
          OutputProgT _).run fun x s => s.Inv text init W ∧ ∃ w, x = .ok w := by
      refine (format_triple level event i _ h).bindT (fun f => ?_) ?_
      · refine triple_pure fun s₁ s₂ hs₁ henv => ?_
        exact ⟨(env_inv hs₁.1 henv).1, some f, rfl⟩
      · rintro e s₁ s₂ ⟨-, f, hf⟩ -
        cases hf
    cases hcls : (s.loggers.appender i).cls with
    | stdoutLogAppender => exact hformat.conseq hlater fun _ _ => id
    | fileLogAppender members =>
        dsimp only
        split
        · -- the file is reopened first
          have hstamp : Locked.Safe (Locked.update (Locked.modifyFile i fun members =>
              { members with m_lastTime := (s.loggers.os s.loggers.tick).time })) :=
            Locked.safe_modifyFile i fun _ => rfl
          refine triple_lift_bindT (fun _ => stable_loggers LogState.Later.ready h)
            ((reopen_triple i _ h).conseq hlater fun _ _ => id) fun _ => ?_
          refine triple_lift_bindT (fun _ => stable_loggers LogState.Later.ready h)
            (onLog_keeps hh hstamp LogState.Later.ready) fun _ => hformat
        · exact hformat.conseq hlater fun _ _ => id
  · refine triple_pure fun s₁ s₂ hs₁ henv => ?_
    exact ⟨(hlater s₂ (hs₁.trans henv)).1, none, rfl⟩

/-- A program that is not called through a null pointer, and follows `m_root` to an end. -/
def Finishes (text : FormatItem → Level → LogEvent → List UInt8) (init : String → List UInt8)
    (W : Prop) (h : List (Lock × LockMode)) (R : LogState → Prop) (p : OutputProgT Unit) : Prop :=
  Triple (outputD text init W) h (fun s => s.Inv text init W ∧ R s.loggers) p.run
    fun x s => s.Inv text init W ∧ x = .ok ()

theorem stable_finished (h : List (Lock × LockMode)) (x : Except NullDeref Unit) :
    (outputD text init W).Stable h fun s => s.Inv text init W ∧ x = .ok () :=
  stable_loggers (R := fun _ => x = .ok ()) (fun _ => id) h

theorem finishes_pure {h : List (Lock × LockMode)} {R : LogState → Prop} :
    Finishes text init W h R (Pure.pure ()) :=
  triple_pure fun _ _ hs henv => ⟨(env_inv hs.1 henv).1, rfl⟩

theorem Finishes.bind {h : List (Lock × LockMode)} {R : LogState → Prop} {p q : OutputProgT Unit}
    (hp : Finishes text init W h R p) (hq : Finishes text init W h (fun _ => True) q) :
    Finishes text init W h R (p >>= fun _ => q) := by
  refine Triple.bindT hp (fun _ => ?_) fun e s s' hs _ => absurd hs.2 nofun
  exact Triple.conseq hq (fun s hs => ⟨hs.1, trivial⟩) fun _ _ => id

theorem logAppender_finishes (self : LoggerPtr) (level : Level) (event : LogEvent)
    (i : AppenderPtr) {h : List (Lock × LockMode)} (hh : NoAppender h) :
    Finishes text init W h (fun x => x.Ready i) (logAppender text self level event i) := by
  have htick : ∀ w : Option LogFormatter, Locked.Safe (Locked.update fun s => { s with
      tick := s.tick + 1
      deliveries := s.deliveries ++ [⟨self, i, level, event.getContent, w⟩] }) :=
    fun w => Locked.safe_update fun s hs => ⟨⟨⟨hs.rooted.m_root, hs.rooted.mem, hs.rooted.logger⟩,
      hs.formatter, hs.attached⟩, .same rfl rfl⟩
  refine (appenderLog_triple level event i hh).bindT (fun w => ?_) ?_
  · refine triple_lift (stable_finished h) ?_
    exact (onLog_keeps hh (htick w) (R := fun _ => True) fun _ => id).conseq
      (fun s hs => ⟨hs.1, trivial⟩) fun _ s hs => ⟨hs.1, rfl⟩
  · rintro e s s' ⟨-, w, hw⟩ -
    cases hw

/-- The appenders of a logger, one after another. -/
theorem logAppenders_finishes (self : LoggerPtr) (level : Level) (event : LogEvent)
    {h : List (Lock × LockMode)} (hh : NoAppender h) (is : List AppenderPtr) :
    Finishes text init W h (fun x => ∀ i ∈ is, x.Ready i)
      (is.foldlM (fun _ i => logAppender text self level event i) ()) := by
  induction is with
  | nil => exact finishes_pure
  | cons i is ih =>
      rw [List.foldlM_cons]
      -- the appenders to come stay attached with their formatters
      have hrest : ∀ s s' : Output, (s.Inv text init W ∧ ∀ j ∈ is, s.loggers.Ready j) →
          (outputD text init W).guar s s' → s'.Inv text init W ∧ ∀ j ∈ is, s'.loggers.Ready j :=
        fun s s' hs hguar => ⟨hguar.1 hs.1, fun j hj => (hguar.2 hs.1.sound).2.ready (hs.2 j hj)⟩
      have hfirst := Triple.frame hrest (logAppender_finishes self level event i hh)
      refine Triple.bindT (hfirst.conseq (fun s hs => ?_) fun _ _ => id) (fun _ => ?_) ?_
      · obtain ⟨hi, his⟩ := List.forall_mem_cons.1 hs.2
        exact ⟨⟨hs.1, hi⟩, hs.1, his⟩
      · exact Triple.conseq ih (fun s hs => hs.2) fun _ _ => id
      · exact fun e s s' hs _ => absurd hs.1.2 nofun

theorem NoAppender.logger {h : List (Lock × LockMode)} (hh : NoAppender h) (p : LoggerPtr)
    (m : LockMode) : NoAppender ((.logger p, m) :: h) := by
  intro e he i
  rcases List.mem_cons.1 he with rfl | he
  · exact nofun
  · exact hh e he i

theorem finishes_locked {h : List (Lock × LockMode)} {p : LoggerPtr} {body : OutputProgT Unit}
    (hbody : Finishes text init W ((.logger p, .exclusive) :: h) (fun _ => True) body) :
    Finishes text init W h (fun _ => True) (Prog.lockedT (.logger p) .exclusive body) := by
  refine triple_locked (stable_inv h) (stable_finished h) ?_
  exact Triple.conseq hbody (fun s hs => hs.1) fun x s hs => ⟨fun _ i hi => absurd hi nofun, hs⟩

/-- The root logger falls back to none, and every other one to the root logger. -/
theorem logFuel_finishes (level : Level) (event : LogEvent) (fuel : ℕ) : ∀ (p : LoggerPtr)
    {h : List (Lock × LockMode)}, NoAppender h → 1 ≤ fuel → (p ≠ "root" → 2 ≤ fuel) →
      Finishes text init W h (fun _ => True) (logFuel text level event fuel p) := by
  induction fuel with
  | zero => exact fun p h _ hfuel => absurd hfuel (by decide)
  | succ fuel ih =>
      intro p h hh _ hroot
      refine triple_get_bindT (stable_inv h) fun s hs => ?_
      have henv : ∀ s', (outputD text init W).Env h s s' → s'.Inv text init W ∧ True :=
        fun s' henv => ⟨(env_inv hs.1 henv).1, trivial⟩
      split
      · refine Triple.conseq (finishes_locked ?_) henv fun _ _ => id
        refine triple_get_bindT (stable_inv _) fun s hs => ?_
        have hlater : ∀ s', (outputD text init W).Env ((.logger p, .exclusive) :: h) s s' →
            s'.Inv text init W ∧ s.loggers.Later s'.loggers := fun s' => env_inv hs.1
        split
        · refine Triple.conseq (logAppenders_finishes p level event (hh.logger p .exclusive) _)
            (fun s' henv => ⟨(hlater s' henv).1, fun i hi => ?_⟩) fun _ _ => id
          exact (hlater s' henv).2.ready (hs.1.sound.attached p i hi)
        · split
          · next root hnext =>
              obtain ⟨hp, rfl⟩ := hs.1.sound.rooted.logger p root hnext
              refine Triple.conseq (ih "root" (hh.logger p .exclusive)
                (Nat.le_of_succ_le_succ (hroot hp)) fun hne => absurd rfl hne)
                (fun s' henv => ⟨(hlater s' henv).1, trivial⟩) fun _ _ => id
          · exact Triple.conseq (finishes_pure (R := fun _ => True))
              (fun s' henv => ⟨(hlater s' henv).1, trivial⟩) fun _ _ => id
      · exact Triple.conseq (finishes_pure (R := fun _ => True)) henv fun _ _ => id

theorem log_finishes (p : LoggerPtr) (level : Level) (event : LogEvent)
    {h : List (Lock × LockMode)} (hh : NoAppender h) :
    Finishes text init W h (fun _ => True) (log text p level event) := by
  refine triple_get_bindT (stable_inv h) fun s hs => ?_
  have hfuel : 0 < s.loggers.m_loggers.elems.length := List.length_pos_of_mem hs.1.sound.rooted.mem
  exact Triple.conseq (logFuel_finishes level event _ p hh (by omega) fun _ => by omega)
    (fun s' henv => ⟨(env_inv hs.1 henv).1, trivial⟩) fun _ _ => id

theorem logLevel_finishes (event : LogEvent) {h : List (Lock × LockMode)} (hh : NoAppender h) :
    Finishes text init W h (fun _ => True) (logLevel text event) := by
  refine triple_get_bindT (stable_inv h) fun s hs => ?_
  have henv : ∀ s', (outputD text init W).Env h s s' → s'.Inv text init W ∧ True :=
    fun s' henv => ⟨(env_inv hs.1 henv).1, trivial⟩
  split
  · exact Triple.conseq (log_finishes _ _ event hh) henv fun _ _ => id
  · exact Triple.conseq (finishes_pure (R := fun _ => True)) henv fun _ _ => id

/-- The listener, on sets for which it has a logger and an appender for every entry. -/
theorem logsListener_finishes (event : LogEvent) {old_value new_value : LogDefineSet}
    (hnew : ∀ i ∈ new_value, i ∉ old_value ∧ i.Typed) {h : List (Lock × LockMode)}
    (hh : NoAppender h) :
    Finishes text init W h (fun _ => True) (logsListener text event old_value new_value) := by
  have hconfigure : Locked.Completes
      (new_value.elems.foldlM (fun _ i => Locked.configureLogger old_value i) ()) :=
    Locked.completes_foldlM fun i hi =>
      Locked.configureLogger_completes (hnew i hi).1 (hnew i hi).2
  have hdelete : Locked.Safe
      (old_value.elems.foldlM (fun _ i => Locked.deleteLogger new_value i) ()) :=
    Locked.safe_foldlM (fun _ i _ => Locked.deleteLogger_safe new_value i) ()
  refine (logLevel_finishes event hh).bind (Finishes.bind ?_ ?_)
  · exact (onLog_triple hh (hconfigure h)).conseq (fun s hs => ⟨hs.1, hs.1.sound, trivial⟩)
      fun x s hs => ⟨hs.1, hs.2.2⟩
  · refine triple_lift (stable_finished h) ?_
    exact (onLog_keeps hh hdelete (R := fun _ => True) fun _ => id).conseq (fun _ => id)
      fun _ s hs => ⟨hs.1, rfl⟩

end Output

/-! ## The operations -/

/-- What threads do with loggers. A formatter that is set is not null, and the listener is called
    for sets on which it completes. -/
inductive OutputOp
  | log (p : LoggerPtr) (level : Level) (event : LogEvent)
  | logLevel (event : LogEvent)
  | setLevel (p : LoggerPtr) (val : Level)
  | setFormatterPtr (p : LoggerPtr) (val : LogFormatter)
  | setFormatter (p : LoggerPtr) (val : String)
  | getFormatter (p : LoggerPtr)
  | addAppender (p : LoggerPtr) (ap : AppenderPtr)
  | clearAppenders (p : LoggerPtr)
  | loggerToYamlString (p : LoggerPtr)
  | newStdoutLogAppender
  | newFileLogAppender (filename : String)
  | appenderSetLevel (i : AppenderPtr) (val : Level)
  | appenderSetFormatter (i : AppenderPtr) (val : LogFormatter)
  | appenderGetFormatter (i : AppenderPtr)
  | appenderToYamlString (i : AppenderPtr)
  | getLogger (name : String)
  | toYamlString
  | logsListener (event : LogEvent) (old_value new_value : LogDefineSet)
      (hnew : ∀ i ∈ new_value, i ∉ old_value ∧ i.Typed)

namespace Output

/-- A program that remembers that it went through a null pointer. -/
def watched (p : OutputProgT Unit) : OutputProg Unit := do
  match ← p.run with
  | .ok () => return ()
  | .error _ => update fun s => { s with crashed := true }

end Output

section
variable (text : FormatItem → Level → LogEvent → List UInt8) (Y : YamlCpp)

/-- The program of an operation. There is no pointer to an appender that is not constructed. -/
def OutputOp.prog : OutputOp → OutputProg Unit
  | log p level event => Output.watched (Output.log text p level event)
  | logLevel event => Output.watched (Output.logLevel text event)
  | setLevel p val => Output.onLog (Locked.setLevel p val)
  | setFormatterPtr p val => Output.onLog (Locked.setFormatterPtr p (some val))
  | setFormatter p val => Output.onLog (Locked.setFormatter p val)
  | getFormatter p => Output.onLog (Locked.getFormatter p).dropped
  | addAppender p ap => do
      if ap < (← Output.state).loggers.nextAppender then Output.onLog (Locked.addAppender p ap)
  | clearAppenders p => Output.onLog (Locked.clearAppenders p)
  | loggerToYamlString p => Output.onLog (Locked.loggerToYamlString Y p).run.dropped
  | newStdoutLogAppender => Output.onLog Locked.newStdoutLogAppender.dropped
  | newFileLogAppender filename => Output.onLog (Locked.newFileLogAppender filename).dropped
  | appenderSetLevel i val => Output.onLog (Locked.appenderSetLevel i val)
  | appenderSetFormatter i val => Output.onLog (Locked.appenderSetFormatter i (some val))
  | appenderGetFormatter i => Output.onLog (Locked.appenderGetFormatter i).dropped
  | appenderToYamlString i => Output.onLog (Locked.appenderToYamlString Y i).run.dropped
  | getLogger name => Output.onLog (Locked.getLogger name).dropped
  | toYamlString => Output.onLog (Locked.toYamlString Y).run.dropped
  | logsListener event old_value new_value _ =>
      Output.watched (Output.logsListener text event old_value new_value)

end

namespace Output

variable {text : FormatItem → Level → LogEvent → List UInt8} {init : String → List UInt8} {W : Prop}

theorem noAppender_nil : NoAppender [] := fun _ he => absurd he List.not_mem_nil

theorem watched_triple {p : OutputProgT Unit} (hp : Finishes text init W [] (fun _ => True) p) :
    Triple (outputD text init W) [] (fun s => s.Inv text init W ∧ True) (watched p)
      fun _ s => s.Inv text init W ∧ True := by
  refine Triple.bind hp fun x => ?_
  cases x with
  | ok _ => exact triple_pure fun s s' hs henv => ⟨(env_inv hs.1 henv).1, trivial⟩
  | error e => exact fun s hs => absurd hs.2 nofun

theorem prog_triple (Y : YamlCpp) (o : OutputOp) :
    Triple (outputD text init W) [] (fun s => s.Inv text init W ∧ True) (o.prog text Y)
      fun _ s => s.Inv text init W ∧ True := by
  have hlog : ∀ {p : LogProg Unit}, Locked.Safe p → Triple (outputD text init W) []
      (fun s => s.Inv text init W ∧ True) (onLog p) fun _ s => s.Inv text init W ∧ True :=
    fun hp => onLog_keeps noAppender_nil hp (R := fun _ => True) fun _ => id
  have hdropped : ∀ {α : Type} {p : LogProg α}, Locked.Safe p → Locked.Safe p.dropped :=
    fun hp => hp.bind fun _ => Locked.safe_pure ()
  cases o with
  | log p level event => exact watched_triple (log_finishes p level event noAppender_nil)
  | logLevel event => exact watched_triple (logLevel_finishes event noAppender_nil)
  | setLevel p val => exact hlog (Locked.setLevel_safe p val)
  | setFormatterPtr p val => exact hlog (Locked.setFormatterPtr_safe p val)
  | setFormatter p val => exact hlog (Locked.setFormatter_safe p val)
  | getFormatter p => exact hlog (hdropped (Locked.getFormatter_safe p))
  | addAppender p ap =>
      refine triple_get_bind (stable_inv []) fun s hs => ?_
      have henv : ∀ s', (outputD text init W).Env [] s s' →
          s'.Inv text init W ∧ s.loggers.Later s'.loggers := fun s' => env_inv hs.1
      split
      · next hap =>
          exact (onLog_triple noAppender_nil (Locked.addAppender_triple [] p ap)).conseq
            (fun s' h' => ⟨(henv s' h').1, (henv s' h').1.sound, (henv s' h').2.exists hap⟩)
            fun _ s hs => ⟨hs.1, trivial⟩
      · exact triple_pure fun s₁ s₂ h₁ h₂ => ⟨(henv s₂ (h₁.trans h₂)).1, trivial⟩
  | clearAppenders p => exact hlog (Locked.clearAppenders_safe p)
  | loggerToYamlString p => exact hlog (hdropped (Locked.loggerToYamlString_safe Y p))
  | newStdoutLogAppender => exact hlog (hdropped Locked.newStdoutLogAppender_safe)
  | newFileLogAppender filename => exact hlog (hdropped (Locked.newFileLogAppender_safe filename))
  | appenderSetLevel i val => exact hlog (Locked.appenderSetLevel_safe i val)
  | appenderSetFormatter i val => exact hlog (Locked.appenderSetFormatter_safe i val)
  | appenderGetFormatter i => exact hlog (hdropped (Locked.appenderGetFormatter_safe i))
  | appenderToYamlString i => exact hlog (hdropped (Locked.appenderToYamlString_safe Y i))
  | getLogger name => exact hlog (hdropped (Locked.getLogger_safe name))
  | toYamlString => exact hlog (hdropped (Locked.toYamlString_safe Y))
  | logsListener event old_value new_value hnew =>
      exact watched_triple (logsListener_finishes event hnew noAppender_nil)

/-! ## The results -/

section
variable {θ : Type} [DecidableEq θ] {Y : YamlCpp} {os : ℕ → Os} {writeOuts : ℕ → WriteOut}
  {c : Pool θ Lock Output}

theorem obeying (hworks : W → ∀ n, (writeOuts n).fails = false)
    (hc : Pool.Reachable (Set.range (OutputOp.prog text Y))
      (Pool.idle (Output.new os writeOuts init)) c) :
    c.Obeying (outputD text init W) (Output.new os writeOuts init) := by
  have hnew : (Output.new os writeOuts init).Inv text init W := .new os hworks init
  refine Pool.obeying ?_ (fun _ i _ _ => ⟨rfl, fun _ => nofun⟩) hc
  rintro p ⟨o, rfl⟩ s hs
  exact (prog_triple Y o s ⟨hs.1 hnew, trivial⟩).mono fun _ _ _ hq => hq.1

/-- **Logging does not crash.** However many threads log, construct and attach appenders, set levels
and formatters, print the loggers and run the listener, however they interleave and whichever writes
fail: no null pointer is followed, and `Logger::log` does not follow `m_root` in a circle. -/
theorem not_crashed (hc : Pool.Reachable (Set.range (OutputOp.prog text Y))
    (Pool.idle (Output.new os writeOuts init)) c) : c.shared.crashed = false :=
  ((obeying False.elim hc).guar.1 (.new os False.elim init)).crashed

/-- **Lines are whole.** In the same runs, if every write is carried out, and while no thread holds
the lock of an appender: what its stream has taken, in the file or still held, is the lines of the
events it has printed, in this order, and in other files it has put nothing. The stream holds
nothing if the last event got out and its pattern ends with `%n`. If no other appender has printed
to the file, it has in it what was there before and these lines, up to what the stream holds. -/
theorem lines_whole (hworks : ∀ n, (writeOuts n).fails = false)
    (hc : Pool.Reachable (Set.range (OutputOp.prog text Y))
      (Pool.idle (Output.new os writeOuts init)) c) {i : AppenderPtr}
    (hfree : ∀ t, (.appender i, .exclusive) ∉ c.held t) :
    (∀ name, c.shared.taken i name =
      if (c.shared.loggers.appender i).cls.file = some name then c.shared.linesOf text i else []) ∧
    c.shared.Settled i ∧
    ∀ name, (∀ b ∈ c.shared.files name, b.1 = none ∨ b.1 = some i) →
      (c.shared.files name).map Prod.snd ++
          (if (c.shared.loggers.appender i).cls.file = some name then c.shared.buffer i else []) =
        init name ++ if (c.shared.loggers.appender i).cls.file = some name then
          c.shared.linesOf text i else [] := by
  have hobeying := obeying (W := True) (fun _ => hworks) hc
  have hinv : c.shared.Inv text init True := hobeying.guar.1 (.new os (fun _ => hworks) init)
  obtain ⟨hline, hsettled⟩ := hobeying.inv (.appender i) hfree i rfl trivial
  have hlines := hinv.lines trivial
  have htaken : ∀ name, c.shared.taken i name =
      if (c.shared.loggers.appender i).cls.file = some name then c.shared.linesOf text i
      else [] := by
    intro name
    rw [hlines.taken, hline, List.append_nil]
  refine ⟨htaken, hsettled, fun name halone => ?_⟩
  obtain ⟨rest, hfiles, hrest⟩ := hlines.front name
  rw [← htaken, taken, bytesOf]
  have hown : ∀ b ∈ rest, b.1 = some i := by
    intro b hb
    exact (halone b (hfiles ▸ List.mem_append_right _ hb)).resolve_left (hrest b hb)
  have hfilter : rest.filter (fun b => b.1 = some i) = rest :=
    List.filter_eq_self.2 fun b hb => decide_eq_true (hown b hb)
  have hold : ((init name).map fun b => ((none : Option AppenderPtr), b)).filter
      (fun b => b.1 = some i) = [] :=
    List.filter_eq_nil_iff.2 fun b hb => by
      obtain ⟨-, -, rfl⟩ := List.mem_map.1 hb
      simp
  rw [hfiles, List.filter_append, hold, hfilter, List.map_append, List.map_map, List.nil_append,
    ← List.append_assoc]
  exact congrArg (· ++ _ ++ _) (List.map_id _)

end

/-! ## Two threads that log -/

/-- The message and the end of the line. -/
def sampleText (item : FormatItem) (_ : Level) (event : LogEvent) : List UInt8 :=
  match item with
  | .messageFormatItem => bytes event.getContent
  | .newLineFormatItem => [10]
  | _ => []

/-- A stream writes what it holds when it has to. -/
def sampleNew : Output :=
  Output.new (fun _ => ⟨1, true, true⟩) (fun _ => ⟨0, false⟩) fun _ => bytes "0"

def sampleEvent (content : String) : LogEvent :=
  ⟨"main.cpp", 1, 0, 1, 0, 1, "main", content, "root", .info⟩

/-- The first thread is in the middle of a line when the second one wants to log an event too. -/
def sampleMoves : List (Pool.Move Bool OutputOp) := [
  .start false (.setFormatter "root" "%m%n"), .steps false 20,
  .start false (.newFileLogAppender "a"), .steps false 20,
  .start false (.addAppender "root" 1), .steps false 20,
  .start false (.log "root" .info (sampleEvent "x")), .steps false 24,
  .start true (.logLevel (sampleEvent "y")), .steps true 10]

/-- Then both of them finish. -/
def sampleRest : List (Pool.Move Bool OutputOp) := [.steps false 10, .steps true 40]

/-- The threads of the sample, after some moves. -/
noncomputable def samplePool (moves : List (Pool.Move Bool OutputOp)) : Pool Bool Lock Output :=
  Pool.follow (OutputOp.prog sampleText (YamlCpp.flow .null "")) moves (Pool.idle sampleNew)

theorem samplePool_reachable (moves : List (Pool.Move Bool OutputOp)) :
    Pool.Reachable (Set.range (OutputOp.prog sampleText (YamlCpp.flow .null "")))
      (Pool.idle sampleNew) (samplePool moves) :=
  Pool.reachable_follow _ moves _

theorem not_crashed_sample :
    (samplePool sampleMoves).shared.line 1 = bytes "x" ∧
      (samplePool sampleMoves).WaitsFor true false ∧
      (samplePool (sampleMoves ++ sampleRest)).shared.printed.map (fun p => p.event.getContent) =
        ["x", "x", "y", "y"] ∧
      (samplePool (sampleMoves ++ sampleRest)).shared.crashed = false := by
  exact ⟨by decide +kernel, by decide +kernel, by decide +kernel,
    not_crashed (samplePool_reachable _)⟩

theorem lines_whole_sample :
    (samplePool (sampleMoves ++ sampleRest)).shared.linesOf sampleText 1 = bytes "x\ny\n" ∧
      (samplePool (sampleMoves ++ sampleRest)).shared.Settled 1 ∧
      ((samplePool (sampleMoves ++ sampleRest)).shared.files "a").map Prod.snd =
        bytes "0" ++ (samplePool (sampleMoves ++ sampleRest)).shared.linesOf sampleText 1 := by
  have hfree : ∀ t, (Lock.appender 1, LockMode.exclusive) ∉
      (samplePool (sampleMoves ++ sampleRest)).held t := by decide +kernel
  obtain ⟨-, hsettled, hwhole⟩ :=
    lines_whole (fun _ => rfl) (samplePool_reachable (sampleMoves ++ sampleRest)) hfree
  refine ⟨by decide +kernel, hsettled, ?_⟩
  have hfile : ((samplePool (sampleMoves ++ sampleRest)).shared.loggers.appender 1).cls.file =
      some "a" := by decide +kernel
  have hbuffer : (samplePool (sampleMoves ++ sampleRest)).shared.buffer 1 = [] := by
    decide +kernel
  have hall := hwhole "a" (by decide +kernel)
  rwa [if_pos hfile, if_pos hfile, hbuffer, List.append_nil] at hall

end Output

end Ipmsg
