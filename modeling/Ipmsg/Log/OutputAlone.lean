import Ipmsg.Log.OutputStream
import Ipmsg.Log.Interleaved
import Ipmsg.Log.LogFile

set_option autoImplicit false

/-! # One log call

A log call that no other thread interferes with prints the event with each appender that receives it
and has it pass. As long as the system grants every open and carries out every write, all of the
text gets out: to `std::cout`, or to the stream of the file. What a stream takes is in its file as
soon as the pattern ends with `%n`. -/

namespace Ipmsg

open Prog

variable (text : FormatItem → Level → LogEvent → List UInt8)

/-- What of an event is meant for `std::cout`. -/
def Printed.onConsole (loggers : LogState) (p : Printed) : List UInt8 :=
  if (loggers.appender p.appender).cls.file = none then p.line text else []

/-- What of an event is meant for the file `name`. -/
def Printed.bytesIn (loggers : LogState) (name : String) (p : Printed) :
    List (Option AppenderPtr × UInt8) :=
  if (loggers.appender p.appender).cls.file = some name then
    (p.line text).map fun b => (some p.appender, b)
  else []

/-- The system grants everything, and the streams of the file appenders are open and good. -/
structure LogState.Flows (x : LogState) : Prop where
  opens : ∀ n, (x.os n).opens = true
  writes : ∀ n, (x.os n).writes = true
  stream : ∀ i members, (x.appender i).cls = .fileLogAppender members →
    members.m_filestream = { is_open := true }

theorem LogState.Flows.modifyAppender {x : LogState} (h : x.Flows) (i : AppenderPtr)
    {a : LogAppender} (ha : ∀ members, a.cls = .fileLogAppender members →
      members.m_filestream = { is_open := true }) : (x.modifyAppender i fun _ => a).Flows := by
  refine ⟨h.opens, h.writes, fun j members hcls => ?_⟩
  replace hcls : (Function.update x.appender i a j).cls = .fileLogAppender members := hcls
  by_cases hji : j = i
  · rw [hji, Function.update_self] at hcls
    exact ha members hcls
  · rw [Function.update_of_ne hji] at hcls
    exact h.stream j members hcls

namespace FileLogAppender

theorem accepts_of_open {a : FileLogAppender} (h : a.m_filestream = { is_open := true }) :
    a.accepts = true := by
  rw [accepts, h]
  rfl

theorem refresh_open {a : FileLogAppender} (h : a.m_filestream = { is_open := true }) {os : Os}
    (hopens : os.opens = true) : (a.refresh os).m_filestream = { is_open := true } := by
  unfold refresh
  split
  · exact (Sound.reopen_stream (Or.inl h) os).trans (if_pos hopens)
  · exact h

theorem write_open {a : FileLogAppender} (h : a.m_filestream = { is_open := true }) {os : Os}
    (hwrites : os.writes = true) (f : LogFormatter) :
    (a.write os f).m_filestream = { is_open := true } := by
  unfold write
  split
  · exact h
  · rw [h, hwrites]
    rfl

/-- A stream is good after it has taken some text, and not if it takes none. -/
theorem write_good (a : FileLogAppender) (os : Os) {f : LogFormatter} (hitems : f.m_items ≠ []) :
    (a.write { os with writes := a.accepts } f).m_filestream.good = a.accepts := by
  obtain ⟨-, ⟨is_open, failbit, badbit⟩, -⟩ := a
  rw [write, if_neg hitems]
  cases is_open <;> cases failbit <;> cases badbit <;> rfl

end FileLogAppender

namespace Output

/-! ## What has been printed -/

/-- The bytes an appender has put in a file. -/
def bytesOf (s : Output) (i : AppenderPtr) (name : String) : List UInt8 :=
  ((s.files name).filter fun b => b.1 = some i).map Prod.snd

/-- What the stream of an appender has taken for a file: it is in the file or still held. -/
def taken (s : Output) (i : AppenderPtr) (name : String) : List UInt8 :=
  s.bytesOf i name ++ if (s.loggers.appender i).cls.file = some name then s.buffer i else []

/-- No stream holds anything. -/
def Flushed (s : Output) : Prop := ∀ i, s.buffer i = []

/-- The system grants everything, every write is carried out, and the streams are open and good. -/
structure Flows (s : Output) : Prop where
  loggers : s.loggers.Flows
  works : s.Works

/-- All of the text of the events `new` gets out, and nothing else. -/
structure Whole (s s' : Output) (new : List Printed) : Prop where
  flows : s'.Flows
  done : ∀ p ∈ new, p.done = true
  console : s'.console = s.console ++ new.flatMap (Printed.onConsole text s.loggers)
  taken : ∀ i name, s'.taken i name = s.taken i name ++
    (new.filter fun p => p.appender = i).flatMap fun p =>
      (Printed.bytesIn text s.loggers name p).map Prod.snd
  files : s.Flushed → (∀ p ∈ new, p.formatter.EndsLine) → s'.Flushed ∧
    ∀ name, s'.files name = s.files name ++ new.flatMap (Printed.bytesIn text s.loggers name)

/-- The events `new` have been printed, and no other. -/
structure Prints (s s' : Output) (new : List Printed) : Prop where
  printed : s'.printed = s.printed ++ new
  same : LogState.SameConfig s.loggers s'.loggers
  whole : s.Flows → Whole text s s' new

variable {text}

theorem Whole.refl {s : Output} (h : s.Flows) : Whole text s s [] :=
  ⟨h, fun _ hp => absurd hp List.not_mem_nil, (List.append_nil _).symm,
    fun _ _ => (List.append_nil _).symm, fun h _ => ⟨h, fun _ => (List.append_nil _).symm⟩⟩

theorem Prints.refl (s : Output) : Prints text s s [] :=
  ⟨(List.append_nil _).symm, .refl _, .refl⟩

/-- An appender keeps its class and its file. -/
theorem Prints.file {s s' : Output} {new : List Printed} (h : Prints text s s' new)
    (i : AppenderPtr) : (s'.loggers.appender i).cls.file = (s.loggers.appender i).cls.file :=
  congrArg AppenderView.file (h.same.view i)

theorem Prints.trans {s s' s'' : Output} {new new' : List Printed} (h : Prints text s s' new)
    (h' : Prints text s' s'' new') : Prints text s s'' (new ++ new') := by
  refine ⟨?_, h.same.trans h'.same, fun hflows => ?_⟩
  · rw [h'.printed, h.printed, List.append_assoc]
  · have hwhole := h.whole hflows
    have hwhole' := h'.whole hwhole.flows
    have hconsole : Printed.onConsole text s'.loggers = Printed.onConsole text s.loggers := by
      funext p
      rw [Printed.onConsole, Printed.onConsole, h.file]
    have hbytes : ∀ name, Printed.bytesIn text s'.loggers name =
        Printed.bytesIn text s.loggers name := by
      intro name
      funext p
      rw [Printed.bytesIn, Printed.bytesIn, h.file]
    refine ⟨hwhole'.flows, fun p hp => ?_, ?_, fun i name => ?_, fun hflushed hends => ?_⟩
    · exact (List.mem_append.1 hp).elim (hwhole.done p) (hwhole'.done p)
    · rw [hwhole'.console, hwhole.console, hconsole, List.flatMap_append, List.append_assoc]
    · rw [hwhole'.taken, hwhole.taken, hbytes, List.filter_append, List.flatMap_append,
        List.append_assoc]
    · obtain ⟨hends, hends'⟩ := List.forall_mem_append.1 hends
      obtain ⟨hflushed, hfiles⟩ := hwhole.files hflushed hends
      obtain ⟨hflushed', hfiles'⟩ := hwhole'.files hflushed hends'
      refine ⟨hflushed', fun name => ?_⟩
      rw [hfiles', hfiles, hbytes, List.flatMap_append, List.append_assoc]

/-- What appenders that receive an event make of it. -/
def passed (x : LogState) (level : Level) (event : LogEvent) (is : List AppenderPtr) :
    List (AppenderPtr × Level × LogEvent × Option LogFormatter) :=
  (is.filter fun i => (x.appender i).m_level.toNat ≤ level.toNat).map fun i =>
    (i, level, event, (x.appender i).m_formatter)

/-- What has been printed, but for whether the stream was good. -/
def entries (new : List Printed) : List (AppenderPtr × Level × LogEvent × Option LogFormatter) :=
  new.map fun p => (p.appender, p.level, p.event, some p.formatter)

theorem onLog_run {α : Type} (p : LogProg α) (s : Output) :
    (onLog p).run s = ((p.run s.loggers).1, s.setLoggers (p.run s.loggers).2) := by
  refine run_zoom ?_ ?_ ?_ p s
  · exact fun _ _ => rfl
  · exact fun _ => rfl
  · exact fun _ _ _ => rfl

/-! ## The streams of the appenders -/

/-- The bytes of other appenders, and those in other files, stay. -/
theorem Takes.bytesOf {i : AppenderPtr} {name : String} {b : List UInt8} {s s' : Output}
    (h : Takes i name b s s') :
    ∃ moved, s'.bytesOf i name = s.bytesOf i name ++ moved ∧
      moved ++ s'.buffer i = s.buffer i ++ b ∧
      (∀ j name', j ≠ i ∨ name' ≠ name → s'.bytesOf j name' = s.bytesOf j name') ∧
      ∀ j, j ≠ i → s'.buffer j = s.buffer j := by
  obtain ⟨moved, held, turn, rfl, heq⟩ := h
  refine ⟨moved, ?_, ?_, fun j name' hne => ?_, fun j hj => Function.update_of_ne hj _ _⟩
  · show ((Function.update s.files name _ name).filter _).map _ = _
    rw [Function.update_self, List.filter_append, List.map_append]
    simp [Output.bytesOf, List.filter_map, Function.comp_def]
  · rwa [streamed_buffer]
  · show ((Function.update s.files name _ name').filter _).map _ = _
    by_cases hname : name' = name
    · have hj : i ≠ j := (hne.resolve_right (not_not_intro hname)).symm
      rw [hname, Function.update_self, List.filter_append]
      simp [Output.bytesOf, List.filter_map, Function.comp_def, hj]
    · rw [Function.update_of_ne hname]
      rfl

theorem Takes.setLoggers {i : AppenderPtr} {name : String} {b : List UInt8} {s s' : Output}
    (h : Takes i name b s s') (x : LogState) :
    Takes i name b (s.setLoggers x) (s'.setLoggers x) := by
  obtain ⟨moved, held, turn, rfl, heq⟩ := h
  exact ⟨moved, held, turn, rfl, heq⟩

/-- The text of one event has been taken by the stream of a file. -/
theorem whole_of_takes {i : AppenderPtr} {name : String} {s s₁ s' : Output} {x : LogState}
    {p : Printed} (hp : p.appender = i) (hdone : p.done = true)
    (hfile : (s.loggers.appender i).cls.file = some name)
    (hsame : ∀ j, (s'.loggers.appender j).cls.file = (s.loggers.appender j).cls.file)
    (hflows : s'.Flows) (htakes : Takes i name (p.line text) (s.setLoggers x) s₁)
    (hempty : p.formatter.EndsLine → s₁.buffer i = []) (hfiles : s'.files = s₁.files)
    (hbuffer : s'.buffer = s₁.buffer) (hconsole : s'.console = s.console) :
    Whole text s s' [p] := by
  subst hp
  obtain ⟨moved, hmoved, hall, hbytes, hother⟩ := htakes.bytesOf
  have hs' : ∀ j name', s'.bytesOf j name' = s₁.bytesOf j name' := by
    intro j name'
    rw [bytesOf, bytesOf, hfiles]
  refine ⟨hflows, fun q hq => ?_, ?_, fun j name' => ?_, fun hflushed hends => ?_⟩
  · rw [List.mem_singleton.1 hq, hdone]
  · rw [hconsole, List.flatMap_singleton, Printed.onConsole, hfile, if_neg nofun, List.append_nil]
  · rw [taken, taken, hs', hsame, hbuffer]
    by_cases hj : j = p.appender
    · subst hj
      rw [List.filter_cons_of_pos (by simp), List.filter_nil, List.flatMap_singleton,
        Printed.bytesIn, hfile]
      by_cases hname : name = name'
      · subst hname
        rw [if_pos rfl, if_pos rfl, if_pos rfl, hmoved, List.append_assoc, hall,
          List.map_map, Function.comp_def, List.map_id', ← List.append_assoc]
        rfl
      · have hne : ¬ some name = some name' := fun heq => hname (Option.some.inj heq)
        rw [if_neg hne, if_neg hne, if_neg hne, hbytes _ _ (Or.inr (Ne.symm hname))]
        simp [bytesOf, Output.setLoggers]
    · rw [List.filter_cons_of_neg (by simpa using Ne.symm hj), hbytes _ _ (Or.inl hj),
        hother j hj]
      exact (List.append_nil _).symm
  · have hnone := hempty (hends p (List.mem_singleton.2 rfl))
    obtain ⟨moved, held, turn, rfl, heq⟩ := htakes
    rw [streamed_buffer] at hnone
    have hline : moved = p.line text := by
      have hstart : (s.setLoggers x).buffer p.appender = [] := hflushed p.appender
      rw [hnone, hstart, List.append_nil, List.nil_append] at heq
      exact heq
    refine ⟨fun j => ?_, fun name' => ?_⟩
    · rw [hbuffer]
      show Function.update s.buffer p.appender held j = []
      by_cases hj : j = p.appender
      · rw [hj, Function.update_self, hnone]
      · rw [Function.update_of_ne hj, hflushed]
    · rw [hfiles, List.flatMap_singleton, Printed.bytesIn, hfile, hline]
      show Function.update s.files name _ name' = _
      by_cases hname : name' = name
      · rw [hname, Function.update_self, if_pos rfl]
        rfl
      · rw [Function.update_of_ne hname, if_neg fun heq => hname (Option.some.inj heq).symm,
          List.append_nil]

/-- The text of one event has been printed to `std::cout`. -/
theorem whole_of_console {i : AppenderPtr} {s s' : Output} {p : Printed} (hp : p.appender = i)
    (hdone : p.done = true) (hfile : (s.loggers.appender i).cls.file = none)
    (hsame : ∀ j, (s'.loggers.appender j).cls.file = (s.loggers.appender j).cls.file)
    (hflows : s'.Flows) (hfiles : s'.files = s.files) (hbuffer : s'.buffer = s.buffer)
    (hconsole : s'.console = s.console ++ p.line text) : Whole text s s' [p] := by
  subst hp
  have hnone : ∀ name, Printed.bytesIn text s.loggers name p = [] := by
    intro name
    rw [Printed.bytesIn, hfile, if_neg nofun]
  refine ⟨hflows, fun q hq => ?_, ?_, fun j name => ?_, fun hflushed _ => ⟨?_, fun name => ?_⟩⟩
  · rw [List.mem_singleton.1 hq, hdone]
  · rw [hconsole, List.flatMap_singleton, Printed.onConsole, if_pos hfile]
  · have hline : (List.filter (fun p => p.appender = j) [p]).flatMap
        (fun p => (Printed.bytesIn text s.loggers name p).map Prod.snd) = [] := by
      rw [List.flatMap_eq_nil_iff]
      intro q hq
      rw [List.mem_singleton.1 (List.mem_of_mem_filter hq), hnone, List.map_nil]
    rw [taken, taken, bytesOf, bytesOf, hsame, hfiles, hbuffer, hline, List.append_nil]
  · exact fun j => hbuffer ▸ hflushed j
  · rw [hfiles, List.flatMap_singleton, hnone, List.append_nil]

/-! ## Appenders -/

/-- What `reopen` does; a stream that is open and good writes first what it holds. -/
theorem reopen_run {i : AppenderPtr} (os : Os) {s : Output} {members : FileLogAppender}
    (hcls : (s.loggers.appender i).cls = .fileLogAppender members) :
    ∃ s', (reopen i os).run s = ((), s') ∧
      s'.loggers = Locked.modifyFile i (fun members => (members.reopen os).1) s.loggers ∧
      s'.printed = s.printed ∧ s'.writeOuts = s.writeOuts ∧
      (s.Works → (members.reopen os).2 = true →
        ∃ s₁ x, Takes i members.m_filename [] s s₁ ∧ s' = s₁.setLoggers x) := by
  have hbody : (reopen i os).run s = Prog.run (do
      if members.accepts then close i members.m_filename
      update fun s =>
        s.setLoggers (Locked.modifyFile i (fun members => (members.reopen os).1) s.loggers)
      if !(members.reopen os).2 then cout (bytes "!!!! open error !!!!\n")) s := by
    have hstate : Prog.run state s = (s, s) := rfl
    rw [reopen, run_locked, run_bind, hstate]
    dsimp only
    rw [hcls]
  obtain ⟨s₁, hclose, hloggers, hprinted, hwriteOuts, htakes⟩ : ∃ s₁,
      Prog.run (if members.accepts then close i members.m_filename else return ()) s = ((), s₁) ∧
      s₁.loggers = s.loggers ∧ s₁.printed = s.printed ∧ s₁.writeOuts = s.writeOuts ∧
      (s.Works → Takes i members.m_filename [] s s₁) := by
    split
    · exact close_run i members.m_filename s
    · exact ⟨s, rfl, rfl, rfl, rfl, fun _ => .refl s⟩
  obtain ⟨s₂, hs₂⟩ : ∃ s₂, s₂ = s₁.setLoggers
      (Locked.modifyFile i (fun members => (members.reopen os).1) s₁.loggers) := ⟨_, rfl⟩
  have hrest : (reopen i os).run s = Prog.run
      (if !(members.reopen os).2 then cout (bytes "!!!! open error !!!!\n") else return ()) s₂ := by
    rw [hbody, hs₂]
    by_cases haccepts : members.accepts = true
    · rw [if_pos haccepts] at hclose ⊢
      rw [run_bind, hclose]
      rfl
    · rw [if_neg haccepts] at hclose ⊢
      obtain rfl : s = s₁ := (Prod.mk.inj hclose).2
      rfl
  have hs₂' : s₂.loggers = Locked.modifyFile i (fun members => (members.reopen os).1) s.loggers ∧
      s₂.printed = s.printed ∧ s₂.writeOuts = s.writeOuts := by
    rw [hs₂, ← hloggers]
    exact ⟨rfl, hprinted, hwriteOuts⟩
  cases hopened : (members.reopen os).2 with
  | true =>
      rw [hopened] at hrest
      refine ⟨s₂, hrest, hs₂'.1, hs₂'.2.1, hs₂'.2.2, fun hworks _ => ⟨s₁, _, htakes hworks, hs₂⟩⟩
  | false =>
      rw [hopened] at hrest
      refine ⟨_, hrest.trans (cout_run _ s₂), hs₂'.1, hs₂'.2.1, hs₂'.2.2, fun _ hno =>
        absurd hno Bool.false_ne_true⟩

variable (text)

theorem couts_run (level : Level) (event : LogEvent) (items : List FormatItem) : ∀ s : Output,
    Prog.run (items.foldlM (fun _ item => cout (text item level event)) ()) s = ((), { s with
      console := s.console ++ items.flatMap fun item => text item level event }) := by
  induction items with
  | nil =>
      intro s
      simp
  | cons item items ih =>
      intro s
      rw [List.foldlM_cons, run_bind, cout_run, ih, List.flatMap_cons, ← List.append_assoc]

/-- What is printed to `std::cout`. -/
theorem print_stdout (level : Level) (event : LogEvent) {i : AppenderPtr} (os : Os)
    (f : LogFormatter) {s : Output} (hcls : (s.loggers.appender i).cls = .stdoutLogAppender) :
    ∃ s', (print text level event i os f .stdoutLogAppender).run s = ((), s') ∧
      s'.loggers = s.loggers ∧ s'.printed = s.printed ++ [⟨i, level, event, f, true⟩] ∧
      s'.writeOuts = s.writeOuts ∧ s'.files = s.files ∧ s'.buffer = s.buffer ∧
      s'.console = s.console ++ f.lineOf text level event := by
  have hsame : Locked.modifyFile i (fun members => members.write os f) s.loggers = s.loggers := by
    have hmodify := Locked.modifyFile_stdout hcls i (fun members => members.write os f) s.loggers
    rwa [Locked.modifyAppender_self] at hmodify
  rw [print, run_bind, couts_run]
  exact ⟨_, rfl, hsame, rfl, rfl, rfl, rfl, rfl⟩

/-- What is printed to a file. -/
theorem print_file (level : Level) (event : LogEvent) (i : AppenderPtr) (os : Os) (f : LogFormatter)
    (members : FileLogAppender) (s : Output) :
    ∃ ok done s', (print text level event i os f (.fileLogAppender members)).run s = ((), s') ∧
      s'.loggers =
        Locked.modifyFile i (fun members => members.write { os with writes := ok } f) s.loggers ∧
      s'.printed = s.printed ++ [⟨i, level, event, f, done⟩] ∧ s'.writeOuts = s.writeOuts ∧
      (s.Works → members.m_filestream = { is_open := true } → ok = true ∧ done = true ∧
        ∃ s₁, Takes i members.m_filename (f.lineOf text level event) s s₁ ∧
          (f.EndsLine → s₁.buffer i = []) ∧ s'.files = s₁.files ∧ s'.buffer = s₁.buffer ∧
          s'.console = s₁.console) := by
  obtain ⟨ok, bytes, s₁, hrun, htakes, hgood⟩ := formatTo_run text level event i members f s
  obtain ⟨done, hdone⟩ : ∃ done,
      done = (members.write { os with writes := ok } f).m_filestream.good := ⟨_, rfl⟩
  obtain ⟨s₂, hs₂⟩ : ∃ s₂ : Output, s₂ = { s₁ with
      loggers :=
        Locked.modifyFile i (fun members => members.write { os with writes := ok } f) s₁.loggers
      line := Function.update s₁.line i []
      printed := s₁.printed ++ [⟨i, level, event, f, done⟩] } := ⟨_, rfl⟩
  have hrest : (print text level event i os f (.fileLogAppender members)).run s =
      Prog.run (if !done then cout (Ipmsg.bytes "error\n") else return ()) s₂ := by
    rw [print, run_bind, hrun, hdone, hs₂, hdone]
    rfl
  have hs₂' : s₂.loggers = Locked.modifyFile i
      (fun members => members.write { os with writes := ok } f) s.loggers ∧
      s₂.printed = s.printed ++ [⟨i, level, event, f, done⟩] ∧ s₂.writeOuts = s.writeOuts := by
    rw [hs₂, ← htakes.loggers, ← htakes.printed]
    exact ⟨rfl, rfl, htakes.writeOuts⟩
  cases done with
  | true =>
      refine ⟨ok, true, s₂, hrest, hs₂'.1, hs₂'.2.1, hs₂'.2.2, fun hworks hopen => ?_⟩
      obtain ⟨hok, rfl, hempty⟩ := hgood hworks (FileLogAppender.accepts_of_open hopen)
      refine ⟨hok, rfl, s₁, htakes, hempty, ?_⟩
      rw [hs₂]
      exact ⟨rfl, rfl, rfl⟩
  | false =>
      refine ⟨ok, false, _, hrest.trans (cout_run _ s₂), hs₂'.1, hs₂'.2.1, hs₂'.2.2,
        fun hworks hopen => ?_⟩
      -- a stream that has taken all of the text is good
      obtain ⟨rfl, -, -⟩ := hgood hworks (FileLogAppender.accepts_of_open hopen)
      rw [FileLogAppender.write_open hopen rfl] at hdone
      exact absurd hdone (by decide)

/-- What `m_formatter->format(...)` does. -/
theorem format_run (level : Level) (event : LogEvent) (i : AppenderPtr) (os : Os) {s : Output}
    {f : LogFormatter} (hf : (s.loggers.appender i).m_formatter = some f) :
    Prog.run (format text level event i os).run s = (.ok f,
      (Prog.run (print text level event i os f (s.loggers.appender i).cls) s).2) := by
  have hrun : Prog.run (format text level event i os).run s = Prog.run (do
      let f ← Prog.ofExcept (s.loggers.appender i).derefFormatter
      liftM (print text level event i os f (s.loggers.appender i).cls)
      return f : OutputProgT LogFormatter).run s := (run_locked ..).trans rfl
  rw [hrun, LogAppender.derefFormatter_of_some hf]
  exact run_lift_bindT (print text level event i os f (s.loggers.appender i).cls)
    (fun _ => (Pure.pure f : OutputProgT LogFormatter)) s

/-- A file that is due is reopened before the call writes. -/
theorem refresh_run {level : Level} (event : LogEvent) {i : AppenderPtr} {s : Output}
    {members : FileLogAppender}
    (hlevel : (s.loggers.appender i).m_level.toNat ≤ level.toNat)
    (hcls : (s.loggers.appender i).cls = .fileLogAppender members) :
    ∃ t, Prog.run (appenderLog text level event i).run s =
        Prog.run (do return some (← format text level event i (s.loggers.os s.loggers.tick)) :
          OutputProgT _).run t ∧
      t.loggers = s.loggers.modifyAppender i (fun _ => { s.loggers.appender i with
        cls := .fileLogAppender (members.refresh (s.loggers.os s.loggers.tick)) }) ∧
      t.printed = s.printed ∧ t.writeOuts = s.writeOuts ∧
      (s.Works → (members.refresh (s.loggers.os s.loggers.tick)).m_filestream.good = true →
        t.console = s.console ∧ Takes i members.m_filename [] (s.setLoggers t.loggers) t) := by
  have hstart : Prog.run (appenderLog text level event i).run s = Prog.run (do
      if (s.loggers.os s.loggers.tick).time ≠ members.m_lastTime then
        liftM (reopen i (s.loggers.os s.loggers.tick))
        liftM (onLog (Locked.update (Locked.modifyFile i fun members =>
          { members with m_lastTime := (s.loggers.os s.loggers.tick).time })))
      return some (← format text level event i (s.loggers.os s.loggers.tick)) :
        OutputProgT _).run s := by
    show Prog.run (ExceptT.run
      (if (s.loggers.appender i).m_level.toNat ≤ level.toNat then _ else _)) s = _
    rw [if_pos hlevel, hcls]
  by_cases htime : (s.loggers.os s.loggers.tick).time = members.m_lastTime
  · have hsame : s.loggers.modifyAppender i (fun _ => { s.loggers.appender i with
        cls := .fileLogAppender (members.refresh (s.loggers.os s.loggers.tick)) }) =
        s.loggers := by
      rw [FileLogAppender.refresh, if_neg (not_not_intro htime), ← hcls]
      exact Locked.modifyAppender_self s.loggers i
    refine ⟨s, ?_, hsame.symm, rfl, rfl, fun _ _ => ⟨rfl, .refl s⟩⟩
    rw [hstart, if_neg (not_not_intro htime)]
  · obtain ⟨t, hrun, hloggers, hprinted, hwriteOuts, htakes⟩ :=
      reopen_run (s.loggers.os s.loggers.tick) hcls
    have hopen := Locked.modifyFile_modifyAppender hcls i
      (fun members => (members.reopen (s.loggers.os s.loggers.tick)).1) s.loggers
    rw [Locked.modifyAppender_self] at hopen
    have hstamp := Locked.modifyFile_modifyAppender (a := { s.loggers.appender i with
        cls := .fileLogAppender (members.reopen (s.loggers.os s.loggers.tick)).1 }) rfl i
      (fun members => { members with m_lastTime := (s.loggers.os s.loggers.tick).time }) s.loggers
    have hrefresh : Locked.modifyFile i
        (fun members => { members with m_lastTime := (s.loggers.os s.loggers.tick).time })
        t.loggers = s.loggers.modifyAppender i (fun _ => { s.loggers.appender i with
          cls := .fileLogAppender (members.refresh (s.loggers.os s.loggers.tick)) }) := by
      rw [hloggers, hopen, hstamp, FileLogAppender.refresh, if_pos htime]
    refine ⟨t.setLoggers _, ?_, hrefresh, hprinted, hwriteOuts, fun hworks hgood => ?_⟩
    · rw [hstart, if_pos htime, run_lift_bindT, hrun, run_lift_bindT, onLog_run]
      rfl
    · rw [FileLogAppender.refresh, if_pos htime] at hgood
      obtain ⟨s₁, x, hfirst, rfl⟩ := htakes hworks hgood
      exact ⟨hfirst.console, hfirst.setLoggers _⟩

theorem formatted_run (level : Level) (event : LogEvent) (i : AppenderPtr) (os : Os) {s : Output}
    {f : LogFormatter} (hf : (s.loggers.appender i).m_formatter = some f) :
    Prog.run (do return some (← format text level event i os) : OutputProgT _).run s =
      (.ok (some f),
        (Prog.run (print text level event i os f (s.loggers.appender i).cls) s).2) := by
  have hbind := run_bindT (format text level event i os) (fun f => Pure.pure (some f)) s
  rw [format_run text level event i os hf] at hbind
  exact hbind

/-- What the `log` of an appender does: to the loggers what it does where nothing is printed, if the
    stream takes as much, and the event is printed if the level passes. -/
def Logs (level : Level) (event : LogEvent) (i : AppenderPtr) (s : Output) : Prop :=
  ∃ s' a w ok new, Prog.run (appenderLog text level event i).run s = (.ok w, s') ∧
    (s.loggers.appender i).log { s.loggers.os s.loggers.tick with writes := ok } level =
      .ok (a, w) ∧
    s'.loggers = s.loggers.modifyAppender i (fun _ => a) ∧ s'.printed = s.printed ++ new ∧
    entries new = passed s.loggers level event [i] ∧
    (s.Flows → ok = true ∧ Whole text s s' new)

section
variable {level : Level} {i : AppenderPtr} {s : Output} {f : LogFormatter}

/-- The entry of an event that passes. -/
theorem entries_passed (event : LogEvent) (hf : (s.loggers.appender i).m_formatter = some f)
    (hlevel : (s.loggers.appender i).m_level.toNat ≤ level.toNat) (done : Bool) :
    entries [⟨i, level, event, f, done⟩] = passed s.loggers level event [i] := by
  simp [entries, passed, hlevel, hf]

theorem appenderLog_stdout (event : LogEvent) (hf : (s.loggers.appender i).m_formatter = some f)
    (hlevel : (s.loggers.appender i).m_level.toNat ≤ level.toNat)
    (hcls : (s.loggers.appender i).cls = .stdoutLogAppender) : Logs text level event i s := by
  obtain ⟨s', hrun, hloggers, hprinted, hwriteOuts, hfiles, hbuffer, hconsole⟩ :=
    print_stdout text level event (s.loggers.os s.loggers.tick) f hcls
  refine ⟨s', s.loggers.appender i, some f, true, [⟨i, level, event, f, true⟩], ?_, ?_, ?_,
    hprinted, entries_passed event hf hlevel true, fun hflows => ⟨rfl, ?_⟩⟩
  · have hcall := formatted_run text level event i (s.loggers.os s.loggers.tick) hf
    rw [hcls, hrun] at hcall
    rw [← hcall]
    show Prog.run (ExceptT.run
      (if (s.loggers.appender i).m_level.toNat ≤ level.toNat then _ else _)) s = _
    rw [if_pos hlevel, hcls]
  · rw [LogAppender.log, if_pos hlevel, LogAppender.derefFormatter_of_some hf, hcls]
    rfl
  · rw [hloggers, Locked.modifyAppender_self]
  · have hfile : (s.loggers.appender i).cls.file = none := by
      rw [hcls]
      rfl
    refine whole_of_console rfl rfl hfile (fun j => by rw [hloggers]) ⟨?_, fun n => ?_⟩ hfiles
      hbuffer hconsole
    · exact hloggers ▸ hflows.loggers
    · exact hwriteOuts ▸ hflows.works n

/-- An appender with a file keeps its file. -/
theorem file_of_write {members members' : FileLogAppender} {x : LogState}
    (hcls : (s.loggers.appender i).cls = .fileLogAppender members)
    (hname : members'.m_filename = members.m_filename)
    (hx : x = s.loggers.modifyAppender i fun _ =>
      { s.loggers.appender i with cls := .fileLogAppender members' }) (j : AppenderPtr) :
    (x.appender j).cls.file = (s.loggers.appender j).cls.file := by
  rw [hx]
  show (Function.update s.loggers.appender i _ j).cls.file = _
  by_cases hj : j = i
  · rw [hj, Function.update_self, hcls]
    exact congrArg some hname
  · rw [Function.update_of_ne hj]

theorem appenderLog_file (event : LogEvent) (hf : (s.loggers.appender i).m_formatter = some f)
    (hlevel : (s.loggers.appender i).m_level.toNat ≤ level.toNat) {members : FileLogAppender}
    (hcls : (s.loggers.appender i).cls = .fileLogAppender members) : Logs text level event i s := by
  obtain ⟨t, hrefresh, hloggers, hprinted, hwriteOuts, htakes⟩ :=
    refresh_run text event hlevel hcls
  have hself : t.loggers.appender i = { s.loggers.appender i with
      cls := .fileLogAppender (members.refresh (s.loggers.os s.loggers.tick)) } := by
    rw [hloggers]
    exact Function.update_self ..
  have hft : (t.loggers.appender i).m_formatter = some f := by
    rw [hself]
    exact hf
  obtain ⟨ok, done, s', hrun, hloggers', hprinted', hwriteOuts', hwhole⟩ :=
    print_file text level event i (s.loggers.os s.loggers.tick) f
      (members.refresh (s.loggers.os s.loggers.tick)) t
  have hwritten : s'.loggers = s.loggers.modifyAppender i fun _ => { s.loggers.appender i with
      cls := .fileLogAppender ((members.refresh (s.loggers.os s.loggers.tick)).write
        { s.loggers.os s.loggers.tick with writes := ok } f) } := by
    rw [hloggers', hloggers]
    exact Locked.modifyFile_modifyAppender rfl i _ s.loggers
  refine ⟨s', _, some f, ok, [⟨i, level, event, f, done⟩], ?_, ?_, hwritten,
    by rw [hprinted', hprinted], entries_passed event hf hlevel done, fun hflows => ?_⟩
  · rw [hrefresh, formatted_run text level event i _ hft, hself, hrun]
  · rw [LogAppender.log, if_pos hlevel, LogAppender.derefFormatter_of_some hf, hcls]
    rfl
  · -- the stream is open after `reopen`, and takes all of the text
    have hstream := FileLogAppender.refresh_open (hflows.loggers.stream i members hcls)
      (hflows.loggers.opens s.loggers.tick)
    obtain ⟨hconsole, htakes⟩ := htakes hflows.works (by rw [hstream]; rfl)
    obtain ⟨rfl, rfl, s₁, htakes₁, hempty, hfiles, hbuffer, hconsole₁⟩ :=
      hwhole (fun n => hwriteOuts ▸ hflows.works n) hstream
    rw [FileLogAppender.refresh_m_filename] at htakes₁
    have hfile : (s.loggers.appender i).cls.file = some members.m_filename := by
      rw [hcls]
      rfl
    have hsame := file_of_write hcls ((FileLogAppender.write_m_filename ..).trans
      (FileLogAppender.refresh_m_filename ..)) hwritten
    refine ⟨rfl, whole_of_takes rfl rfl hfile hsame ⟨?_, fun n => ?_⟩ (htakes.trans htakes₁) hempty
      hfiles hbuffer ?_⟩
    · rw [hwritten]
      refine hflows.loggers.modifyAppender i fun members' heq => ?_
      rw [← AppenderClass.fileLogAppender.inj heq]
      exact FileLogAppender.write_open hstream rfl f
    · rw [hwriteOuts', hwriteOuts]
      exact hflows.works n
    · rw [hconsole₁, htakes₁.console, hconsole]

/-- The `log` of an appender that has a formatter. -/
theorem appenderLog_run (level : Level) (event : LogEvent)
    (hf : (s.loggers.appender i).m_formatter = some f) : Logs text level event i s := by
  by_cases hlevel : (s.loggers.appender i).m_level.toNat ≤ level.toNat
  · cases hcls : (s.loggers.appender i).cls with
    | stdoutLogAppender => exact appenderLog_stdout text event hf hlevel hcls
    | fileLogAppender members => exact appenderLog_file text event hf hlevel hcls
  · refine ⟨s, s.loggers.appender i, none, true, [], ?_, ?_, ?_, (List.append_nil _).symm,
      by simp [entries, passed, hlevel], fun hflows => ⟨rfl, .refl hflows⟩⟩
    · show Prog.run (ExceptT.run
        (if (s.loggers.appender i).m_level.toNat ≤ level.toNat then _ else _)) s = _
      rw [if_neg hlevel]
      rfl
    · rw [LogAppender.log, if_neg hlevel]
      rfl
    · rw [Locked.modifyAppender_self]

end

/-! ## Log calls -/

theorem passed_same {x x' : LogState} (h : LogState.SameConfig x x') (level : Level)
    (event : LogEvent) (is : List AppenderPtr) :
    passed x' level event is = passed x level event is := by
  have hlevel : ∀ i, (x'.appender i).m_level = (x.appender i).m_level :=
    fun i => congrArg AppenderView.level (h.view i)
  have hformatter : ∀ i, (x'.appender i).m_formatter = (x.appender i).m_formatter :=
    fun i => congrArg AppenderView.formatter (h.view i)
  simp only [passed, hlevel, hformatter]

/-- The call leaves what is configured. -/
theorem same_of_log {x : LogState} {i : AppenderPtr} {os : Os} {level : Level} {a : LogAppender}
    {w : Option LogFormatter} (h : (x.appender i).log os level = .ok (a, w)) (tick : ℕ)
    (deliveries : List Delivery) :
    LogState.SameConfig x { x.modifyAppender i fun _ => a with tick, deliveries } := by
  have hview : a.view = (x.appender i).view := by
    rcases (x.appender i).log_spec os level with ⟨-, a', hlog, hview⟩ | ⟨-, hlog⟩
    · rw [← (Prod.mk.inj (Except.ok.inj (hlog.symm.trans h))).1, hview]
    · cases hlog.symm.trans h
  refine ⟨rfl, rfl, rfl, rfl, fun q => ?_⟩
  show (Function.update x.appender i a q).view = _
  by_cases hq : q = i
  · rw [hq, Function.update_self, hview]
  · rw [Function.update_of_ne hq]

theorem Whole.setLoggers {s t : Output} {new : List Printed} (h : Whole text s t new)
    {x : LogState} (hx : x.Flows)
    (hsame : ∀ j, (x.appender j).cls.file = (t.loggers.appender j).cls.file) :
    Whole text s (t.setLoggers x) new := by
  refine ⟨⟨hx, h.flows.works⟩, h.done, h.console, fun i name => ?_, h.files⟩
  rw [← h.taken]
  show t.bytesOf i name ++ (if (x.appender i).cls.file = some name then t.buffer i else []) = _
  rw [hsame]
  rfl

theorem logAppender_run (self : LoggerPtr) (level : Level) (event : LogEvent) {i : AppenderPtr}
    {s : Output} (hi : (s.loggers.appender i).m_formatter ≠ none) :
    ∃ s' new, Prog.run (logAppender text self level event i).run s = (.ok (), s') ∧
      Prints text s s' new ∧ entries new = passed s.loggers level event [i] ∧
      (s.Flows → LogState.logAppenders self level event.getContent [i] s.loggers =
        .ok s'.loggers) := by
  obtain ⟨f, hf⟩ := Option.ne_none_iff_exists'.1 hi
  obtain ⟨t, a, w, ok, new, hrun, hlog, hloggers, hprinted, hnew, hwhole⟩ :=
    appenderLog_run text level event hf
  obtain ⟨x, hx⟩ : ∃ x : LogState, x = { t.loggers with
      tick := t.loggers.tick + 1
      deliveries := t.loggers.deliveries ++ [⟨self, i, level, event.getContent, w⟩] } := ⟨_, rfl⟩
  refine ⟨t.setLoggers x, new, ?_, ⟨hprinted, ?_, fun hflows => ?_⟩, hnew, fun hflows => ?_⟩
  · show Prog.run (appenderLog text level event i >>= fun w => liftM (onLog (Locked.update fun s =>
      { s with
        tick := s.tick + 1
        deliveries := s.deliveries ++ [⟨self, i, level, event.getContent, w⟩] })) :
      OutputProgT Unit).run s = _
    rw [run_bindT, hrun]
    dsimp only
    rw [run_lift, onLog_run, hx]
    rfl
  · show LogState.SameConfig s.loggers x
    rw [hx, hloggers]
    exact same_of_log hlog _ _
  · obtain ⟨⟨hopens, hwrites, hstream⟩, -⟩ := (hwhole hflows).2.flows
    have hx' : x.Flows := by
      rw [hx]
      exact ⟨hopens, hwrites, hstream⟩
    exact (hwhole hflows).2.setLoggers text hx' fun j => by rw [hx]
  · -- the write has been carried out, as the system said
    have hos : { s.loggers.os s.loggers.tick with writes := ok } =
        s.loggers.os s.loggers.tick := by
      rw [(hwhole hflows).1, ← hflows.loggers.writes s.loggers.tick]
    rw [hos] at hlog
    rw [LogState.logAppenders, hlog]
    show _ = Except.ok x
    rw [hx, hloggers]
    rfl

theorem logAppenders_cons (self : LoggerPtr) (level : Level) (event : String) (i : AppenderPtr)
    (is : List AppenderPtr) (x : LogState) :
    LogState.logAppenders self level event (i :: is) x =
      LogState.logAppenders self level event [i] x >>=
        LogState.logAppenders self level event is := by
  rw [LogState.logAppenders, LogState.logAppenders]
  cases (x.appender i).log (x.os x.tick) level with
  | error e => rfl
  | ok r => rfl

/-- The loop over the appenders of a logger. -/
theorem logAppenders_run (self : LoggerPtr) (level : Level) (event : LogEvent)
    (is : List AppenderPtr) : ∀ {s : Output}, (∀ i ∈ is, (s.loggers.appender i).m_formatter ≠ none) →
    ∃ s' new, Prog.run (is.foldlM (fun _ i => logAppender text self level event i) () :
        OutputProgT Unit).run s = (.ok (), s') ∧
      Prints text s s' new ∧ entries new = passed s.loggers level event is ∧
      (s.Flows → LogState.logAppenders self level event.getContent is s.loggers =
        .ok s'.loggers) := by
  induction is with
  | nil => exact fun _ => ⟨_, [], rfl, .refl _, rfl, fun _ => rfl⟩
  | cons i is ih =>
      intro s hformatter
      obtain ⟨hi, his⟩ := List.forall_mem_cons.1 hformatter
      obtain ⟨s₁, new₁, hrun₁, hprints₁, hnew₁, hlog₁⟩ :=
        logAppender_run text self level event hi
      have hkept : ∀ j ∈ is, (s₁.loggers.appender j).m_formatter ≠ none := by
        intro j hj
        show (s₁.loggers.appender j).view.formatter ≠ none
        rw [hprints₁.same.view j]
        exact his j hj
      obtain ⟨s₂, new₂, hrun₂, hprints₂, hnew₂, hlog₂⟩ := ih hkept
      refine ⟨s₂, new₁ ++ new₂, ?_, hprints₁.trans hprints₂, ?_, fun hflows => ?_⟩
      · rw [List.foldlM_cons, run_bindT, hrun₁]
        exact hrun₂
      · rw [passed_same hprints₁.same] at hnew₂
        rw [entries, List.map_append]
        refine (congrArg₂ (· ++ ·) hnew₁ hnew₂).trans ?_
        rw [passed, passed, passed, ← List.map_append, ← List.filter_append]
        rfl
      · rw [logAppenders_cons, hlog₁ hflows]
        exact hlog₂ (hprints₁.whole hflows).flows

/-- What a log call does that gets to the logger `q`. -/
theorem logFuel_run {level : Level} {q : LoggerPtr} {s : Output} (event : LogEvent) (fuel : ℕ)
    (hlevel : (s.loggers.logger q).m_level.toNat ≤ level.toNat) :
    Prog.run (logFuel text level event (fuel + 1) q).run s =
      Prog.run (if (s.loggers.logger q).m_appenders ≠ [] then
          (s.loggers.logger q).m_appenders.foldlM (fun _ i => logAppender text q level event i) ()
        else match (s.loggers.logger q).m_root with
          | some root => logFuel text level event fuel root
          | none => return () : OutputProgT Unit).run s := by
  refine (run_lift_bindT state _ s).trans ?_
  show Prog.run
    (ExceptT.run (if (s.loggers.logger q).m_level.toNat ≤ level.toNat then _ else _)) s = _
  rw [if_pos hlevel]
  exact (run_locked ..).trans (run_lift_bindT state _ s)

theorem logFuel_run_low {level : Level} {q : LoggerPtr} {s : Output} (event : LogEvent) (fuel : ℕ)
    (hlevel : ¬ (s.loggers.logger q).m_level.toNat ≤ level.toNat) :
    Prog.run (logFuel text level event (fuel + 1) q).run s = (.ok (), s) := by
  refine (run_lift_bindT state _ s).trans ?_
  show Prog.run
    (ExceptT.run (if (s.loggers.logger q).m_level.toNat ≤ level.toNat then _ else _)) s = _
  rw [if_neg hlevel]
  rfl

/-- From a root logger in the manager a log call goes no further. -/
theorem log_run {s : Output} {p : LoggerPtr}
    (hroot : ∀ root, (s.loggers.logger p).m_root = some root →
      root ∈ s.loggers.m_loggers ∧ (s.loggers.logger root).m_root = none) (level : Level)
    (event : LogEvent) :
    Prog.run (log text p level event).run s = match s.loggers.logsThrough p level with
      | some q => Prog.run ((s.loggers.logger q).m_appenders.foldlM
          (fun _ i => logAppender text q level event i) () : OutputProgT Unit).run s
      | none => (.ok (), s) := by
  refine (run_lift_bindT state _ s).trans ?_
  show Prog.run (logFuel text level event (s.loggers.m_loggers.elems.length + 1) p).run s = _
  unfold LogState.logsThrough
  by_cases hlevel : (s.loggers.logger p).m_level.toNat ≤ level.toNat
  · rw [logFuel_run text event _ hlevel, if_pos hlevel]
    by_cases happ : (s.loggers.logger p).m_appenders = []
    · rw [if_neg (not_not_intro happ), if_neg (not_not_intro happ)]
      cases hm : (s.loggers.logger p).m_root with
      | none => rfl
      | some root =>
          obtain ⟨hmem, hend⟩ := hroot root hm
          -- there is fuel for the root logger, since the manager has it
          obtain ⟨fuel, hfuel⟩ : ∃ fuel, s.loggers.m_loggers.elems.length = fuel + 1 :=
            Nat.exists_eq_succ_of_ne_zero (List.length_pos_of_mem hmem).ne'
          dsimp only
          rw [hfuel]
          by_cases hlevel' : (s.loggers.logger root).m_level.toNat ≤ level.toNat
          · rw [logFuel_run text event fuel hlevel', hend, if_pos hlevel']
            by_cases happ' : (s.loggers.logger root).m_appenders = []
            · simp only [happ', ne_eq, not_true_eq_false, if_false]
              rfl
            · rw [if_pos happ']
          · rw [logFuel_run_low text event fuel hlevel', if_neg hlevel']
    · rw [if_pos happ, if_pos happ]
  · rw [logFuel_run_low text event _ hlevel, if_neg hlevel]

/-- Called through a registered logger while no other thread interferes, `Logger::log` returns and
prints the event once with each appender that receives it and has its level pass, with the formatter
the appender has, in the order of the attachments. If the system grants everything, it does to the
loggers what it does where nothing is printed. -/
theorem log_prints {s : Output} (h : s.loggers.Routed) {p : LoggerPtr}
    (hp : p ∈ s.loggers.m_loggers) (level : Level) (event : LogEvent) :
    ∃ s' new, Prog.run (log text p level event).run s = (.ok (), s') ∧ Prints text s s' new ∧
      entries new = passed s.loggers level event (s.loggers.receivers p level) ∧
      (s.Flows → s.loggers.log p level event.getContent = .ok s'.loggers) := by
  rw [log_run text (h.root_end hp), LogState.log_eq (h.root_end hp), h.receivers_eq hp]
  cases hq : s.loggers.logsThrough p level with
  | none => exact ⟨s, [], rfl, .refl s, rfl, fun _ => rfl⟩
  | some q =>
      exact logAppenders_run text q level event _
        (h.attached q (LogState.mem_of_logsThrough (h.root_end hp) hp hq))

/-! ## A run of log calls -/

theorem receivers_same {x x' : LogState} (h : LogState.SameConfig x x') (p : LoggerPtr)
    (level : Level) : x'.receivers p level = x.receivers p level := by
  rw [LogState.receivers, LogState.receivers, h.logger, h.m_root]

/-- **What log calls print.** However many log calls are made through registered loggers, each of
them prints its event once with each appender that receives it and has its level pass, with the
formatter the appender has, in the order of the attachments; no other event is printed, and nothing
that is configured changes. If the streams were open and good, and the system grants every open and
carries out every write, then all of the text gets out, in the order of the calls, and nothing else
does: to `std::cout`, to the stream of each file appender, and to the files themselves as far as the
patterns end with `%n`. -/
theorem logs_print {s : Output} (h : s.loggers.Routed)
    {calls : List (LoggerPtr × Level × LogEvent)} (hcalls : ∀ c ∈ calls, c.1 ∈ s.loggers.m_loggers) :
    ∃ s' new, Prog.run (calls.foldlM (fun _ c => log text c.1 c.2.1 c.2.2) () :
        OutputProgT Unit).run s = (.ok (), s') ∧ Prints text s s' new ∧
      entries new = calls.flatMap fun c =>
        passed s.loggers c.2.1 c.2.2 (s.loggers.receivers c.1 c.2.1) := by
  induction calls generalizing s with
  | nil => exact ⟨s, [], rfl, .refl s, rfl⟩
  | cons c calls ih =>
      obtain ⟨hc, hrest⟩ := List.forall_mem_cons.1 hcalls
      obtain ⟨s₁, new₁, hrun₁, hprints₁, hnew₁, -⟩ := log_prints text h hc c.2.1 c.2.2
      have hsame := hprints₁.same
      obtain ⟨s₂, new₂, hrun₂, hprints₂, hnew₂⟩ := ih (h.same hsame)
        (by rwa [hsame.m_loggers])
      refine ⟨s₂, new₁ ++ new₂, ?_, hprints₁.trans hprints₂, ?_⟩
      · rw [List.foldlM_cons, run_bindT, hrun₁]
        exact hrun₂
      · -- the calls leave the receivers and their formatters as they are
        simp only [passed_same hsame, receivers_same hsame] at hnew₂
        rw [entries, List.map_append, List.flatMap_cons]
        exact congrArg₂ (· ++ ·) hnew₁ hnew₂

/-- The console and a file, both attached to the root logger. -/
def sampleLoggers : LogState :=
  ((LogState.new fun _ => granted 1).newAppender
    (.fileLogAppender (.new (granted 1) "a"))).2.addAppender "root" 1

/-- A start with these loggers, where every write is carried out. -/
def sampleOutput : Output :=
  (Output.new (fun _ => granted 1) (fun _ => ⟨0, false⟩) fun _ => []).setLoggers sampleLoggers

theorem sampleOutput_flows : sampleOutput.Flows := by
  refine ⟨⟨fun _ => rfl, fun _ => rfl, fun i members hcls => ?_⟩, fun _ => rfl⟩
  replace hcls : (sampleLoggers.appender i).cls = .fileLogAppender members := hcls
  by_cases hi : i = 1
  · subst hi
    rw [← AppenderClass.fileLogAppender.inj hcls]
    rfl
  · have hstdout : (sampleLoggers.appender i).cls = .stdoutLogAppender := by
      by_cases h0 : i = 0
      · subst h0
        rfl
      · simp [sampleLoggers, LogState.new, LogState.newStdoutLogAppender, LogState.newAppender,
          LogState.addAppender, LogState.modifyAppender, LogState.modifyLogger, hi, h0]
    cases hcls.symm.trans hstdout

theorem logs_print_sample :
    ∃ s' new, Prints (fun _ _ event => bytes event.getContent) sampleOutput s' new ∧
      new.map Printed.appender = [0, 1, 0, 1] ∧ s'.files "a" = new.flatMap
        (Printed.bytesIn (fun _ _ event => bytes event.getContent) sampleLoggers "a") := by
  have hrouted : sampleLoggers.Routed :=
    ((LogState.Routed.new _).newAppender _).addAppender (by decide) (by decide)
  have hcalls : ∀ c ∈ [("root", Level.info, plainEvent "a"), ("root", Level.fatal, plainEvent "b")],
      c.1 ∈ sampleLoggers.m_loggers := by
    intro c hc
    simp only [List.mem_cons, List.not_mem_nil, or_false] at hc
    rcases hc with rfl | rfl <;> exact (by decide : "root" ∈ sampleLoggers.m_loggers)
  obtain ⟨s', new, -, hprints, hnew⟩ := logs_print (fun _ _ event => bytes event.getContent)
    (s := sampleOutput) hrouted hcalls
  have happenders := congrArg (List.map Prod.fst) hnew
  rw [entries, List.map_map] at happenders
  refine ⟨s', new, hprints, happenders, ?_⟩
  refine ((hprints.whole sampleOutput_flows).files (fun _ => rfl) fun p hp => ?_).2 "a"
  -- all of them have the default pattern, which ends with `%n`
  have hformatters : new.map (fun p => some p.formatter) =
      List.replicate 4 (some (LogFormatter.new defaultPattern)) := by
    have hmap := congrArg (List.map fun e => e.2.2.2) hnew
    rw [entries, List.map_map] at hmap
    exact hmap.trans rfl
  have hsome : some p.formatter ∈ List.replicate 4 (some (LogFormatter.new defaultPattern)) :=
    hformatters ▸ List.mem_map_of_mem hp
  rw [Option.some.inj (List.eq_of_mem_replicate hsome)]
  rfl

end Output

end Ipmsg
