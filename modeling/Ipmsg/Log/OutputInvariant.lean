import Ipmsg.Log.OutputAlone

set_option autoImplicit false

/-! # Streams under interference

What the threads that print agree on: what the stream of an appender has taken is, event by event,
the text of the events the appender has printed, and the beginning of one more while a thread holds
its lock. This is so if no write fails, which `W` stands for; that no thread crashes needs no such
assumption. -/

namespace Ipmsg

open Prog

variable (text : FormatItem → Level → LogEvent → List UInt8)

namespace Output

/-- The texts of the events an appender has printed. -/
def linesOf (s : Output) (i : AppenderPtr) : List UInt8 :=
  (s.printed.filter fun p => p.appender = i).flatMap (Printed.line text)

/-- The event an appender has printed last. -/
def lastOf (s : Output) (i : AppenderPtr) : Option Printed :=
  (s.printed.filter fun p => p.appender = i).getLast?

/-- The stream holds nothing after an event that got out and ended with `%n`. -/
def Settled (s : Output) (i : AppenderPtr) : Prop :=
  ∀ p, s.lastOf i = some p → p.done = true → p.formatter.EndsLine → s.buffer i = []

/-! ## What the threads agree on -/

/-- In the files are only what was there before, and for each appender, in its own file, what its
    stream has taken. -/
structure Lines (init : String → List UInt8) (s : Output) : Prop where
  works : s.Works
  taken : ∀ i name, s.taken i name =
    if (s.loggers.appender i).cls.file = some name then s.linesOf text i ++ s.line i else []
  console : ∀ i, (s.loggers.appender i).cls.file = none → s.buffer i = []
  fresh : ∀ i, s.loggers.nextAppender ≤ i →
    (∀ name, s.bytesOf i name = []) ∧ s.buffer i = [] ∧ s.linesOf text i = [] ∧ s.line i = []
  front : ∀ name, ∃ rest, s.files name = (init name).map (fun b => (none, b)) ++ rest ∧
    ∀ b ∈ rest, b.1 ≠ none

structure Inv (init : String → List UInt8) (W : Prop) (s : Output) : Prop where
  sound : s.loggers.Sound
  crashed : s.crashed = false
  lines : W → s.Lines text init

end Output

/-- The stream of an appender belongs to the thread that holds its lock. -/
def outputD (init : String → List UInt8) (W : Prop) : Discipline Lock Output where
  guar s s' := (s.Inv text init W → s'.Inv text init W) ∧ s.loggers.Keeps s'.loggers
  same l s s' := ∀ i, l = .appender i →
    s'.line i = s.line i ∧ s'.buffer i = s.buffer i ∧ s'.lastOf i = s.lastOf i
  inv l s := ∀ i, l = .appender i → W → s.line i = [] ∧ s.Settled i
  guar_refl s := ⟨id, fun h => ⟨h, .refl s.loggers⟩⟩
  guar_trans h h' := ⟨h'.1 ∘ h.1, fun hs => soundD.guar_trans h.2 h'.2 hs⟩
  same_refl _ _ _ _ := ⟨rfl, rfl, rfl⟩
  same_trans h h' i hi := by
    obtain ⟨hline, hbuffer, hlast⟩ := h i hi
    obtain ⟨hline', hbuffer', hlast'⟩ := h' i hi
    exact ⟨hline'.trans hline, hbuffer'.trans hbuffer, hlast'.trans hlast⟩
  inv_same h hs i hi hW := by
    obtain ⟨hline, hbuffer, hlast⟩ := h i hi
    obtain ⟨hempty, hsettled⟩ := hs i hi hW
    refine ⟨hline.trans hempty, fun p hp hdone hends => ?_⟩
    exact hbuffer.trans (hsettled p (hlast ▸ hp) hdone hends)

namespace Output

variable {text} {init : String → List UInt8} {W : Prop}

theorem Inv.new (os : ℕ → Os) {writeOuts : ℕ → WriteOut}
    (hworks : W → ∀ n, (writeOuts n).fails = false) (init : String → List UInt8) :
    (Output.new os writeOuts init).Inv text init W := by
  have hnone : ∀ i name, (Output.new os writeOuts init).bytesOf i name = [] := by
    intro i name
    simp [bytesOf, Output.new, List.filter_map]
  refine ⟨.new os, rfl, fun hW => ⟨hworks hW, fun i name => ?_, fun _ _ => rfl,
    fun i _ => ⟨hnone i, rfl, rfl, rfl⟩, fun name => ⟨[], ?_, ?_⟩⟩⟩
  · rw [taken, hnone]
    split <;> rfl
  · exact (List.append_nil _).symm
  · exact fun b hb => absurd hb List.not_mem_nil

/-- A change of the loggers. -/
theorem Inv.setLoggers {s : Output} (h : s.Inv text init W) {x : LogState}
    (hx : x.Sound ∧ s.loggers.Later x) : (s.setLoggers x).Inv text init W := by
  refine ⟨hx.1, h.crashed, fun hW => ?_⟩
  obtain ⟨hworks, htaken, hconsole, hfresh, hfront⟩ := h.lines hW
  refine ⟨hworks, fun i name => ?_, fun i hfile => ?_, fun i hi => ?_, hfront⟩
  · show s.bytesOf i name ++ (if (x.appender i).cls.file = some name then s.buffer i else []) =
      if (x.appender i).cls.file = some name then s.linesOf text i ++ s.line i else []
    by_cases hi : i < s.loggers.nextAppender
    · rw [hx.2.file i hi]
      exact htaken i name
    · -- it has not printed anything yet
      obtain ⟨hbytes, hbuffer, hlines, hline⟩ := hfresh i (Nat.le_of_not_lt hi)
      rw [hbytes, hbuffer, hlines, hline]
      split <;> rfl
  · by_cases hi : i < s.loggers.nextAppender
    · exact hconsole i ((hx.2.file i hi).symm.trans hfile)
    · exact (hfresh i (Nat.le_of_not_lt hi)).2.1
  · exact hfresh i (hx.2.nextAppender.trans hi)

/-- The stream of an appender takes some bytes. -/
theorem Inv.takes {s s' : Output} (h : s.Inv text init W) {i : AppenderPtr} {name : String}
    {b : List UInt8} (hi : i < s.loggers.nextAppender)
    (hfile : (s.loggers.appender i).cls.file = some name) (htakes : Takes i name b s s') :
    s'.Inv text init W := by
  obtain ⟨moved, hmoved, hall, hother, hbuffer⟩ := htakes.bytesOf
  have hworks := htakes.works
  have hloggers := htakes.loggers
  have hprinted := htakes.printed
  obtain ⟨hline, hline', hcrashed, hfiles⟩ : s'.line i = s.line i ++ b ∧
      (∀ j, j ≠ i → s'.line j = s.line j) ∧ s'.crashed = s.crashed ∧
      ∃ moved : List UInt8, s'.files = Function.update s.files name
        (s.files name ++ moved.map fun b => (some i, b)) := by
    obtain ⟨moved, held, turn, rfl, -⟩ := htakes
    exact ⟨streamed_line .., fun j hj => Function.update_of_ne hj _ _, rfl, moved, rfl⟩
  refine ⟨hloggers ▸ h.sound, hcrashed.trans h.crashed, fun hW => ?_⟩
  have hlines := h.lines hW
  have hsame : ∀ j, s'.linesOf text j = s.linesOf text j := by
    intro j
    rw [linesOf, linesOf, hprinted]
  refine ⟨hworks hlines.works, fun j name' => ?_, fun j hj => ?_, fun j hj => ?_, fun name' => ?_⟩
  · have htaken := hlines.taken j name'
    rw [taken, hloggers, hsame] at *
    by_cases hj : j = i
    · subst hj
      by_cases hname : name' = name
      · subst hname
        rw [if_pos hfile, if_pos hfile] at *
        rw [hmoved, List.append_assoc, hall, hline, ← List.append_assoc, ← List.append_assoc,
          htaken]
      · have hne : ¬ (s.loggers.appender j).cls.file = some name' := by
          rw [hfile]
          exact fun heq => hname (Option.some.inj heq).symm
        rw [if_neg hne, if_neg hne] at *
        rw [hother j name' (Or.inr hname), htaken]
    · rw [hother j name' (Or.inl hj), hbuffer j hj, hline' j hj, htaken]
  · have hji : j ≠ i := by
      rintro rfl
      rw [hloggers, hfile] at hj
      cases hj
    rw [hbuffer j hji]
    exact hlines.console j (hloggers ▸ hj)
  · have hji : j ≠ i := fun heq => absurd hi (Nat.not_lt.2 (heq ▸ hloggers ▸ hj))
    obtain ⟨hbytes, hnone, hno, hempty⟩ := hlines.fresh j (hloggers ▸ hj)
    refine ⟨fun name' => (hother j name' (Or.inl hji)).trans (hbytes name'), ?_, ?_, ?_⟩
    · rw [hbuffer j hji, hnone]
    · rw [hsame, hno]
    · rw [hline' j hji, hempty]
  · obtain ⟨rest, hrest, hnone⟩ := hlines.front name'
    obtain ⟨moved, hfiles⟩ := hfiles
    rw [hfiles]
    by_cases hname : name' = name
    · subst hname
      refine ⟨rest ++ moved.map fun b => (some i, b), ?_, fun c hc => ?_⟩
      · rw [Function.update_self, hrest, List.append_assoc]
      · rcases List.mem_append.1 hc with hc | hc
        · exact hnone c hc
        · obtain ⟨b, -, rfl⟩ := List.mem_map.1 hc
          exact Option.some_ne_none i
    · exact ⟨rest, (Function.update_of_ne hname _ _).trans hrest, hnone⟩

/-- More is printed to `std::cout`. -/
theorem Inv.cout {s : Output} (h : s.Inv text init W) (console : List UInt8) :
    Output.Inv text init W { s with console } := by
  refine ⟨h.sound, h.crashed, fun hW => ?_⟩
  obtain ⟨hworks, htaken, hconsole, hfresh, hfront⟩ := h.lines hW
  exact ⟨hworks, htaken, hconsole, hfresh, hfront⟩

/-- The end of an event. -/
theorem Inv.printed {s : Output} (h : s.Inv text init W) {p : Printed} {x : LogState}
    (hx : x.Sound ∧ s.loggers.Later x)
    (hline : W → s.line p.appender = p.line text ∨ (x.appender p.appender).cls.file = none)
    (hp : p.appender < s.loggers.nextAppender) :
    Output.Inv text init W { s with
      loggers := x
      line := Function.update s.line p.appender []
      printed := s.printed ++ [p] } := by
  have hset := h.setLoggers hx
  refine ⟨hx.1, h.crashed, fun hW => ?_⟩
  obtain ⟨hworks, htaken, hconsole, hfresh, hfront⟩ := hset.lines hW
  have hother : ∀ i, i ≠ p.appender → ((s.printed ++ [p]).filter fun q => q.appender = i).flatMap
      (Printed.line text) = s.linesOf text i := by
    intro i hi
    rw [List.filter_append, List.filter_cons_of_neg (by simpa using Ne.symm hi), List.filter_nil,
      List.append_nil]
    rfl
  refine ⟨hworks, fun i name => ?_, hconsole, fun i hi => ?_, hfront⟩
  · refine (htaken i name).trans ?_
    show (if (x.appender i).cls.file = some name then s.linesOf text i ++ s.line i else []) =
      if (x.appender i).cls.file = some name then
        ((s.printed ++ [p]).filter _).flatMap _ ++ Function.update s.line p.appender [] i else []
    by_cases hi : i = p.appender
    · subst hi
      split
      · next hfile =>
          rcases hline hW with hline | hnone
          · rw [Function.update_self, List.filter_append, List.flatMap_append, hline]
            simp [linesOf]
          · cases hnone.symm.trans hfile
      · rfl
    · rw [hother i hi, Function.update_of_ne hi]
  · have hi' : i ≠ p.appender :=
      fun heq => absurd (hx.2.exists hp) (Nat.not_lt.2 (heq ▸ hi))
    obtain ⟨hbytes, hbuffer, hlines, hnone⟩ := hfresh i hi
    exact ⟨hbytes, hbuffer, (hother i hi').trans hlines,
      (Function.update_of_ne hi' _ _).trans hnone⟩

/-! ## Assertions -/

theorem env_inv {h : List (Lock × LockMode)} {s s' : Output} (hs : s.Inv text init W)
    (henv : (outputD text init W).Env h s s') : s'.Inv text init W ∧ s.loggers.Later s'.loggers :=
  ⟨henv.1.1 hs, (henv.1.2 hs.sound).2⟩

/-- An assertion about the appenders that are constructed stays true. -/
theorem stable_loggers {R : LogState → Prop} (hR : ∀ {x x' : LogState}, x.Later x' → R x → R x')
    (h : List (Lock × LockMode)) :
    (outputD text init W).Stable h fun s => s.Inv text init W ∧ R s.loggers :=
  fun _ _ hs henv => ⟨(env_inv hs.1 henv).1, hR (env_inv hs.1 henv).2 hs.2⟩

theorem stable_inv (h : List (Lock × LockMode)) :
    (outputD text init W).Stable h fun s => s.Inv text init W ∧ True :=
  stable_loggers (R := fun _ => True) (fun _ => id) h

/-- A thread holds the lock of an appender, whose stream has taken `acc` of the event at hand and
    holds `held`. -/
structure Writing (text : FormatItem → Level → LogEvent → List UInt8) (init : String → List UInt8)
    (W : Prop) (i : AppenderPtr) (file : Option String) (acc held : List UInt8) (s : Output) :
    Prop where
  inv : s.Inv text init W
  constructed : i < s.loggers.nextAppender
  file : (s.loggers.appender i).cls.file = file
  stream : W → s.line i = acc ∧ s.buffer i = held

/-- The lock of an appender is held between two events. -/
structure Between (text : FormatItem → Level → LogEvent → List UInt8) (init : String → List UInt8)
    (W : Prop) (i : AppenderPtr) (s : Output) : Prop where
  inv : s.Inv text init W
  settled : W → s.line i = [] ∧ s.Settled i

section
variable {i : AppenderPtr} {h : List (Lock × LockMode)}

theorem stable_writing {m : LockMode} (hheld : (.appender i, m) ∈ h) (file : Option String)
    (acc held : List UInt8) :
    (outputD text init W).Stable h (Writing text init W i file acc held) := by
  intro s s' hs henv
  obtain ⟨hinv, hlater⟩ := env_inv hs.inv henv
  obtain ⟨hline, hbuffer, -⟩ := henv.2 _ hheld i rfl
  exact ⟨hinv, hlater.exists hs.constructed, (hlater.file i hs.constructed).trans hs.file,
    fun hW => ⟨hline.trans (hs.stream hW).1, hbuffer.trans (hs.stream hW).2⟩⟩

theorem stable_between {m : LockMode} (hheld : (.appender i, m) ∈ h) :
    (outputD text init W).Stable h (Between text init W i) := by
  intro s s' hs henv
  refine ⟨(env_inv hs.inv henv).1, ?_⟩
  exact (outputD text init W).inv_same (l := .appender i) (henv.2 _ hheld)
    (fun j hj => Lock.appender.inj hj ▸ hs.settled) i rfl

/-- What others know of the other appenders. -/
theorem same_other {l : Lock} (hl : (l, .exclusive) ∉ h) (hheld : (.appender i, .exclusive) ∈ h)
    {s s' : Output} (hsame : ∀ j, j ≠ i →
      s'.line j = s.line j ∧ s'.buffer j = s.buffer j ∧ s'.lastOf j = s.lastOf j) :
    (outputD text init W).same l s s' :=
  fun j hj => hsame j fun heq => hl (hj ▸ heq ▸ hheld)

end

/-! ## Streams -/

section
variable {i : AppenderPtr} {h : List (Lock × LockMode)} (hheld : (.appender i, .exclusive) ∈ h)
include hheld

/-- One access to the stream. -/
theorem guar_takes {name : String} {acc held b held' : List UInt8} {s s' : Output}
    (hs : Writing text init W i (some name) acc held s) (htakes : Takes i name b s s')
    (hheld' : W → s'.buffer i = held') :
    (outputD text init W).guar s s' ∧
      (∀ l, (l, .exclusive) ∉ h → (outputD text init W).same l s s') ∧
      Writing text init W i (some name) (acc ++ b) held' s' := by
  have hinv := hs.inv.takes hs.constructed hs.file htakes
  have hloggers := htakes.loggers
  have hkeeps : s.loggers.Keeps s'.loggers := by
    rw [hloggers]
    exact fun hsound => ⟨hsound, .refl _⟩
  refine ⟨⟨fun _ => hinv, hkeeps⟩, fun l hl => ?_, hinv, hloggers ▸ hs.constructed,
    hloggers ▸ hs.file, fun hW => ⟨?_, hheld' hW⟩⟩
  · refine same_other hl hheld fun j hj => ?_
    obtain ⟨moved, held, turn, rfl, -⟩ := htakes
    exact ⟨Function.update_of_ne hj _ _, Function.update_of_ne hj _ _, rfl⟩
  · rw [← (hs.stream hW).1]
    obtain ⟨moved, held, turn, rfl, -⟩ := htakes
    exact streamed_line ..

theorem puts_triple (name : String) (acc : List UInt8) (n : ℕ) : ∀ held : List UInt8,
    Triple (outputD text init W) h (Writing text init W i (some name) acc held) (puts i name n)
      fun _ => Writing text init W i (some name) acc (held.drop n) := by
  induction n with
  | zero =>
      intro held
      exact triple_pure fun s s' hs henv => stable_writing hheld _ _ _ s s' hs henv
  | succ n ih =>
      intro held
      have hput : Triple (outputD text init W) h (Writing text init W i (some name) acc held)
          (update (put i name)) fun _ => Writing text init W i (some name) acc (held.drop 1) := by
        refine triple_modify fun s s' hs henv => ?_
        have hs' := stable_writing hheld _ _ _ s s' hs henv
        have htakes : Takes i name [] s' (put i name s') :=
          ⟨_, _, _, by rw [put_eq, List.append_nil],
            by rw [List.take_append_drop, List.append_nil]⟩
        have hdropped : W → (put i name s').buffer i = held.drop 1 :=
          fun hW => by rw [put_eq, streamed_buffer, (hs'.stream hW).2]
        obtain ⟨hguar, hsame, hafter⟩ := guar_takes hheld hs' htakes hdropped
        rw [List.append_nil] at hafter
        exact ⟨hguar, hsame, fun s'' henv' => stable_writing hheld _ _ _ _ s'' hafter henv'⟩
      have hrest := ih (held.drop 1)
      rw [List.drop_drop, Nat.add_comm 1 n] at hrest
      exact hput.bind fun _ => hrest

theorem writeOut_triple (name : String) (all : Bool) (acc held : List UInt8) :
    Triple (outputD text init W) h (Writing text init W i (some name) acc held)
      (writeOut i name all) fun good s => (W → good = true) ∧ ∃ held',
        Writing text init W i (some name) acc held' s ∧ (W → all = true → held' = []) := by
  refine triple_access (R := fun s s' => Writing text init W i (some name) acc held s ∧
    Writing text init W i (some name) acc held s') (fun s s' hs henv => ?_) fun s => ?_
  · have hs' := stable_writing hheld _ _ _ s s' hs henv
    have htakes : Takes i name [] s' { s' with turn := s'.turn + 1 } :=
      ⟨[], s'.buffer i, s'.turn + 1, by rw [List.append_nil, streamed_self],
        by rw [List.nil_append, List.append_nil]⟩
    obtain ⟨hguar, hsame, hafter⟩ := guar_takes hheld hs' htakes fun hW => (hs'.stream hW).2
    rw [List.append_nil] at hafter
    exact ⟨hguar, hsame, hs', hafter⟩
  · refine fun s₁ hs₁ => ?_
    obtain ⟨hs, hs₁⟩ := hs₁
    have hgood : W → (!(s.writeOuts s.turn).fails) = true := by
      intro hW
      rw [(hs.inv.lines hW).works]
      rfl
    refine ((puts_triple hheld name acc _ held).bind fun _ => ?_) s₁ hs₁
    refine triple_pure fun s₂ s₃ hs₂ henv =>
      ⟨hgood, _, stable_writing hheld _ _ _ s₂ s₃ hs₂ henv, fun hW hall => ?_⟩
    rw [hgood hW, hall, (hs.stream hW).2]
    exact List.drop_length

theorem insert_triple (name : String) (acc bytes held : List UInt8) :
    Triple (outputD text init W) h (Writing text init W i (some name) acc held)
      (insert i name bytes) fun good s => (W → good = true) ∧ ∃ held',
        Writing text init W i (some name) (acc ++ bytes) held' s := by
  have hinsert : Triple (outputD text init W) h (Writing text init W i (some name) acc held)
      (update fun s => { s with
        buffer := Function.update s.buffer i (s.buffer i ++ bytes)
        line := Function.update s.line i (s.line i ++ bytes) })
      fun _ => Writing text init W i (some name) (acc ++ bytes) (held ++ bytes) := by
    refine triple_modify fun s s' hs henv => ?_
    have hs' := stable_writing hheld _ _ _ s s' hs henv
    have htakes : Takes i name bytes s' { s' with
        buffer := Function.update s'.buffer i (s'.buffer i ++ bytes)
        line := Function.update s'.line i (s'.line i ++ bytes) } :=
      ⟨[], s'.buffer i ++ bytes, s'.turn, by simp [streamed], List.nil_append _⟩
    have hadded : W → Function.update s'.buffer i (s'.buffer i ++ bytes) i = held ++ bytes :=
      fun hW => (Function.update_self ..).trans (by rw [(hs'.stream hW).2])
    obtain ⟨hguar, hsame, hafter⟩ := guar_takes hheld hs' htakes hadded
    exact ⟨hguar, hsame, fun s'' henv' => stable_writing hheld _ _ _ _ s'' hafter henv'⟩
  refine hinsert.bind fun _ => (writeOut_triple hheld name false _ _).conseq (fun _ => id) ?_
  exact fun good s hs => ⟨hs.1, hs.2.imp fun held' h => h.1⟩

/-- A thread prints to `std::cout` while it holds the lock. -/
theorem cout_triple {P : Output → Prop} (hP : (outputD text init W).Stable h P)
    (hcout : ∀ s console, P s → P { s with console })
    (bytes : List UInt8) : Triple (outputD text init W) h P (cout bytes) fun _ => P := by
  refine triple_foldlM_keeps (R := fun _ => P) (fun _ => hP) (fun _ b _ => ?_) ()
  refine triple_modify fun s s' hs henv => ?_
  have hs' := hP s s' hs henv
  refine ⟨⟨fun h => h.cout _, fun h => ⟨h, .refl _⟩⟩, fun l hl => ?_, fun s'' henv' =>
    hP _ s'' (hcout s' _ hs') henv'⟩
  exact same_other hl hheld fun j _ => ⟨rfl, rfl, rfl⟩

end

end Output

end Ipmsg
