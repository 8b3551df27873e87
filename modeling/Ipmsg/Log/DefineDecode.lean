import Ipmsg.Log.DefineCodec
import Ipmsg.Log.ListenerSpec

set_option autoImplicit false

/-! # What a `logs` document says

The definitions a document asks for, read off its entries, against what `LexicalCast` makes of them.
The cast reads every field of every entry but two: the `level` of an appender, which the other
direction writes, and the `file` of a `StdoutLogAppender`. -/

namespace Ipmsg

/-! ## Entries -/

/-- The text of a field, if the map has it. -/
def Node.field (n : Node) (key : String) : Option String :=
  match n with
  | .map pairs => (pairs.find? (fun p => p.1 = key)).map fun p => p.2.scalarText
  | _ => none

/-- The items under `appenders`. -/
def Node.appenderEntries : Node → List Node
  | .map pairs =>
      match (pairs.find? (fun p => p.1 = "appenders")).map Prod.snd with
      | some (.seq items) => items
      | _ => []
  | _ => []

def loggerKeys : List String := ["name", "level", "formatter"]

def appenderKeys : List String := ["type", "file", "level", "formatter"]

/-- The map has each of the fields as a scalar, or not at all. -/
def PlainFields (keys : List String) (n : Node) : Prop :=
  ∃ pairs, n = .map pairs ∧ ∀ key ∈ keys, ∀ p, pairs.find? (fun p => p.1 = key) = some p →
    p.2.isScalar = true

/-- An entry of the document: the `appenders` are a sequence of maps, or absent. -/
def LogsEntry (n : Node) : Prop :=
  PlainFields loggerKeys n ∧
    ∀ v, Node.get (some n) "appenders" = .ok (some v) →
      ∃ apps, v = .seq apps ∧ ∀ a ∈ apps, PlainFields appenderKeys a

/-! ## What they ask for -/

/-- The level of an entry, `UNKNOW` without a text. -/
def Node.entryLevel (n : Node) : Level := Level.fromString ((n.field "level").getD "")

/-- The definition an appender entry asks for. A `FileLogAppender` has to have a file. -/
def Node.appenderDefine (a : Node) : Option LogAppenderDefine :=
  if a.field "type" = some "FileLogAppender" then
    (a.field "file").map fun file =>
      { type := 1, level := a.entryLevel, formatter := (a.field "formatter").getD "", file }
  else if a.field "type" = some "StdoutLogAppender" then
    some { type := 2, level := a.entryLevel, formatter := (a.field "formatter").getD "",
           file := (a.field "file").getD "" }
  else none

/-- The definition an entry asks for. -/
def Node.logDefine (n : Node) : Option LogDefine :=
  (n.field "name").map fun name =>
    { name, level := n.entryLevel, formatter := (n.field "formatter").getD ""
      appenders := n.appenderEntries.filterMap Node.appenderDefine }

/-- The first entry with a name. -/
def firstNamed (items : List Node) (name : String) : Option Node :=
  items.find? fun n => n.field "name" = some name

/-- The appender built from a definition writes only what reaches the level. -/
def LogAppenderDefine.WritesFrom (a : LogAppenderDefine) (level : Level) : Prop :=
  ∀ (p : LoggerPtr) (s s' : LogState), s.configureAppender p a = .ok s' →
    ∀ (os : Os) (event : Level) (ap : LogAppender) (f : LogFormatter),
      (s'.appender s.nextAppender).log os event = .ok (ap, some f) → level.toNat ≤ event.toNat

/-- The set has, for every name, what the first entry with the name asks for, and the appenders
    built from it keep to their levels. -/
def LogDefineSet.SaidBy (set : LogDefineSet) (items : List Node) : Prop :=
  (∀ name, set.find? name = (firstNamed items name).bind Node.logDefine) ∧
    ∀ i ∈ set, ∀ a ∈ i.appenders, a.WritesFrom a.level

/-! ## What is read -/

section
variable {keys : List String} {n : Node}

theorem get_field (h : PlainFields keys n) {key : String} (hkey : key ∈ keys) :
    Node.get (some n) key = .ok ((n.field key).map Node.scalar) := by
  obtain ⟨pairs, rfl, hplain⟩ := h
  rw [Node.get_map, Node.field]
  cases hfind : pairs.find? (fun p => p.1 = key) with
  | none => rfl
  | some p =>
      obtain ⟨k, v⟩ := p
      have hv : v.isScalar = true := hplain key hkey (k, v) hfind
      cases v with
      | scalar text => rfl
      | _ => simp [Node.isScalar] at hv

theorem readField_eq (Y : YamlCpp) (h : PlainFields keys n) {key : String} (hkey : key ∈ keys) :
    readField Y (some n) key = .ok ((n.field key).getD "") := by
  simp only [readField, get_field h hkey, bind, Except.bind]
  cases n.field key with
  | none => rfl
  | some text => rfl

/-- A definition as it is read: without its level, and without a file for the console. -/
def LogAppenderDefine.asRead (a : LogAppenderDefine) : LogAppenderDefine :=
  { a with level := .unknow, file := if a.type = 1 then a.file else "" }

def LogDefine.asRead (i : LogDefine) : LogDefine :=
  { i with appenders := i.appenders.map LogAppenderDefine.asRead }

theorem readAppender_eq (Y : YamlCpp) (h : PlainFields appenderKeys n) :
    readAppender Y (some n) = .ok (n.appenderDefine.map LogAppenderDefine.asRead) := by
  have htype := get_field h (show "type" ∈ appenderKeys by decide)
  have hfile := get_field h (show "file" ∈ appenderKeys by decide)
  have hformatter := readField_eq Y h (show "formatter" ∈ appenderKeys by decide)
  simp only [readAppender, htype, bind, Except.bind]
  cases ht : n.field "type" with
  | none => simp [Node.appenderDefine, ht, pure, Except.pure]
  | some type =>
      by_cases h1 : type = "FileLogAppender"
      · cases hf : n.field "file" with
        | none =>
            -- the branch that skips an appender without a file
            simp [Node.appenderDefine, ht, h1, hf, hfile, Node.asString, pure, Except.pure]
        | some file =>
            simp [Node.appenderDefine, ht, h1, hf, hfile, hformatter, Node.asString, pure,
              Except.pure, LogAppenderDefine.asRead]
      · by_cases h2 : type = "StdoutLogAppender"
        · simp [Node.appenderDefine, ht, h2, hformatter, Node.asString, pure, Except.pure,
            LogAppenderDefine.asRead]
        · simp [Node.appenderDefine, ht, h1, h2, Node.asString, pure, Except.pure]

theorem readAppenders_eq (Y : YamlCpp) {apps : List Node}
    (h : ∀ a ∈ apps, PlainFields appenderKeys a) :
    readAppenders Y (.seq apps) =
      .ok ((apps.filterMap Node.appenderDefine).map LogAppenderDefine.asRead) := by
  rw [readAppenders_seq]
  have hpass : ∀ acc, ∀ a ∈ apps, pushReadAppender Y acc (some a) =
      .ok (acc ++ (a.appenderDefine.map LogAppenderDefine.asRead).toList) := by
    intro acc a ha
    simp only [pushReadAppender, readAppender_eq Y (h a ha), bind, Except.bind]
    cases a.appenderDefine with
    | none => simp [pure, Except.pure]
    | some lad => rfl
  rw [foldlM_ok hpass, List.foldl_append_eq_append, List.map_filterMap, List.nil_append,
    ← List.flatMap_def, List.filterMap_eq_flatMap_toList]

/-- The `appenders` of an entry, with what is read of them. -/
theorem get_appenders (Y : YamlCpp) (h : LogsEntry n) :
    (Node.get (some n) "appenders" = .ok none ∧ n.appenderEntries = []) ∨
      ∃ apps, Node.get (some n) "appenders" = .ok (some apps) ∧ readAppenders Y apps =
        .ok ((n.appenderEntries.filterMap Node.appenderDefine).map
          LogAppenderDefine.asRead) := by
  obtain ⟨⟨pairs, rfl, -⟩, happs⟩ := h
  rw [Node.get_map] at happs ⊢
  cases hfind : (pairs.find? (fun p => p.1 = "appenders")).map Prod.snd with
  | none => exact .inl ⟨rfl, by simp [Node.appenderEntries, hfind]⟩
  | some v =>
      obtain ⟨apps, rfl, hplain⟩ := happs v (by rw [hfind])
      refine .inr ⟨.seq apps, rfl, ?_⟩
      simp only [Node.appenderEntries, hfind]
      exact readAppenders_eq Y hplain

theorem readLogger_eq (Y : YamlCpp) (h : LogsEntry n) :
    readLogger Y (some n) = .ok (n.logDefine.map LogDefine.asRead) := by
  have hname := get_field h.1 (show "name" ∈ loggerKeys by decide)
  have hlevel := readField_eq Y h.1 (show "level" ∈ loggerKeys by decide)
  have hformatter := readField_eq Y h.1 (show "formatter" ∈ loggerKeys by decide)
  simp only [readLogger, hname, hlevel, hformatter, bind, Except.bind]
  cases hn : n.field "name" with
  | none => simp [Node.logDefine, hn, pure, Except.pure]
  | some name =>
      rcases get_appenders Y h with ⟨hnone, hnil⟩ | ⟨apps, hsome, hread⟩
      · simp [Node.logDefine, hn, hnone, hnil, Node.asString, Node.entryLevel, pure, Except.pure,
          LogDefine.asRead]
      · simp [Node.logDefine, hn, hsome, hread, Node.asString, Node.entryLevel, pure, Except.pure,
          LogDefine.asRead]

end

/-! ## The set -/

/-- The definition an entry is read as. -/
def Node.readDefine (n : Node) : Option LogDefine := n.logDefine.map LogDefine.asRead

theorem readLogDefines_seq (Y : YamlCpp) {items : List Node} (h : ∀ n ∈ items, LogsEntry n) :
    readLogDefines Y (.seq items) =
      .ok ((items.filterMap Node.readDefine).foldl KeyedSet.insert ∅) := by
  have hloop : readLogDefines Y (.seq items) =
      items.foldlM (fun set n => insertReadLogger Y set (some n)) ∅ :=
    foldlM_range_getElem? (insertReadLogger Y) items ∅
  rw [hloop, List.foldl_filterMap]
  refine foldlM_ok (fun set n hn => ?_) ∅
  simp only [insertReadLogger, readLogger_eq Y (h n hn), bind, Except.bind, Node.readDefine]
  cases n.logDefine with
  | none => rfl
  | some i => rfl

/-- An entry has a definition under its name. -/
theorem readDefine_any (n : Node) (name : String) :
    n.readDefine.any (fun i => i.name = name) = decide (n.field "name" = some name) := by
  rw [Node.readDefine, Node.logDefine, Option.map_map]
  cases n.field "name" <;> simp [LogDefine.asRead]

/-- An entry whose name is taken is not inserted, so the first of a name stays. -/
theorem find?_readDefines (items : List Node) (name : String) :
    ((items.filterMap Node.readDefine).foldl KeyedSet.insert (∅ : LogDefineSet)).find? name =
      (firstNamed items name).bind Node.readDefine := by
  have hempty : (∅ : LogDefineSet).find? name = none := rfl
  rw [KeyedSet.find?_foldl_insert, hempty, Option.none_or, List.find?_filterMap, firstNamed]
  simp only [readDefine_any]

/-! ## What is lost -/

/-- No appender that is kept is given a level that `FromString` knows, and none for the console is
    given a file. -/
def Node.LosesNothing (n : Node) : Prop :=
  ∀ a ∈ n.appenderEntries, a.appenderDefine.isSome → a.entryLevel = .unknow ∧
    (a.field "type" = some "StdoutLogAppender" → (a.field "file").getD "" = "")

theorem appenderDefine_eq_iff {a : Node} {lad : LogAppenderDefine}
    (h : a.appenderDefine = some lad) :
    lad.asRead = lad ↔ a.entryLevel = .unknow ∧
      (a.field "type" = some "StdoutLogAppender" → (a.field "file").getD "" = "") := by
  unfold Node.appenderDefine at h
  split_ifs at h with hfile hstdout
  · obtain ⟨file, -, rfl⟩ := Option.map_eq_some_iff.1 h
    constructor
    · intro heq
      refine ⟨(congrArg LogAppenderDefine.level heq).symm, fun hstdout => ?_⟩
      exact absurd (hfile.symm.trans hstdout) (by decide)
    · rintro ⟨hlevel, -⟩
      simp [LogAppenderDefine.asRead, hlevel]
  · obtain rfl := Option.some.inj h
    constructor
    · intro heq
      exact ⟨(congrArg LogAppenderDefine.level heq).symm,
        fun _ => (congrArg LogAppenderDefine.file heq).symm⟩
    · rintro ⟨hlevel, hnone⟩
      simp [LogAppenderDefine.asRead, hlevel, hnone hstdout]

/-- What is read of an entry is what it asks for, if nothing is lost. -/
theorem asRead_eq_iff {n : Node} {i : LogDefine} (h : n.logDefine = some i) :
    i.asRead = i ↔ n.LosesNothing := by
  obtain ⟨name, -, rfl⟩ := Option.map_eq_some_iff.1 h
  simp only [LogDefine.asRead, LogDefine.mk.injEq, true_and, map_eq_self_iff, List.mem_filterMap]
  constructor
  · intro hall a ha hsome
    obtain ⟨lad, hlad⟩ := Option.isSome_iff_exists.1 hsome
    exact (appenderDefine_eq_iff hlad).1 (hall lad ⟨a, ha, hlad⟩)
  · rintro hall lad ⟨a, ha, hlad⟩
    exact (appenderDefine_eq_iff hlad).2 (hall a ha (by rw [hlad]; rfl))

/-- An appender writes what reaches its level. -/
theorem LogAppender.log_level {os : Os} {level : Level} {a ap : LogAppender} {f : LogFormatter}
    (h : a.log os level = .ok (ap, some f)) : a.m_level.toNat ≤ level.toNat := by
  by_contra hno
  simp [LogAppender.log, hno, pure, Except.pure] at h

theorem LogAppenderDefine.writesFrom (a : LogAppenderDefine) : a.WritesFrom a.level := by
  intro p s s' hconf os event ap f hlog
  have hlevel : (s'.appender s.nextAppender).m_level = a.level := by
    rcases LogState.configureAppender_spec p s a with ⟨-, t, ht, happended⟩ | ⟨-, herror⟩
    · obtain rfl := Except.ok.inj (hconf.symm.trans ht)
      have hview := happended.new
      rw [List.length_singleton, List.range'_one, List.map_singleton, List.singleton_inj] at hview
      exact congrArg AppenderView.level hview
    · rw [hconf] at herror
      simp at herror
  rw [← hlevel]
  exact LogAppender.log_level hlog

/-- **Reading the `logs` document.** What is read of a sequence of entries is what they ask for, the
first of each name, exactly when in none of these an appender that is kept has a level, or is for the
console and has a file. -/
theorem logDefinesOfString_iff (Y : YamlCpp) {v : String} {items : List Node}
    (hload : Y.load v = .ok (.seq items)) (hitems : ∀ n ∈ items, LogsEntry n) :
    (∃ set, logDefinesOfString Y v = .ok set ∧ set.SaidBy items) ↔
      ∀ name n, firstNamed items name = some n → n.LosesNothing := by
  have hread : logDefinesOfString Y v =
      .ok ((items.filterMap Node.readDefine).foldl KeyedSet.insert ∅) := by
    simp only [logDefinesOfString, hload, bind, Except.bind, readLogDefines_seq Y hitems]
  have hdefine : ∀ name n, firstNamed items name = some n →
      ∃ i, n.logDefine = some i := by
    intro name n hn
    have hname : n.field "name" = some name := by simpa using List.find?_some hn
    exact ⟨_, by rw [Node.logDefine, hname, Option.map_some]⟩
  constructor
  · -- the entry of each name came back as it is, so it had nothing to lose
    rintro ⟨set, hset, hsaid, -⟩ name n hn
    obtain rfl := Except.ok.inj (hread.symm.trans hset)
    obtain ⟨i, hi⟩ := hdefine name n hn
    have heq := (find?_readDefines items name).symm.trans (hsaid name)
    rw [hn, Option.bind_some, Option.bind_some, Node.readDefine, hi, Option.map_some] at heq
    exact (asRead_eq_iff hi).1 (Option.some.inj heq)
  · intro hall
    refine ⟨_, hread, fun name => ?_, fun i _ a _ => a.writesFrom⟩
    rw [find?_readDefines]
    cases hn : firstNamed items name with
    | none => rfl
    | some n =>
        obtain ⟨i, hi⟩ := hdefine name n hn
        rw [Option.bind_some, Option.bind_some, Node.readDefine, hi, Option.map_some,
          (asRead_eq_iff hi).2 (hall name n hn)]

/-- A library that parses every text as the sequence of these items. -/
def YamlCpp.ofSequence (items : List Node) : YamlCpp :=
  { load := fun _ => .ok (.seq items), emit := fun _ => "", keyIndex := fun _ => none
    nullText := some "null" }

/-- A logger with an appender for the console, whose level is `level` if there is one. -/
def rootEntry (level : List (String × Node)) : Node :=
  .map [("name", .scalar "root"), ("level", .scalar "info"),
    ("appenders", .seq [.map (("type", .scalar "StdoutLogAppender") :: level)])]

theorem rootEntry_logsEntry (level : List (String × Node))
    (h : level = [] ∨ level = [("level", .scalar "error")]) : LogsEntry (rootEntry level) := by
  refine ⟨⟨_, rfl, by simp [loggerKeys, Node.isScalar]⟩, fun v hv => ?_⟩
  obtain rfl : Node.seq _ = v := Option.some.inj (Except.ok.inj hv)
  refine ⟨_, rfl, fun a ha => ?_⟩
  obtain rfl := List.mem_singleton.1 ha
  rcases h with rfl | rfl <;> exact ⟨_, rfl, by simp [appenderKeys, Node.isScalar]⟩

theorem logDefinesOfString_iff_sample :
    ∃ set, logDefinesOfString (.ofSequence [rootEntry []]) "" = .ok set ∧
      set.SaidBy [rootEntry []] := by
  refine (logDefinesOfString_iff (.ofSequence [rootEntry []]) (v := "") rfl fun n hn => ?_).2
    fun name n hn a ha _ => ?_
  · obtain rfl := List.mem_singleton.1 hn
    exact rootEntry_logsEntry [] (.inl rfl)
  · obtain rfl := List.mem_singleton.1 (List.mem_of_find?_eq_some hn)
    obtain rfl := List.mem_singleton.1 ha
    decide

/-- The level of a console appender is lost. -/
theorem not_saidBy : ¬ ∀ (Y : YamlCpp) (v : String) (items : List Node),
    Y.load v = .ok (.seq items) → (∀ n ∈ items, LogsEntry n) →
      ∃ set, logDefinesOfString Y v = .ok set ∧ set.SaidBy items := by
  intro h
  obtain ⟨set, hset, hsaid, -⟩ := h (.ofSequence [rootEntry [("level", .scalar "error")]]) ""
    [rootEntry [("level", .scalar "error")]] rfl fun n hn => by
      obtain rfl := List.mem_singleton.1 hn
      exact rootEntry_logsEntry _ (.inr rfl)
  have hread : logDefinesOfString (.ofSequence [rootEntry [("level", .scalar "error")]]) "" =
      .ok (KeyedSet.insert ∅
        { name := "root", level := .info, appenders := [{ type := 2 }] }) := rfl
  obtain rfl := Except.ok.inj (hread.symm.trans hset)
  exact absurd (hsaid "root") (by decide)

end Ipmsg
