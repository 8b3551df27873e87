import Ipmsg.Log.Define
import Ipmsg.YamlFlow

set_option autoImplicit false

/-! # What survives writing and reading logger definitions

Reading back a written definition loses the formatter of a logger (it is written only when it is
empty) and the level of every appender (it is written but not read). `LogDefine.reread` is the
definition that comes back, so the round trip is the identity exactly on the definitions `reread`
fixes. -/

namespace Ipmsg

/-- A definition with a level of the enumeration, whose appenders are files, or the console with no
    file. -/
def LogAppenderDefine.WellFormed (a : LogAppenderDefine) : Prop :=
  (a.type = 1 ∨ (a.type = 2 ∧ a.file = "")) ∧ a.level ≠ .cast100

def LogDefine.WellFormed (i : LogDefine) : Prop :=
  i.level ≠ .cast100 ∧ ∀ a ∈ i.appenders, a.WellFormed

/-! ## Appenders -/

/-- The fields written for an appender. -/
def LogAppenderDefine.fields (a : LogAppenderDefine) : List (String × Node) :=
  (if a.type = 1 then [("type", .scalar "FileLogAppender"), ("file", .scalar a.file)]
    else [("type", .scalar "StdoutLogAppender")]) ++
  (if a.level = .unknow then [] else [("level", .scalar a.level.toString)]) ++
  (if a.formatter = "" then [] else [("formatter", .scalar a.formatter)])

theorem writeAppender_eq {a : LogAppenderDefine} (h : a.WellFormed) :
    writeAppender a = .ok (.map a.fields) := by
  rcases h.1 with ht | ⟨ht, -⟩ <;> by_cases hl : a.level = .unknow <;>
    by_cases hf : a.formatter = "" <;>
    simp [writeAppender, LogAppenderDefine.fields, ht, hl, hf, Node.set, bind, Except.bind, pure,
      Except.pure]

theorem readAppender_fields (Y : YamlCpp) {a : LogAppenderDefine} (h : a.WellFormed) :
    readAppender Y (some (.map a.fields)) = .ok (some { a with level := .unknow }) := by
  obtain ⟨type, level, formatter, file⟩ := a
  rcases h.1 with ht | ⟨ht, hfile⟩ <;> by_cases hl : level = .unknow <;>
    by_cases hf : formatter = "" <;> simp only at ht <;>
    simp_all [readAppender, readField, LogAppenderDefine.fields, Node.get_map, Node.asString,
      bind, Except.bind, pure, Except.pure]

/-! ## Loggers -/

/-- The fields written for a logger before its appenders. -/
def LogDefine.headFields (i : LogDefine) : List (String × Node) :=
  [("name", .scalar i.name)] ++
  (if i.level = .unknow then [] else [("level", .scalar i.level.toString)]) ++
  (if i.formatter = "" then [("formatter", .scalar i.formatter)] else [])

/-- The field `appenders`, which is absent when there are none. -/
def appendersField (nodes : List Node) : List (String × Node) :=
  if nodes = [] then [] else [("appenders", .seq nodes)]

/-- What is left of a definition after writing and reading it. -/
def LogDefine.reread (i : LogDefine) : LogDefine :=
  { i with formatter := "", appenders := i.appenders.map fun a => { a with level := .unknow } }

theorem LogDefine.headFields_ne_appenders (i : LogDefine) :
    ∀ p ∈ i.headFields, p.1 ≠ "appenders" := by
  by_cases hl : i.level = .unknow <;> by_cases hf : i.formatter = "" <;>
    simp [LogDefine.headFields, hl, hf]

/-- `n["appenders"].push_back(na)`. -/
def pushAppenderNode (n na : Node) : Except StdException Node := do
  let apps := (← Node.get (some n) "appenders").getD .null
  n.set "appenders" (← apps.pushBack na)

/-- Pushing onto a logger node extends its `appenders` field. -/
theorem pushAppenderNode_eq {fields : List (String × Node)} (h : ∀ p ∈ fields, p.1 ≠ "appenders")
    (nodes : List Node) (na : Node) :
    pushAppenderNode (.map (fields ++ appendersField nodes)) na =
      .ok (.map (fields ++ appendersField (nodes ++ [na]))) := by
  have hfind : fields.find? (fun p => p.1 = "appenders") = none := by simpa using h
  by_cases hn : nodes = []
  · simp [pushAppenderNode, appendersField, hn, Node.get_map, hfind, Node.pushBack,
      Node.set_map_of_notMem _ h, bind, Except.bind]
  · simp [pushAppenderNode, appendersField, hn, Node.get_map, hfind, Node.pushBack,
      Node.set_map_last _ _ h, bind, Except.bind]

/-- A loop that pushes the node of one appender after another. -/
theorem foldlM_pushAppenderNode {α : Type} {g : α → Except StdException Node} {node : α → Node}
    {fields : List (String × Node)} (h : ∀ p ∈ fields, p.1 ≠ "appenders") {l : List α}
    (hg : ∀ a ∈ l, g a = .ok (node a)) (nodes : List Node) :
    l.foldlM (fun n a => do pushAppenderNode n (← g a)) (.map (fields ++ appendersField nodes)) =
      .ok (.map (fields ++ appendersField (nodes ++ l.map node))) := by
  induction l generalizing nodes with
  | nil => simp [pure, Except.pure]
  | cons a l ih =>
      have hrest := ih (fun b hb => hg b (List.mem_cons_of_mem _ hb)) (nodes ++ [node a])
      rw [← List.append_cons] at hrest
      rw [List.foldlM_cons, hg a List.mem_cons_self]
      show pushAppenderNode (.map (fields ++ appendersField nodes)) (node a) >>= _ = _
      rw [pushAppenderNode_eq h nodes]
      exact hrest

/-- The fields written for a logger. -/
def LogDefine.fields (i : LogDefine) : List (String × Node) :=
  i.headFields ++ appendersField (i.appenders.map fun a => .map a.fields)

theorem writeLogger_eq {i : LogDefine} (h : i.WellFormed) :
    writeLogger i = .ok (.map i.fields) := by
  have hhead : writeLogger i = i.appenders.foldlM pushAppender (.map i.headFields) := by
    by_cases hl : i.level = .unknow <;> by_cases hf : i.formatter = "" <;>
      simp [writeLogger, LogDefine.headFields, hl, hf, Node.set, bind, Except.bind]
  have hloop := foldlM_pushAppenderNode i.headFields_ne_appenders
    (fun a ha => writeAppender_eq (h.2 a ha)) []
  have hpush : pushAppender = fun n a => (do pushAppenderNode n (← writeAppender a)) := rfl
  rw [hhead, LogDefine.fields, hpush]
  simpa [appendersField] using hloop

theorem readAppenders_seq (Y : YamlCpp) (items : List Node) :
    readAppenders Y (.seq items) = items.foldlM (fun acc a => pushReadAppender Y acc (some a)) [] :=
  foldlM_range_getElem? (pushReadAppender Y) items []

theorem readAppenders_fields (Y : YamlCpp) {apps : List LogAppenderDefine}
    (h : ∀ a ∈ apps, a.WellFormed) :
    readAppenders Y (.seq (apps.map fun a => .map a.fields)) =
      .ok (apps.map fun a => { a with level := .unknow }) := by
  rw [readAppenders_seq, List.foldlM_map]
  refine foldlM_concat (fun acc a ha => ?_) []
  simp [pushReadAppender, readAppender_fields Y (h a ha), bind, Except.bind, pure, Except.pure]

theorem readLogger_fields (Y : YamlCpp) {i : LogDefine} (h : i.WellFormed) :
    readLogger Y (some (.map i.fields)) = .ok (some i.reread) := by
  obtain ⟨name, level, formatter, apps⟩ := i
  have hread := readAppenders_fields Y h.2
  have hlevel : Level.fromString level.toString = level := Level.fromString_toString h.1
  have hempty : Level.fromString "" = .unknow := rfl
  by_cases hl : level = .unknow <;> by_cases hf : formatter = "" <;>
    by_cases happs : apps = [] <;>
    simp_all [readLogger, readField, LogDefine.fields, LogDefine.headFields, appendersField,
      LogDefine.reread, Node.get_map, Node.asString, bind, Except.bind, pure, Except.pure]

/-! ## The whole set -/

/-- The node written for a list of definitions. -/
def writtenNode (is : List LogDefine) : Node :=
  if is = [] then .null else .seq (is.map fun i => .map i.fields)

theorem writtenNode_eq (is : List LogDefine) :
    writtenNode is = Node.ofItems (is.map fun i => .map i.fields) := by
  simp [writtenNode, Node.ofItems]

theorem readLogDefines_ofItems (Y : YamlCpp) (items : List Node) :
    readLogDefines Y (Node.ofItems items) =
      items.foldlM (fun set n => insertReadLogger Y set (some n)) ∅ :=
  foldlM_range_ofItems Y (insertReadLogger Y) items ∅

/-- Reading items each of which is a logger. -/
theorem readLogDefines_loggers (Y : YamlCpp) {α : Type} {node : α → Node} {define : α → LogDefine}
    {l : List α} (h : ∀ a ∈ l, readLogger Y (some (node a)) = .ok (some (define a))) :
    readLogDefines Y (Node.ofItems (l.map node)) =
      .ok ((l.map define).foldl KeyedSet.insert ∅) := by
  rw [readLogDefines_ofItems, List.foldlM_map, List.foldl_map]
  refine foldlM_ok (fun set a ha => ?_) ∅
  simp [insertReadLogger, h a ha, bind, Except.bind, pure, Except.pure]

/-- What is written is read with every definition up to `reread`. -/
theorem logDefinesOfString_written {Y : YamlCpp} {S : LogDefineSet} (hS : ∀ i ∈ S, i.WellFormed)
    {v : String} (hload : Y.load v = .ok (writtenNode S.elems)) :
    ∃ R : LogDefineSet, logDefinesOfString Y v = .ok R ∧
      R.elems = S.elems.map LogDefine.reread := by
  have hsorted : (S.elems.map LogDefine.reread).Pairwise fun a b => a.name < b.name :=
    List.pairwise_map.2 S.sorted
  refine ⟨_, ?_, KeyedSet.elems_foldl_insert hsorted ∅ (by simp)⟩
  simp only [logDefinesOfString, hload, bind, Except.bind]
  rw [writtenNode_eq]
  exact readLogDefines_loggers Y fun i hi => readLogger_fields Y (hS i hi)

/-- Writing a set and reading it back keeps every definition up to `reread`. -/
theorem readBack_eq {Y : YamlCpp} (hY : Y.LoadPrint) {S : LogDefineSet}
    (hS : ∀ i ∈ S, i.WellFormed) :
    ∃ R : LogDefineSet, (do logDefinesOfString Y (← logDefinesToString Y S)) = .ok R ∧
      R.elems = S.elems.map LogDefine.reread := by
  have hwrite : writeLogDefines S = .ok (writtenNode S.elems) := by
    rw [writtenNode_eq]
    exact foldlM_pushBack (fun i hi => writeLogger_eq (hS i hi)) []
  simp only [logDefinesToString, hwrite, bind, Except.bind, pure, Except.pure]
  exact logDefinesOfString_written hS (hY _)

theorem LogDefine.reread_eq_self_iff (i : LogDefine) :
    i.reread = i ↔ i.formatter = "" ∧ ∀ a ∈ i.appenders, a.level = .unknow := by
  have happ : ∀ a : LogAppenderDefine, { a with level := .unknow } = a ↔ a.level = .unknow := by
    intro a
    constructor
    · intro h; rw [← h]
    · intro h; rw [← h]
  have hmap : i.appenders.map (fun a => { a with level := .unknow }) = i.appenders ↔
      ∀ a ∈ i.appenders, a.level = .unknow :=
    map_eq_self_iff.trans (forall₂_congr fun a _ => happ a)
  rw [← hmap]
  constructor
  · intro h
    exact ⟨by rw [← h]; rfl, congrArg LogDefine.appenders h⟩
  · rintro ⟨hf, ha⟩
    rw [LogDefine.reread, ha, ← hf]

/-- **Round trip.** Decoding undoes encoding exactly on the sets without logger formatters and
    without appender levels. -/
theorem logDefines_roundTrip_iff {Y : YamlCpp} (hY : Y.LoadPrint) {S : LogDefineSet}
    (hS : ∀ i ∈ S, i.WellFormed) :
    (do logDefinesOfString Y (← logDefinesToString Y S)) = .ok S ↔
      ∀ i ∈ S, i.formatter = "" ∧ ∀ a ∈ i.appenders, a.level = .unknow := by
  obtain ⟨R, hR, helems⟩ := readBack_eq hY hS
  have heq : R = S ↔ S.elems.map LogDefine.reread = S.elems :=
    ⟨fun h => by rw [← helems, h], fun h => KeyedSet.ext (helems.trans h)⟩
  rw [hR, Except.ok.injEq, heq, map_eq_self_iff]
  exact forall₂_congr fun i _ => i.reread_eq_self_iff

/-- The definition of one logger writing INFO and above to `log.txt`. -/
def sampleLogger (formatter : String) : LogDefine :=
  { name := "root", level := .info, formatter, appenders := [{ type := 1, file := "log.txt" }] }

/-- What is printed for the sample logger; the formatter line is there when it is empty. -/
def sampleText (formatterLine : String) : String :=
  "- name: root\n  level: INFO\n" ++ formatterLine ++
  "  appenders:\n    - type: FileLogAppender\n      file: log.txt"

/-- The library prints the sample logger in block style, and nothing for a node without content. -/
noncomputable def definesYaml (is : List LogDefine) (text : String) : YamlCpp :=
  .withTexts [(writtenNode is, text)] [("", .null)]

theorem definesYaml_loads (is : List LogDefine) {text : String} (htext : startsFlow text = false)
    (hne : text ≠ "") :
    (definesYaml is text).LoadPrint :=
  (YamlCpp.withTexts_loadEmit (by simpa using htext) (by simp)).loadPrint
    (YamlCpp.withTexts_load rfl (by simpa using hne.symm) rfl)

theorem logDefines_roundTrip_iff_sample :
    let Y := definesYaml [sampleLogger ""] (sampleText "  formatter: \"\"\n")
    (do logDefinesOfString Y (← logDefinesToString Y ⟨[sampleLogger ""], by simp⟩)) =
      .ok (⟨[sampleLogger ""], by simp⟩ : LogDefineSet) := by
  have hY := definesYaml_loads [sampleLogger ""]
    (show startsFlow (sampleText "  formatter: \"\"\n") = false by decide) (by decide)
  refine (logDefines_roundTrip_iff hY (S := ⟨[sampleLogger ""], by simp⟩) ?_).2 ?_
  · simp [KeyedSet.mem_def, sampleLogger, LogDefine.WellFormed, LogAppenderDefine.WellFormed]
  · simp [KeyedSet.mem_def, sampleLogger]

/-- A logger with a formatter does not come back: the formatter is not written. -/
theorem logDefines_roundTrip_fails :
    ¬ ∀ Y : YamlCpp, Y.LoadPrint → ∀ S : LogDefineSet,
      (∀ i ∈ S, i.WellFormed) → (do logDefinesOfString Y (← logDefinesToString Y S)) = .ok S := by
  intro h
  have hY := definesYaml_loads [sampleLogger "%m%n"]
    (show startsFlow (sampleText "") = false by decide) (by decide)
  have hS : ∀ i ∈ (⟨[sampleLogger "%m%n"], by simp⟩ : LogDefineSet), i.WellFormed := by
    simp [KeyedSet.mem_def, sampleLogger, LogDefine.WellFormed, LogAppenderDefine.WellFormed]
  obtain ⟨R, hR, helems⟩ := readBack_eq hY hS
  rw [h _ hY _ hS, Except.ok.injEq] at hR
  rw [← hR] at helems
  revert helems
  decide

end Ipmsg
