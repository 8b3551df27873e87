import Ipmsg.Lib.KeyedSet
import Ipmsg.Yaml
import Mathlib.Data.String.Basic

set_option autoImplicit false

/-! # Logger definitions and their YAML codec

The value of the `logs` configuration variable is a `std::set<LogDefine>` ordered by name. This
module embeds the two records, `LogLevel`, and the two `LexicalCast` specialisations that read the
set from YAML text and write it back. -/

namespace Ipmsg

/-! ## Levels -/

/-- `LogLevel::Level`. Besides the six enumerators the code uses one cast, `(LogLevel::Level)100`,
    the level of a deleted logger. -/
inductive Level
  | unknow
  | debug
  | info
  | warn
  | error
  | fatal
  | cast100
  deriving DecidableEq, Repr

namespace Level

/-- The underlying integer; levels are compared through it. -/
def toNat : Level → ℕ
  | unknow => 0
  | debug => 1
  | info => 2
  | warn => 3
  | error => 4
  | fatal => 5
  | cast100 => 100

/-- `LogLevel::ToString`. -/
def toString : Level → String
  | debug => "DEBUG"
  | info => "INFO"
  | warn => "WARN"
  | error => "ERROR"
  | fatal => "FATAL"
  | _ => "UNKNOW"

/-- The texts `LogLevel::FromString` compares with, in order. -/
def fromStringTable : List (String × Level) :=
  [("debug", debug), ("info", info), ("warn", warn), ("error", error), ("fatal", fatal),
   ("DEBUG", debug), ("INFO", info), ("WARN", warn), ("ERROR", error), ("FATAL", fatal)]

/-- `LogLevel::FromString`. -/
def fromString (str : String) : Level :=
  match fromStringTable.find? (fun p => str = p.1) with
  | some p => p.2
  | none => unknow

/-- Reading a level's own text gives the level back, except for the cast value. -/
theorem fromString_toString {l : Level} (h : l ≠ cast100) : fromString l.toString = l := by
  cases l <;> first | rfl | exact absurd rfl h

/-- The cast value has no text. -/
theorem fromString_ne_cast100 (str : String) : fromString str ≠ cast100 := by
  unfold fromString
  cases h : fromStringTable.find? fun p => str = p.1 with
  | none => simp
  | some p =>
      have hp : p ∈ fromStringTable := List.mem_of_find?_eq_some h
      simp only [fromStringTable, List.mem_cons, List.not_mem_nil, or_false] at hp
      rcases hp with rfl | rfl | rfl | rfl | rfl | rfl | rfl | rfl | rfl | rfl <;> simp

end Level

/-! ## The records -/

/-- `LogAppenderDefine`; type 1 is a `FileLogAppender`, type 2 a `StdoutLogAppender`. -/
structure LogAppenderDefine where
  type : ℤ := 0
  level : Level := .unknow
  formatter : String := ""
  file : String := ""
  deriving DecidableEq, Repr

/-- `LogDefine`. -/
structure LogDefine where
  name : String := ""
  level : Level := .unknow
  formatter : String := ""
  appenders : List LogAppenderDefine := []
  deriving DecidableEq, Repr

/-- `std::set<LogDefine>`: `LogDefine::operator<` compares names only. -/
abbrev LogDefineSet := KeyedSet LogDefine.name

/-! ## Reading: `LexicalCast<std::string, std::set<LogDefine>>` -/

/-- The text of an optional field, `""` when it is not defined. -/
def readField (Y : YamlCpp) (n : Option Node) (key : String) : Except StdException String := do
  match ← Node.get n key with
  | none => pure ""
  | some v => Node.asString Y (some v)

/-- The definition read from an `appenders` entry, if it is kept. The level of the entry is not
    read. -/
def readAppender (Y : YamlCpp) (a : Option Node) :
    Except StdException (Option LogAppenderDefine) := do
  match ← Node.get a "type" with
  | none => pure none
  | some t =>
      let type ← Node.asString Y (some t)
      if type = "FileLogAppender" then
        match ← Node.get a "file" with
        | none => pure none
        | some f =>
            let file ← Node.asString Y (some f)
            let formatter ← readField Y a "formatter"
            pure (some { type := 1, file, formatter })
      else if type = "StdoutLogAppender" then
        let formatter ← readField Y a "formatter"
        pure (some { type := 2, formatter })
      else pure none

/-- One pass of the inner loop. -/
def pushReadAppender (Y : YamlCpp) (appenders : List LogAppenderDefine) (a : Option Node) :
    Except StdException (List LogAppenderDefine) := do
  match ← readAppender Y a with
  | none => pure appenders
  | some lad => pure (appenders ++ [lad])

/-- The inner loop over `n["appenders"]`. -/
def readAppenders (Y : YamlCpp) (apps : Node) : Except StdException (List LogAppenderDefine) :=
  (List.range apps.size).foldlM (fun appenders x => do
    pushReadAppender Y appenders (← Node.getIdx Y (some apps) x)) []

/-- The definition read from an entry of the sequence, if the entry has a name. -/
def readLogger (Y : YamlCpp) (n : Option Node) : Except StdException (Option LogDefine) := do
  match ← Node.get n "name" with
  | none => pure none
  | some nm =>
      let name ← Node.asString Y (some nm)
      let level ← readField Y n "level"
      let formatter ← readField Y n "formatter"
      let appenders ← match ← Node.get n "appenders" with
        | none => pure []
        | some apps => readAppenders Y apps
      pure (some { name, level := Level.fromString level, formatter, appenders })

/-- One pass of the outer loop. An entry whose name is taken is not inserted. -/
def insertReadLogger (Y : YamlCpp) (set : LogDefineSet) (n : Option Node) :
    Except StdException LogDefineSet := do
  match ← readLogger Y n with
  | none => pure set
  | some ld => pure (set.insert ld)

/-- The outer loop over the loaded node. -/
def readLogDefines (Y : YamlCpp) (node : Node) : Except StdException LogDefineSet :=
  (List.range node.size).foldlM (fun set i => do
    insertReadLogger Y set (← Node.getIdx Y (some node) i)) ∅

/-- `LexicalCast<std::string, std::set<LogDefine>>`. -/
def logDefinesOfString (Y : YamlCpp) (v : String) : Except StdException LogDefineSet := do
  readLogDefines Y (← Y.load v)

/-! ## Writing: `LexicalCast<std::set<LogDefine>, std::string>` -/

/-- The node of one appender definition. -/
def writeAppender (a : LogAppenderDefine) : Except StdException Node := do
  let mut na := Node.null
  if a.type = 1 then
    na ← na.set "type" (.scalar "FileLogAppender")
    na ← na.set "file" (.scalar a.file)
  else if a.type = 2 then
    na ← na.set "type" (.scalar "StdoutLogAppender")
  if a.level ≠ .unknow then
    na ← na.set "level" (.scalar a.level.toString)
  if a.formatter ≠ "" then
    na ← na.set "formatter" (.scalar a.formatter)
  return na

/-- One pass of the loop over the appenders: `n["appenders"].push_back(na)`. -/
def pushAppender (n : Node) (a : LogAppenderDefine) : Except StdException Node := do
  let na ← writeAppender a
  let apps := (← Node.get (some n) "appenders").getD .null
  n.set "appenders" (← apps.pushBack na)

/-- The node of one logger definition. The formatter is written when it is empty. -/
def writeLogger (i : LogDefine) : Except StdException Node := do
  let mut n := Node.null
  n ← n.set "name" (.scalar i.name)
  if i.level ≠ .unknow then
    n ← n.set "level" (.scalar i.level.toString)
  if i.formatter = "" then
    n ← n.set "formatter" (.scalar i.formatter)
  i.appenders.foldlM pushAppender n

/-- One pass of the loop over the set: `node.push_back(n)`. -/
def pushLogger (node : Node) (i : LogDefine) : Except StdException Node := do
  node.pushBack (← writeLogger i)

/-- The node built from the whole set, null for the empty set. -/
def writeLogDefines (var : LogDefineSet) : Except StdException Node :=
  var.elems.foldlM pushLogger .null

/-- `LexicalCast<std::set<LogDefine>, std::string>`. -/
def logDefinesToString (Y : YamlCpp) (var : LogDefineSet) : Except StdException String := do
  return Y.printLocal (← writeLogDefines var)

end Ipmsg
