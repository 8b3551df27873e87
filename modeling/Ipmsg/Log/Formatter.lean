import Ipmsg.Basic

set_option autoImplicit false

/-! # The log pattern scanner

`LogFormatter::init` cuts a pattern such as `%d{%Y}%T%m%n` into literals and `%` directives in one
pass over `m_pattern`, with an inner loop for each directive, and then turns the pieces into format
items. Both loops are embedded with their indices. What the C++ code must not do with them (read
past the end, call `substr` beyond the size, let a `size_t` difference wrap, loop forever) is a
`ScanFault`; `Ipmsg.Log.FormatterScan` proves that none occurs. -/

namespace Ipmsg

/-! ## Format items -/

/-- The subclasses of `LogFormatter::FormatItem`, with the data they keep. -/
inductive FormatItem
  | messageFormatItem
  | levelFormatItem
  | elapseFormatItem
  | nameFormatItem
  | threadIdFormatItem
  | fiberIdFormatItem
  | threadNameFormatItem
  | dateTimeFormatItem (format : String)
  | filenameFormatItem
  | lineFormatItem
  | newLineFormatItem
  | stringFormatItem (string : String)
  | tabFormatItem
  deriving DecidableEq, Repr

/-- The constructor of `DateTimeFormatItem`. -/
def FormatItem.newDateTime (format : String) : FormatItem :=
  .dateTimeFormatItem (if format = "" then "%Y-%m-%d %H:%M:%S" else format)

/-- `s_format_items`: the class of each directive name. -/
def formatItemTable : List (String × (String → FormatItem)) :=
  [("m", fun _ => .messageFormatItem),
   ("p", fun _ => .levelFormatItem),
   ("r", fun _ => .elapseFormatItem),
   ("c", fun _ => .nameFormatItem),
   ("t", fun _ => .threadIdFormatItem),
   ("n", fun _ => .newLineFormatItem),
   ("d", FormatItem.newDateTime),
   ("f", fun _ => .filenameFormatItem),
   ("l", fun _ => .lineFormatItem),
   ("T", fun _ => .tabFormatItem),
   ("F", fun _ => .fiberIdFormatItem),
   ("N", fun _ => .threadNameFormatItem)]

/-- `s_format_items.find(key)`. -/
def findFormatItem (key : String) : Option (String → FormatItem) :=
  (formatItemTable.find? (fun e => e.1 = key)).map Prod.snd

/-! ## Access to the pattern -/

inductive ScanFault
  | badIndex
  | outOfRange
  | underflow
  | outOfFuel
  deriving DecidableEq, Repr

/-- `m_pattern[i]`. -/
def charAt (p : List Char) (i : ℕ) : Except ScanFault Char :=
  match p[i]? with
  | some c => .ok c
  | none => .error .badIndex

/-- The difference of two `size_t` values. -/
def sizeSub (a b : ℕ) : Except ScanFault ℕ :=
  if b ≤ a then .ok (a - b) else .error .underflow

/-- `m_pattern.substr(pos, n)`; without a count `n` is the length of the pattern. -/
def substr (p : List Char) (pos n : ℕ) : Except ScanFault (List Char) :=
  if pos ≤ p.length then .ok ((p.drop pos).take n) else .error .outOfRange

/-! ## The inner loop -/

/-- The local variables of the scan of one directive. -/
structure Directive where
  pos : ℕ
  fmtBegin : ℕ := 0
  fmtStatus : ℕ := 0
  iwstr : List Char := []
  iwfmt : List Char := []

/-- The end of the loop body: `++pos`, and at the end of the pattern a name not yet set. -/
def Directive.advance (p : List Char) (i : ℕ) (d : Directive) : Except ScanFault Directive := do
  let pos := d.pos + 1
  if pos = p.length ∧ d.iwstr = [] then
    return { d with pos, iwstr := ← substr p (i + 1) p.length }
  else
    return { d with pos }

/-- One pass of the inner loop, and whether the loop goes on (`break` gives `false`). -/
def scanPass (p : List Char) (i : ℕ) (d : Directive) : Except ScanFault (Directive × Bool) := do
  let c ← charAt p d.pos
  if d.fmtStatus = 0 ∧ !c.isAlpha ∧ c ≠ '{' ∧ c ≠ '}' then
    let n ← sizeSub (← sizeSub d.pos i) 1
    return ({ d with iwstr := ← substr p (i + 1) n }, false)
  else if d.fmtStatus = 0 ∧ c = '{' then
    let n ← sizeSub (← sizeSub d.pos i) 1
    let iwstr ← substr p (i + 1) n
    return ({ d with iwstr, fmtBegin := d.pos, fmtStatus := 1, pos := d.pos + 1 }, true)
  else if d.fmtStatus = 1 ∧ c = '}' then
    let n ← sizeSub (← sizeSub d.pos d.fmtBegin) 1
    let iwfmt ← substr p (d.fmtBegin + 1) n
    return ({ d with iwfmt, fmtStatus := 0, pos := d.pos + 1 }, false)
  else
    return (← d.advance p i, true)

/-- `while (pos < m_pattern.size())`. -/
def scanLoop (p : List Char) (i : ℕ) : ℕ → Directive → Except ScanFault Directive
  | 0, d => if d.pos < p.length then .error .outOfFuel else .ok d
  | fuel + 1, d =>
      if d.pos < p.length then do
        let (d, more) ← scanPass p i d
        if more then scanLoop p i fuel d else return d
      else .ok d

/-! ## The outer loop -/

/-- An entry of `vec`: text, argument, and 0 for a string or 1 for a directive. -/
abbrev VecEntry := List Char × List Char × ℕ

/-- The local variables of `init`, and `m_error`. -/
structure Scan where
  i : ℕ := 0
  str : List Char := []
  vec : List VecEntry := []
  error : Bool := false

/-- The entry for the literal text collected so far, if there is any. -/
def flush (str : List Char) : List VecEntry := if str = [] then [] else [(str, [], 0)]

/-- One round of the outer loop, its `++i` included. -/
def initPass (p : List Char) (s : Scan) : Except ScanFault Scan := do
  let c ← charAt p s.i
  if c ≠ '%' then
    return { s with str := s.str ++ [c], i := s.i + 1 }
  else if s.i + 1 < p.length ∧ p[s.i + 1]? = some '%' then
    -- the `continue` leaves the second '%' to the next round
    return { s with str := s.str ++ ['%'], i := s.i + 1 }
  else
    let d ← scanLoop p s.i p.length { pos := s.i + 1 }
    if d.fmtStatus = 0 then
      let vec := s.vec ++ flush s.str ++ [(d.iwstr, d.iwfmt, 1)]
      return { s with vec, str := [], i := (← sizeSub d.pos 1) + 1 }
    else if d.fmtStatus = 1 then
      let _ ← substr p s.i p.length
      let vec := s.vec ++ [("<< pattern_error >> ".toList, d.iwfmt, 0)]
      return { s with vec, error := true, i := s.i + 1 }
    else
      return { s with i := s.i + 1 }

/-- `for (size_t i = 0; i < m_pattern.size(); ++i)`. -/
def initLoop (p : List Char) : ℕ → Scan → Except ScanFault Scan
  | 0, s => if s.i < p.length then .error .outOfFuel else .ok s
  | fuel + 1, s => if s.i < p.length then do initLoop p fuel (← initPass p s) else .ok s

/-- The entries `init` collects from the pattern, with the text left over, and `m_error`. -/
def initVec (p : List Char) : Except ScanFault (List VecEntry × Bool) := do
  let s ← initLoop p p.length {}
  return (s.vec ++ flush s.str, s.error)

/-! ## The items -/

/-- The item of one entry, and whether it sets `m_error`. -/
def itemOf : VecEntry → FormatItem × Bool
  | (text, fmt, type) =>
      if type = 0 then (.stringFormatItem (String.ofList text), false)
      else match findFormatItem (String.ofList text) with
        | none => (.stringFormatItem ("<<error_format %" ++ String.ofList text ++ ">>"), true)
        | some new => (new (String.ofList fmt), false)

/-- `LogFormatter::init`: `m_items` and `m_error` for a pattern. -/
def LogFormatter.init (pattern : String) : Except ScanFault (List FormatItem × Bool) := do
  let (vec, error) ← initVec pattern.toList
  return (vec.map fun e => (itemOf e).1, error || vec.any fun e => (itemOf e).2)

end Ipmsg
