import Ipmsg.Log.FormatterOrder

set_option autoImplicit false

/-! # The date item

`DateTimeFormatItem::format` lets `strftime` write to a buffer of 64 bytes and prints the buffer as
a C string, whatever `strftime` returned. The formats and the local time are the business of the C
library, which is a parameter. What is in memory that nothing was written to is left open. -/

namespace Ipmsg

/-! ## The C library -/

/-- What the item uses of the C library. -/
structure Libc where
  /-- `struct tm`. -/
  Tm : Type
  /-- `localtime_r`, with `none` where it fails. -/
  localtime_r : ℕ → Option Tm
  /-- The bytes a format stands for at a time, the whole of them. -/
  expand : String → Tm → List UInt8

/-- An expansion is a text without a NUL. -/
def Libc.NoNul (L : Libc) : Prop := ∀ format tm, 0 ∉ L.expand format tm

/-- A byte of memory, and whether `strftime` wrote it. -/
structure Cell where
  byte : UInt8
  written : Bool
  deriving DecidableEq

/-- `char buf[64]`. -/
structure Buf where
  cells : List Cell
  size : cells.length = 64

/-- What is in the local variables before they are set, and what a call of `strftime` leaves in the
    buffer if it fails. -/
structure Stack (L : Libc) where
  tm : L.Tm
  buf : Buf
  left : Buf

/-- `s.c_str()` ends at the first NUL. -/
def cStr (s : String) : String := String.ofList (s.toList.takeWhile (· ≠ '\x00'))

/-- `strftime(buf, sizeof(buf), format, &tm)`: what it returns, and the buffer. -/
def strftime (L : Libc) (stack : Stack L) (format : String) (tm : L.Tm) : ℕ × Buf :=
  let bytes := L.expand format tm
  if h : bytes.length < 64 then
    (bytes.length,
      { cells := (bytes ++ [0]).map (fun b => ⟨b, true⟩) ++ stack.buf.cells.drop (bytes.length + 1)
        size := by
          have hsize := stack.buf.size
          simp only [List.length_append, List.length_map, List.length_singleton, List.length_drop]
          omega })
  else (0, stack.left)

/-- `os << buf`: the bytes up to the first NUL, with `none` if there is no NUL in the buffer. -/
def Buf.print (buf : Buf) : Option (List Cell) :=
  if buf.cells.any (fun c => c.byte = 0) then some (buf.cells.takeWhile fun c => c.byte ≠ 0)
  else none

/-- `DateTimeFormatItem::format` of an item with the format `m_format`: what it prints. -/
def dateTimeFormat (L : Libc) (stack : Stack L) (m_format : String) (time : ℕ) :
    Option (List Cell) :=
  let tm := (L.localtime_r time).getD stack.tm
  let (_, buf) := strftime L stack (cStr m_format) tm
  buf.print

/-! ## What is printed -/

/-- The whole expansion is printed, and nothing that was not written. -/
def PrintsAll (bytes : List UInt8) (printed : Option (List Cell)) : Prop :=
  ∃ cells, printed = some cells ∧ cells.map Cell.byte = bytes ∧ ∀ c ∈ cells, c.written = true

/-- What is printed of a buffer is shorter than the buffer. -/
theorem length_lt_of_print {buf : Buf} {cells : List Cell} (h : buf.print = some cells) :
    cells.length < 64 := by
  unfold Buf.print at h
  split_ifs at h with hnul
  obtain rfl := Option.some.inj h
  obtain ⟨c, hc, hzero⟩ := List.any_eq_true.1 hnul
  have hpre := List.takeWhile_prefix (fun c : Cell => decide (c.byte ≠ 0)) (l := buf.cells)
  refine Nat.lt_of_le_of_ne (buf.size ▸ hpre.length_le) fun heq => ?_
  -- a prefix of full length would be free of NULs
  have hall := List.takeWhile_eq_self_iff.1 (hpre.eq_of_length (heq.trans buf.size.symm)) c hc
  exact of_decide_eq_true hall (of_decide_eq_true hzero)

/-- A text that was written with its NUL is printed. -/
theorem print_written {buf : Buf} {bytes : List UInt8} {rest : List Cell} (hnul : 0 ∉ bytes)
    (hbuf : buf.cells = (bytes ++ [0]).map (fun b => ⟨b, true⟩) ++ rest) :
    buf.print = some (bytes.map fun b => ⟨b, true⟩) := by
  have hpos : ∀ c ∈ bytes.map fun b => (⟨b, true⟩ : Cell), decide (c.byte ≠ 0) = true := by
    intro c hc
    obtain ⟨b, hb, rfl⟩ := List.mem_map.1 hc
    exact decide_eq_true fun hzero : b = 0 => hnul (hzero ▸ hb)
  have hcells : buf.cells = bytes.map (fun b => ⟨b, true⟩) ++ ⟨0, true⟩ :: rest := by
    rw [hbuf, List.map_append, List.append_assoc]
    rfl
  have hany : buf.cells.any (fun c => c.byte = 0) = true := by
    rw [hcells]
    simp
  rw [Buf.print, if_pos hany, hcells, List.takeWhile_append_of_pos hpos,
    List.takeWhile_cons_of_neg (by simp), List.append_nil]

/-- The item prints the whole expansion exactly if it is shorter than the buffer. -/
theorem dateTimeFormat_printsAll_iff {L : Libc} (hnul : L.NoNul) (stack : Stack L)
    (m_format : String) {time : ℕ} {tm : L.Tm} (htm : L.localtime_r time = some tm) :
    PrintsAll (L.expand (cStr m_format) tm) (dateTimeFormat L stack m_format time) ↔
      (L.expand (cStr m_format) tm).length < 64 := by
  have hformat : dateTimeFormat L stack m_format time =
      (strftime L stack (cStr m_format) tm).2.print := by
    rw [dateTimeFormat, htm]
    rfl
  rw [hformat]
  constructor
  · rintro ⟨cells, hprint, hbytes, -⟩
    rw [← hbytes, List.length_map]
    exact length_lt_of_print hprint
  · intro hlt
    have hbuf : (strftime L stack (cStr m_format) tm).2.cells =
        (L.expand (cStr m_format) tm ++ [0]).map (fun b => ⟨b, true⟩) ++
          stack.buf.cells.drop ((L.expand (cStr m_format) tm).length + 1) := by
      rw [strftime, dif_pos hlt]
    have hprint := print_written (hnul (cStr m_format) tm) hbuf
    refine ⟨_, hprint, ?_, ?_⟩
    · rw [List.map_map]
      exact List.map_id _
    · intro c hc
      obtain ⟨b, -, rfl⟩ := List.mem_map.1 hc
      rfl

/-! ## The directive -/

/-- The format of `%d{arg}`, or of `%d`. -/
def dateFormat : Option (List Char) → String
  | none => "%Y-%m-%d %H:%M:%S"
  | some arg => if arg = [] then "%Y-%m-%d %H:%M:%S" else String.ofList arg

theorem item_date (arg : Option (List Char)) :
    (Made.directive ['d'] arg).item = .dateTimeFormatItem (dateFormat arg) := by
  show FormatItem.newDateTime (String.ofList (arg.getD [])) = _
  cases arg with
  | none => rfl
  | some arg =>
      have hempty : String.ofList arg = "" ↔ arg = [] := by
        rw [← String.toList_inj, String.toList_ofList, String.toList_empty]
      simp only [FormatItem.newDateTime, dateFormat, Option.getD_some, hempty]

/-- The item of a directive comes after those of the directives before it. -/
theorem LogFormatter.items_split {pattern : String} {a b : List Token} {name : List Char}
    {arg : Option (List Char)} (h : tokens pattern.toList = a ++ .directive name arg :: b) :
    ∃ before after : List Made, (LogFormatter.new pattern).m_items =
      before.map Made.item ++ (Made.directive name arg).item :: after.map Made.item ∧
        marks before = a.filterMap Token.made := by
  refine ⟨(collect [] a).1 ++ flushText (collect [] a).2, assemble [] b, ?_, ?_⟩
  · rw [LogFormatter.items_assemble, h, assemble_append, assemble_directive, ← List.append_assoc,
      List.map_append, List.map_cons]
  · rw [marks_append, marks_flushText, List.append_nil, marks_collect]

/-- **The date.** For every directive `%d` or `%d{fmt}` of a pattern there is an item that prints
the whole expansion of its format at the local time of the event, and no byte that was not written,
exactly if the expansion is shorter than 64 bytes. -/
theorem LogFormatter.date_iff {L : Libc} (hnul : L.NoNul) {pattern : String} {a b : List Token}
    {arg : Option (List Char)} (h : tokens pattern.toList = a ++ .directive ['d'] arg :: b) :
    (∃ before after : List Made, (LogFormatter.new pattern).m_items =
      before.map Made.item ++ .dateTimeFormatItem (dateFormat arg) :: after.map Made.item ∧
        marks before = a.filterMap Token.made) ∧
    ∀ (stack : Stack L) (time : ℕ) (tm : L.Tm), L.localtime_r time = some tm →
      (PrintsAll (L.expand (cStr (dateFormat arg)) tm)
          (dateTimeFormat L stack (dateFormat arg) time) ↔
        (L.expand (cStr (dateFormat arg)) tm).length < 64) := by
  refine ⟨?_, fun stack time tm htm => dateTimeFormat_printsAll_iff hnul stack _ htm⟩
  rw [← item_date]
  exact LogFormatter.items_split h

/-- A library that is only asked for texts without conversions. -/
def plainLibc : Libc where
  Tm := Unit
  localtime_r _ := some ()
  expand format _ := (format.toList.map fun c => c.toNat.toUInt8).filter (· ≠ 0)

theorem plainLibc_noNul : plainLibc.NoNul := by
  intro format tm h
  exact of_decide_eq_true (List.mem_filter.1 h).2 rfl

/-- A buffer full of zeros. -/
def zeros : Buf := ⟨List.replicate 64 ⟨0, false⟩, List.length_replicate⟩

theorem LogFormatter.date_iff_sample :
    PrintsAll [110, 111, 119] (dateTimeFormat plainLibc ⟨(), zeros, zeros⟩ "now" 0) := by
  have hlist : "%d{now}".toList = ['%', 'd', '{', 'n', 'o', 'w', '}'] := by decide
  have hread : readDirective ['d', '{', 'n', 'o', 'w', '}'] =
      (.directive ['d'] (some ['n', 'o', 'w']), []) := by decide
  have htokens : tokens "%d{now}".toList = [] ++ .directive ['d'] (some ['n', 'o', 'w']) :: [] := by
    rw [hlist, tokens_directive (by decide) hread, tokens_nil, List.nil_append]
  have hiff := (LogFormatter.date_iff plainLibc_noNul htokens).2 ⟨(), zeros, zeros⟩ 0 () rfl
  exact hiff.2 (by decide)

/-- A format of 64 characters is not printed. -/
theorem LogFormatter.date_lost :
    (LogFormatter.new
        (String.ofList ('%' :: 'd' :: '{' :: (List.replicate 64 'x' ++ ['}'])))).m_items =
      [.dateTimeFormatItem (String.ofList (List.replicate 64 'x'))] ∧
    ¬ PrintsAll (plainLibc.expand (cStr (String.ofList (List.replicate 64 'x'))) ())
      (dateTimeFormat plainLibc ⟨(), zeros, zeros⟩ (String.ofList (List.replicate 64 'x')) 0) := by
  constructor
  · have hclosed : '}' ∉ List.replicate 64 'x' :=
      fun h => absurd (List.eq_of_mem_replicate h) (by decide)
    have hread : readDirective ('d' :: '{' :: (List.replicate 64 'x' ++ ['}'])) =
        (.directive ['d'] (some (List.replicate 64 'x')), []) :=
      readDirective_arg (List.forall_mem_singleton.2 (show nameChar 'd' = true by decide))
        hclosed []
    rw [LogFormatter.items_assemble, String.toList_ofList, tokens_directive (by decide) hread,
      tokens_nil, assemble_directive, List.map_append, List.map_cons, item_date]
    rfl
  · have hlength : (plainLibc.expand (cStr (String.ofList (List.replicate 64 'x'))) ()).length =
        64 := by
      simp [plainLibc, cStr]
    rw [dateTimeFormat_printsAll_iff plainLibc_noNul _ _ rfl, hlength]
    exact Nat.lt_irrefl 64

end Ipmsg
