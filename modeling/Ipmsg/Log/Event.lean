import Ipmsg.Log.DateTime
import Ipmsg.Log.Logger

set_option autoImplicit false

/-! # What is printed of an event

A `LogEvent` has everything the items of a formatter print. `LogFormatter::init` turns the pattern
into items, and `format` has each of them write its part to a stream. The pattern itself has a
meaning too, token by token, as the documentation of `LogFormatter` lists it; what is printed is
this meaning, where the items are in the order of the pattern and the dates fit their buffer. -/

namespace Ipmsg

/-! ## Text -/

theorem bytes_append (s t : String) : bytes (s ++ t) = bytes s ++ bytes t := by
  rw [bytes, String.toByteArray_append, ByteArray.data_append, Array.toList_append]
  rfl

theorem bytes_ofList_append (cs cs' : List Char) :
    bytes (String.ofList (cs ++ cs')) = bytes (String.ofList cs) ++ bytes (String.ofList cs') := by
  rw [String.ofList_append, bytes_append]

/-! ## Events -/

/-- `LogEvent`; `m_file` is the text up to the NUL. -/
structure LogEvent where
  m_file : String
  m_line : Int32
  m_elapse : UInt32
  m_threadId : UInt32
  m_fiberId : UInt32
  m_time : UInt64
  m_threadName : String
  m_ss : String := ""
  m_logger : LoggerPtr
  m_level : Level

namespace LogEvent

/-- `LogEvent::getContent`. -/
def getContent (e : LogEvent) : String := e.m_ss

/-- `e->getSS() << text`. -/
def append (e : LogEvent) (text : String) : LogEvent := { e with m_ss := e.m_ss ++ text }

/-- `LogEvent::format`; `buf` is what `vasprintf` made of its arguments, `none` where it failed. -/
def format (e : LogEvent) (buf : Option String) : LogEvent :=
  match buf with
  | some buf => e.append buf
  | none => e

end LogEvent

/-! ## Formatting -/

/-- The `format` of each class of items: what it writes of an event that is logged at `level`, with
    `none` where it prints memory beyond its buffer. -/
def FormatItem.print (L : Libc) (stack : Stack L) (level : Level) (event : LogEvent) :
    FormatItem → Option (List UInt8)
  | .messageFormatItem => some (bytes event.getContent)
  | .levelFormatItem => some (bytes level.toString)
  | .elapseFormatItem => some (bytes (toString event.m_elapse.toNat))
  | .nameFormatItem => some (bytes event.m_logger)
  | .threadIdFormatItem => some (bytes (toString event.m_threadId.toNat))
  | .fiberIdFormatItem => some (bytes (toString event.m_fiberId.toNat))
  | .threadNameFormatItem => some (bytes event.m_threadName)
  | .dateTimeFormatItem m_format =>
      (dateTimeFormat L stack m_format event.m_time.toNat).map (List.map Cell.byte)
  | .filenameFormatItem => some (bytes event.m_file)
  | .lineFormatItem => some (bytes (toString event.m_line.toInt))
  | .newLineFormatItem => some (bytes "\n")
  | .stringFormatItem m_string => some (bytes m_string)
  | .tabFormatItem => some (bytes "\t")

namespace LogFormatter

/-- One pass of the loop over the items; the locals of the `i`-th item start with `stack i`. -/
def printPass (L : Libc) (stack : ℕ → Stack L) (level : Level) (event : LogEvent)
    (ofs : List UInt8) (i : FormatItem × ℕ) : Option (List UInt8) :=
  (i.1.print L (stack i.2) level event).map fun text => ofs ++ text

/-- `LogFormatter::format` to a stream. -/
def printTo (L : Libc) (stack : ℕ → Stack L) (level : Level) (event : LogEvent) (f : LogFormatter)
    (ofs : List UInt8) : Option (List UInt8) :=
  f.m_items.zipIdx.foldlM (printPass L stack level event) ofs

/-- `LogFormatter::format` to a string. -/
def print (L : Libc) (stack : ℕ → Stack L) (level : Level) (event : LogEvent) (f : LogFormatter) :
    Option (List UInt8) :=
  f.printTo L stack level event []

end LogFormatter

/-! ## The meaning of a pattern -/

/-- What a directive stands for, as the documentation of the patterns has it, or the text that is
    printed for a name it does not have. -/
def directiveMeaning (L : Libc) (tm : L.Tm) (level : Level) (event : LogEvent) (name : String)
    (arg : Option (List Char)) : List UInt8 :=
  match name with
  | "m" => bytes event.getContent
  | "p" => bytes level.toString
  | "r" => bytes (toString event.m_elapse.toNat)
  | "c" => bytes event.m_logger
  | "t" => bytes (toString event.m_threadId.toNat)
  | "n" => bytes "\n"
  | "d" => L.expand (cStr (dateFormat arg)) tm
  | "f" => bytes event.m_file
  | "l" => bytes (toString event.m_line.toInt)
  | "T" => bytes "\t"
  | "F" => bytes (toString event.m_fiberId.toNat)
  | "N" => bytes event.m_threadName
  | _ => bytes ("<<error_format %" ++ name ++ ">>")

section
variable (L : Libc) (tm : L.Tm) (level : Level) (event : LogEvent)

/-- What a token of a pattern stands for. -/
def Token.meaning : Token → List UInt8
  | .text c => bytes (String.ofList [c])
  | .directive name arg => directiveMeaning L tm level event (String.ofList name) arg
  | .unclosed => bytes "<< pattern_error >> "

/-- What the item made of some tokens stands for. -/
def Made.meaning : Made → List UInt8
  | .literal text => bytes (String.ofList text)
  | .directive name arg => directiveMeaning L tm level event (String.ofList name) arg
  | .mark => bytes "<< pattern_error >> "

/-- The dates of a pattern are shorter than the buffer they are printed from. -/
def DatesFit (ts : List Token) : Prop :=
  ∀ arg, .directive ['d'] arg ∈ ts → (L.expand (cStr (dateFormat arg)) tm).length < 64

end

section
variable {L : Libc} {tm : L.Tm} {level : Level} {event : LogEvent}

/-- Joining the literal text of a pattern keeps its meaning. -/
theorem meaning_assemble (ts : List Token) : ∀ str : List Char,
    (∀ a b, ts = a ++ .unclosed :: b → (collect str a).2 = []) →
    (assemble str ts).flatMap (Made.meaning L tm level event) =
      bytes (String.ofList str) ++ ts.flatMap (Token.meaning L tm level event) := by
  have hflush : ∀ str : List Char, (flushText str).flatMap (Made.meaning L tm level event) =
      bytes (String.ofList str) := by
    intro str
    unfold flushText
    split_ifs with hnil
    · rw [hnil]
      rfl
    · exact List.append_nil _
  induction ts with
  | nil =>
      intro str _
      rw [assemble, collect, List.nil_append, hflush, List.flatMap_nil, List.append_nil]
  | cons t ts ih =>
      intro str hclear
      cases t with
      | text c =>
          have hrest := ih (str ++ [c]) fun a b hts => hclear (.text c :: a) b (by rw [hts]; rfl)
          rw [bytes_ofList_append, List.append_assoc] at hrest
          exact hrest
      | directive name arg =>
          have hrest := ih [] fun a b hts => hclear (.directive name arg :: a) b (by rw [hts]; rfl)
          rw [assemble_directive, List.flatMap_append, List.flatMap_cons, hflush, hrest,
            List.flatMap_cons]
          rfl
      | unclosed =>
          -- no text has been collected in front of it
          obtain rfl : str = [] := hclear [] ts rfl
          have hrest := ih [] fun a b hts => hclear (.unclosed :: a) b (by rw [hts]; rfl)
          rw [assemble_unclosed, List.flatMap_cons, hrest, List.flatMap_cons]
          rfl

/-- The item of a directive. -/
theorem itemOf_directive_eq (name arg : List Char) :
    (itemOf (name, arg, 1)).1 = match findFormatItem (String.ofList name) with
      | none => .stringFormatItem ("<<error_format %" ++ String.ofList name ++ ">>")
      | some new => new (String.ofList arg) := by
  cases hfind : findFormatItem (String.ofList name) <;> simp [itemOf, hfind]

theorem directiveMeaning_unknown {name : String} (h : name ∉ directiveNames)
    (arg : Option (List Char)) :
    directiveMeaning L tm level event name arg = bytes ("<<error_format %" ++ name ++ ">>") := by
  unfold directiveMeaning
  split
  case h_13 => rfl
  all_goals exact absurd (by decide) h

/-- An item prints what it stands for. -/
theorem Made.print_item (hnul : L.NoNul) (htm : L.localtime_r event.m_time.toNat = some tm)
    (stack : Stack L) (m : Made)
    (hfit : ∀ arg, m = .directive ['d'] arg → (L.expand (cStr (dateFormat arg)) tm).length < 64) :
    m.item.print L stack level event = some (m.meaning L tm level event) := by
  cases m with
  | literal text => rfl
  | mark => rfl
  | directive name arg =>
      by_cases hdate : name = ['d']
      · subst hdate
        have hprint :=
          (dateTimeFormat_printsAll_iff hnul stack (dateFormat arg) htm).2 (hfit arg rfl)
        obtain ⟨cells, hcells, hbytes, -⟩ := hprint
        rw [item_date]
        show (dateTimeFormat L stack (dateFormat arg) event.m_time.toNat).map _ = _
        rw [hcells, Option.map_some, hbytes]
        rfl
      · have hitem : (Made.directive name arg).item = (itemOf (name, arg.getD [], 1)).1 := rfl
        rw [hitem, itemOf_directive_eq, Made.meaning]
        by_cases hknown : String.ofList name ∈ directiveNames
        · simp only [directiveNames, List.mem_cons, List.not_mem_nil, or_false] at hknown
          rcases hknown with h | h | h | h | h | h | h | h | h | h | h | h
          case inr.inr.inr.inr.inr.inr.inl =>
            exact absurd (String.ofList_injective (h.trans rfl)) hdate
          all_goals
            rw [h]
            rfl
        · rw [findFormatItem_eq_none.2 hknown, directiveMeaning_unknown hknown]
          rfl

/-- Items that print what they stand for print it one after the other. -/
theorem LogFormatter.foldlM_printPass {stack : ℕ → Stack L} {ms : List (Made × ℕ)}
    (h : ∀ m ∈ ms, m.1.item.print L (stack m.2) level event =
      some (m.1.meaning L tm level event)) (ofs : List UInt8) :
    ms.foldlM (fun ofs m => printPass L stack level event ofs (m.1.item, m.2)) ofs =
      some (ofs ++ (ms.map Prod.fst).flatMap (Made.meaning L tm level event)) := by
  induction ms generalizing ofs with
  | nil => simp
  | cons m ms ih =>
      have hrest := ih (fun m' hm' => h m' (List.mem_cons_of_mem m hm'))
        (ofs ++ m.1.meaning L tm level event)
      rw [List.foldlM_cons, printPass, h m List.mem_cons_self, List.map_cons, List.flatMap_cons,
        ← List.append_assoc]
      exact hrest

/-- What is in the stream already stays in front. -/
theorem LogFormatter.printTo_eq (stack : ℕ → Stack L) (f : LogFormatter) (ofs : List UInt8) :
    f.printTo L stack level event ofs =
      (f.print L stack level event).map fun text => ofs ++ text := by
  have happend : ∀ (items : List (FormatItem × ℕ)) (acc : List UInt8),
      items.foldlM (printPass L stack level event) (ofs ++ acc) =
        (items.foldlM (printPass L stack level event) acc).map fun text => ofs ++ text := by
    intro items
    induction items with
    | nil => exact fun acc => rfl
    | cons i items ih =>
        intro acc
        rw [List.foldlM_cons, List.foldlM_cons, printPass, printPass]
        cases i.1.print L (stack i.2) level event with
        | none => rfl
        | some text =>
            have hrest := ih (acc ++ text)
            rw [← List.append_assoc] at hrest
            exact hrest
  have hall := happend f.m_items.zipIdx []
  rwa [List.append_nil] at hall

/-- A directive among the items is one of the pattern. -/
theorem mem_tokens_of_mem_assemble {ts : List Token} {name : List Char} {arg : Option (List Char)}
    (h : .directive name arg ∈ assemble [] ts) : .directive name arg ∈ ts := by
  have hmarks : marks (assemble [] ts) = ts.filterMap Token.made := by
    rw [assemble, marks_append, marks_flushText, List.append_nil, marks_collect]
  have hmem : .directive name arg ∈ marks (assemble [] ts) := List.mem_filter.2 ⟨h, rfl⟩
  rw [hmarks, List.mem_filterMap] at hmem
  obtain ⟨t, ht, hmade⟩ := hmem
  cases t with
  | text c => exact absurd hmade (by simp [Token.made])
  | unclosed => exact absurd hmade (by simp [Token.made])
  | directive name' arg' =>
      obtain ⟨rfl, rfl⟩ := Made.directive.inj (Option.some.inj hmade)
      exact ht

/-- **What is printed.** With a local time for the event, and dates that fit their buffers, a
formatter prints what the items made of its pattern stand for; that is the meaning of the pattern
itself, token by token, if no literal character is directly in front of an unclosed directive. Both
overloads of `format` print the same. -/
theorem LogFormatter.print_new (hnul : L.NoNul) {pattern : String}
    (htm : L.localtime_r event.m_time.toNat = some tm) (hfit : DatesFit L tm (tokens pattern.toList))
    (stack : ℕ → Stack L) :
    (LogFormatter.new pattern).print L stack level event =
        some ((assemble [] (tokens pattern.toList)).flatMap (Made.meaning L tm level event)) ∧
    (Clear (tokens pattern.toList) →
      (LogFormatter.new pattern).print L stack level event =
        some ((tokens pattern.toList).flatMap (Token.meaning L tm level event))) ∧
    ∀ ofs, (LogFormatter.new pattern).printTo L stack level event ofs =
      ((LogFormatter.new pattern).print L stack level event).map fun text => ofs ++ text := by
  have hitems : (LogFormatter.new pattern).print L stack level event =
      some ((assemble [] (tokens pattern.toList)).flatMap (Made.meaning L tm level event)) := by
    have hitem : ∀ m ∈ (assemble [] (tokens pattern.toList)).zipIdx,
        m.1.item.print L (stack m.2) level event = some (m.1.meaning L tm level event) := by
      refine fun m hm => m.1.print_item hnul htm (stack m.2) fun arg hdate => hfit arg ?_
      exact mem_tokens_of_mem_assemble (hdate ▸ List.fst_mem_of_mem_zipIdx hm)
    rw [print, printTo, LogFormatter.items_assemble, List.zipIdx_map, List.foldlM_map]
    refine (LogFormatter.foldlM_printPass hitem []).trans ?_
    rw [List.zipIdx_map_fst, List.nil_append]
  refine ⟨hitems, fun hclear => ?_, fun ofs => LogFormatter.printTo_eq stack _ ofs⟩
  rw [hitems, meaning_assemble _ [] ((clear_iff _).2 hclear)]
  rfl

end

/-- A pattern that is accepted has no unclosed directive. -/
theorem LogFormatter.clear_of_accepted {pattern : String}
    (h : (LogFormatter.new pattern).m_error = false) : Clear (tokens pattern.toList) := by
  have hscan : ∀ cs str, .unclosed ∈ tokens cs → (scan str cs).2 = true := by
    intro cs
    induction cs using rounds_induction with
    | nil => exact fun str hmem => absurd (tokens_nil ▸ hmem) List.not_mem_nil
    | char c cs hc ih =>
        intro str hmem
        rw [tokens_char hc] at hmem
        rw [scan_char hc]
        exact ih _ ((List.mem_cons.1 hmem).resolve_left nofun)
    | percent cs hne ih =>
        intro str hmem
        rw [tokens_percent hne] at hmem
        rw [scan_percent hne]
        exact ih _ ((List.mem_cons.1 hmem).resolve_left nofun)
    | directive cs name arg rest hne hread ih =>
        intro str hmem
        rw [tokens_directive hne hread] at hmem
        rw [scan_directive hne hread]
        exact ih _ ((List.mem_cons.1 hmem).resolve_left nofun)
    | unclosed cs name r rest hne hread ih =>
        intro str _
        rw [scan_unclosed hne hread]
  have herror := congrArg Prod.snd (LogFormatter.new pattern).items_eq
  rw [LogFormatter.new_m_pattern, h, itemsOf] at herror
  intro c hinfix
  have hmem : Token.unclosed ∈ tokens pattern.toList := hinfix.subset (by simp)
  rw [hscan _ [] hmem] at herror
  exact absurd herror (by simp)

/-- An event without a name of a file or a thread. -/
def plainEvent (content : String) : LogEvent :=
  { m_file := "", m_line := 0, m_elapse := 0, m_threadId := 0, m_fiberId := 0, m_time := 0,
    m_threadName := "", m_ss := content, m_logger := "root", m_level := .info }

theorem LogFormatter.print_new_sample :
    (LogFormatter.new "<%m>").print plainLibc (fun _ => ⟨(), zeros, zeros⟩) .info
      (plainEvent "hello") = some (bytes "<hello>") := by
  have hlist : "<%m>".toList = ['<', '%', 'm', '>'] := by decide
  have hread : readDirective ['m', '>'] = (.directive ['m'] none, ['>']) := by decide
  have htokens : tokens "<%m>".toList = [.text '<', .directive ['m'] none, .text '>'] := by
    rw [hlist, tokens_char (by decide), tokens_directive (by decide) hread,
      tokens_char (by decide), tokens_nil]
  have hfit : DatesFit plainLibc () (tokens "<%m>".toList) := by
    rw [htokens]
    exact fun arg harg => absurd harg (by simp)
  rw [(LogFormatter.print_new plainLibc_noNul rfl hfit _).1, htokens]
  rfl

end Ipmsg
