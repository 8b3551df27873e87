import Ipmsg.Lib.Delimited
import Ipmsg.Log.Event

set_option autoImplicit false

/-! # Lines of the default pattern

The pattern loggers start with prints an event as eight fields, the first seven ended by a tab and
the content by a newline. As long as no tab is in a name and no newline in a message, a log can be
read in one way only: what it says of each event, and how many there were. -/

namespace Ipmsg

/-! ## Bytes of texts -/

theorem bytes_eq (s : String) : bytes s = s.toList.flatMap String.utf8EncodeChar := by
  have hlist := String.toByteArray_ofList (l := s.toList)
  rw [String.ofList_toList] at hlist
  rw [bytes, hlist, List.utf8Encode]
  simp

theorem bytes_inj {s t : String} : bytes s = bytes t ↔ s = t := by
  rw [bytes, bytes, Array.toList_inj, ← ByteArray.ext_iff, String.toByteArray_inj]

/-- The byte of an ASCII character is in no other character. -/
theorem mem_utf8EncodeChar {c d : Char} (hc : c.toNat < 128) :
    UInt8.ofNat c.toNat ∈ String.utf8EncodeChar d ↔ c = d := by
  have hlt : c.val.toNat < 128 := hc
  have hcd : c = d ↔ c.val.toNat = d.val.toNat := by rw [UInt32.toNat_inj, Char.ext_iff]
  have hbyte : ∀ n, UInt8.ofNat c.toNat = UInt8.ofNat n ↔ c.val.toNat = n % 256 := by
    intro n
    rw [← UInt8.toNat_inj, UInt8.toNat_ofNat', UInt8.toNat_ofNat',
      Nat.mod_eq_of_lt (show c.toNat < 2 ^ 8 by omega)]
    rfl
  rw [hcd, String.utf8EncodeChar]
  -- the bytes of a longer encoding start at 128
  split_ifs <;> simp only [List.mem_cons, List.not_mem_nil, or_false, hbyte] <;> omega

theorem mem_bytes {c : Char} (hc : c.toNat < 128) {s : String} :
    UInt8.ofNat c.toNat ∈ bytes s ↔ c ∈ s.toList := by
  rw [bytes_eq, List.mem_flatMap]
  simp only [mem_utf8EncodeChar hc, exists_eq_right']

theorem notMem_repr {c : Char} (hc : c.isDigit = false) (m : ℕ) : c ∉ (Nat.repr m).toList := by
  intro hmem
  rw [Nat.toList_repr] at hmem
  have hdigit := Nat.isDigit_of_mem_toDigits (by decide) (by decide) hmem
  rw [hdigit] at hc
  exact absurd hc (by simp)

/-- There are only digits in a number, and its sign. -/
theorem notMem_toString {c : Char} (hc : c.isDigit = false) (hsign : c ≠ '-') (n : ℤ) :
    c ∉ (toString n).toList := by
  cases n with
  | ofNat m => exact notMem_repr hc m
  | negSucc m =>
      show c ∉ ("-" ++ Nat.repr (m + 1)).toList
      rw [String.toList_append, List.mem_append]
      exact fun hmem => hmem.elim (fun h => hsign (List.mem_singleton.1 h)) (notMem_repr hc (m + 1))

theorem repr_injective {m n : ℕ} (h : Nat.repr m = Nat.repr n) : m = n := by
  have hdigits := congrArg String.toList h
  rw [Nat.toList_repr, Nat.toList_repr] at hdigits
  rw [← Nat.ofDigitChars_ten_toDigits (n := m), hdigits, Nat.ofDigitChars_ten_toDigits]

theorem toString_injective {m n : ℤ} (h : toString m = toString n) : m = n := by
  have hminus : ∀ a b : ℕ, "-" ++ Nat.repr a ≠ Nat.repr b := by
    intro a b heq
    refine notMem_repr (c := '-') (by decide) b ?_
    rw [← heq, String.toList_append]
    exact List.mem_append_left _ (List.mem_singleton_self '-')
  cases m with
  | ofNat m =>
      cases n with
      | ofNat n => exact congrArg Int.ofNat (repr_injective h)
      | negSucc n => exact absurd h.symm (hminus _ _)
  | negSucc m =>
      cases n with
      | ofNat n => exact absurd h (hminus _ _)
      | negSucc n =>
          have hrepr : Nat.repr (m + 1) = Nat.repr (n + 1) := String.append_right_inj "-" |>.1 h
          exact congrArg Int.negSucc (Nat.succ.inj (repr_injective hrepr))

/-! ## The fields of a line -/

theorem Level.tab_notMem_toString (l : Level) : '\t' ∉ l.toString.toList := by
  cases l <;> decide

/-- What the line of an event says. -/
structure LineInfo where
  date : List UInt8
  threadId : UInt32
  threadName : String
  fiberId : UInt32
  level : String
  logger : LoggerPtr
  file : String
  line : Int32
  content : String

/-- What ends the fields: a tab, and after the last one a newline. -/
def lineEnds : List UInt8 := [9, 9, 9, 9, 9, 9, 9, 10]

namespace LineInfo

/-- The fields of the line. -/
def fields (i : LineInfo) : List (List UInt8) :=
  [i.date,
   bytes (toString i.threadId.toNat),
   bytes i.threadName,
   bytes (toString i.fiberId.toNat),
   bytes "[" ++ bytes i.level ++ bytes "]",
   bytes "[" ++ bytes i.logger ++ bytes "]",
   bytes i.file ++ bytes ":" ++ bytes (toString i.line.toInt),
   bytes i.content]

theorem fields_injective {i j : LineInfo} (h : i.fields = j.fields) : i = j := by
  -- the number of the line is behind the last colon
  have hcolon : ∀ n : ℤ, (58 : UInt8) ∉ bytes (toString n) := by
    intro n hmem
    exact notMem_toString (by decide) (by decide) n ((mem_bytes (c := ':') (by decide)).1 hmem)
  simp only [fields, List.cons.injEq, and_true, List.append_cancel_right_eq,
    List.append_cancel_left_eq, bytes_inj, List.append_assoc] at h
  obtain ⟨hdate, hthread, hname, hfiber, hlevel, hlogger, hfile, hcontent⟩ := h
  obtain ⟨hfile, hline⟩ := eq_of_append_cons_last (hcolon _) (hcolon _) hfile
  cases i
  cases j
  simp only [mk.injEq]
  exact ⟨hdate, UInt32.toNat_inj.1 (repr_injective hthread), hname,
    UInt32.toNat_inj.1 (repr_injective hfiber), hlevel, hlogger, bytes_inj.1 hfile,
    Int32.toInt_inj.1 (toString_injective (bytes_inj.1 hline)), hcontent⟩

/-- No field of free text has its end in it. -/
structure Plain (i : LineInfo) : Prop where
  date : 9 ∉ i.date
  threadName : '\t' ∉ i.threadName.toList
  logger : '\t' ∉ i.logger.toList
  file : '\t' ∉ i.file.toList
  content : '\n' ∉ i.content.toList

theorem Plain.delimited {i : LineInfo} (h : i.Plain) {l : Level} (hlevel : i.level = l.toString) :
    Delimited lineEnds i.fields := by
  have htab : ∀ {s : String}, '\t' ∉ s.toList → (9 : UInt8) ∉ bytes s :=
    fun hs hmem => hs ((mem_bytes (c := '\t') (by decide)).1 hmem)
  have hnumber : ∀ n : ℤ, (9 : UInt8) ∉ bytes (toString n) :=
    fun n => htab (notMem_toString (by decide) (by decide) n)
  have hline : (10 : UInt8) ∉ bytes i.content :=
    fun hmem => h.content ((mem_bytes (c := '\n') (by decide)).1 hmem)
  have hopen : (9 : UInt8) ∉ bytes "[" := htab (by decide)
  have hclose : (9 : UInt8) ∉ bytes "]" := htab (by decide)
  have hcolon : (9 : UInt8) ∉ bytes ":" := htab (by decide)
  refine .cons h.date (.cons (hnumber i.threadId.toNat) (.cons (htab h.threadName)
    (.cons (hnumber i.fiberId.toNat) (.cons ?_ (.cons ?_ (.cons ?_ (.cons hline .nil)))))))
  · simp only [List.mem_append, not_or]
    exact ⟨⟨hopen, htab (hlevel ▸ l.tab_notMem_toString)⟩, hclose⟩
  · simp only [List.mem_append, not_or]
    exact ⟨⟨hopen, htab h.logger⟩, hclose⟩
  · simp only [List.mem_append, not_or]
    exact ⟨⟨htab h.file, hcolon⟩, hnumber i.line.toInt⟩

end LineInfo

/-- The date the default pattern prints. -/
def lineDate (L : Libc) (tm : L.Tm) : List UInt8 := L.expand (cStr (dateFormat none)) tm

/-- What the line of an event says, if it is printed at a time and for a level. -/
def lineInfo (L : Libc) (tm : L.Tm) (level : Level) (e : LogEvent) : LineInfo :=
  { date := lineDate L tm, threadId := e.m_threadId, threadName := e.m_threadName,
    fiberId := e.m_fiberId, level := level.toString, logger := e.m_logger, file := e.m_file,
    line := e.m_line, content := e.getContent }

/-- A directive of one letter, up to the next character. -/
theorem tokens_letter {a c : Char} (ha : nameChar a = true) (hc : nameChar c = false)
    (hopen : c ≠ '{') (hne : a ≠ '%') (cs : List Char) :
    tokens ('%' :: a :: c :: cs) = .directive [a] none :: tokens (c :: cs) := by
  have hread : readDirective (a :: c :: cs) = (.directive [a] none, c :: cs) := by
    have hletters : ∀ d ∈ [a], nameChar d = true := List.forall_mem_singleton.2 ha
    exact readDirective_stop hletters hc hopen
  exact tokens_directive (by simpa using hne) hread

theorem tokens_letter_nil {a : Char} (ha : nameChar a = true) (hne : a ≠ '%') :
    tokens ['%', a] = [.directive [a] none] := by
  have hread : readDirective [a] = (.directive [a] none, []) :=
    readDirective_end (List.forall_mem_singleton.2 ha)
  rw [tokens_directive (by simpa using hne) hread, tokens_nil]

/-- The default pattern, read token by token. -/
theorem tokens_defaultPattern : tokens defaultPattern.toList =
    [.directive ['d'] (some "%Y-%m-%d %H:%M:%S".toList), .directive ['T'] none,
     .directive ['t'] none, .directive ['T'] none, .directive ['N'] none, .directive ['T'] none,
     .directive ['F'] none, .directive ['T'] none, .text '[', .directive ['p'] none, .text ']',
     .directive ['T'] none, .text '[', .directive ['c'] none, .text ']', .directive ['T'] none,
     .directive ['f'] none, .text ':', .directive ['l'] none, .directive ['T'] none,
     .directive ['m'] none, .directive ['n'] none] := by
  have hlist : defaultPattern.toList = '%' :: 'd' :: '{' :: ("%Y-%m-%d %H:%M:%S".toList ++ '}' ::
      "%T%t%T%N%T%F%T[%p]%T[%c]%T%f:%l%T%m%n".toList) := by decide
  have hread : readDirective ('d' :: '{' :: ("%Y-%m-%d %H:%M:%S".toList ++ '}' ::
      "%T%t%T%N%T%F%T[%p]%T[%c]%T%f:%l%T%m%n".toList)) = (.directive ['d']
        (some "%Y-%m-%d %H:%M:%S".toList), "%T%t%T%N%T%F%T[%p]%T[%c]%T%f:%l%T%m%n".toList) :=
    readDirective_arg (List.forall_mem_singleton.2 (show nameChar 'd' = true by decide))
      (by decide) _
  rw [hlist, tokens_directive (by decide) hread]
  have hrest : "%T%t%T%N%T%F%T[%p]%T[%c]%T%f:%l%T%m%n".toList = ['%', 'T', '%', 't', '%', 'T', '%',
    'N', '%', 'T', '%', 'F', '%', 'T', '[', '%', 'p', ']', '%', 'T', '[', '%', 'c', ']', '%', 'T',
    '%', 'f', ':', '%', 'l', '%', 'T', '%', 'm', '%', 'n'] := by decide
  rw [hrest]
  simp (disch := decide) only [tokens_letter, tokens_char, tokens_letter_nil]

section
variable {L : Libc} {tm : L.Tm}

/-- An event is printed as a line. -/
theorem print_defaultPattern (level : Level) (event : LogEvent) (hnul : L.NoNul)
    (htm : L.localtime_r event.m_time.toNat = some tm) (hfit : (lineDate L tm).length < 64)
    (stack : ℕ → Stack L) :
    (LogFormatter.new defaultPattern).print L stack level event =
      some (recordText lineEnds (lineInfo L tm level event).fields) := by
  have hdates : DatesFit L tm (tokens defaultPattern.toList) := by
    rw [tokens_defaultPattern]
    intro arg harg
    obtain rfl : arg = some "%Y-%m-%d %H:%M:%S".toList := by simpa using harg
    exact hfit
  have hclear : Clear (tokens defaultPattern.toList) := LogFormatter.clear_of_accepted (by decide)
  have hdate : dateFormat (some "%Y-%m-%d %H:%M:%S".toList) = dateFormat none := by decide
  rw [(LogFormatter.print_new hnul htm hdates stack).2.1 hclear, tokens_defaultPattern]
  simp only [List.flatMap_cons, List.flatMap_nil, Token.meaning, lineInfo, LineInfo.fields, lineEnds,
    recordText_cons, List.append_assoc]
  rw [lineDate, ← hdate]
  rfl

end

/-! ## Reading a log back -/

/-- A call of `LogFormatter::format`; the locals of its items start as `stack` has them. -/
structure FormatCall (L : Libc) where
  level : Level
  event : LogEvent
  stack : ℕ → Stack L

/-- The log that calls of `LogFormatter::format` write one after the other. -/
def printLog {L : Libc} (f : LogFormatter) (calls : List (FormatCall L)) : Option (List UInt8) :=
  calls.foldlM (fun ofs c => f.printTo L c.stack c.level c.event ofs) []

/-- The line of the call is printed, and says `i`. -/
structure FormatCall.Says {L : Libc} (c : FormatCall L) (i : LineInfo) : Prop where
  info : ∃ tm, L.localtime_r c.event.m_time.toNat = some tm ∧ i = lineInfo L tm c.level c.event
  fits : i.date.length < 64
  plain : i.Plain

section
variable {L : Libc} {calls calls' : List (FormatCall L)} {infos infos' : List LineInfo}

/-- What a call prints comes in front of the rest. -/
theorem printLog_cons (f : LogFormatter) (c : FormatCall L) (calls : List (FormatCall L)) :
    printLog f (c :: calls) = (f.print L c.stack c.level c.event).bind fun line =>
      (printLog f calls).map fun rest => line ++ rest := by
  have hfront : ∀ (calls : List (FormatCall L)) (line ofs : List UInt8),
      calls.foldlM (fun ofs (c : FormatCall L) => f.printTo L c.stack c.level c.event ofs)
          (line ++ ofs) =
        (calls.foldlM (fun ofs (c : FormatCall L) => f.printTo L c.stack c.level c.event ofs)
          ofs).map fun rest => line ++ rest := by
    intro calls line
    induction calls with
    | nil => exact fun ofs => rfl
    | cons c calls ih =>
        intro ofs
        rw [List.foldlM_cons, List.foldlM_cons, LogFormatter.printTo_eq, LogFormatter.printTo_eq]
        cases f.print L c.stack c.level c.event with
        | none => rfl
        | some text =>
            have hrest := ih (ofs ++ text)
            rw [← List.append_assoc] at hrest
            exact hrest
  rw [printLog, List.foldlM_cons, LogFormatter.printTo_eq]
  cases f.print L c.stack c.level c.event with
  | none => rfl
  | some line =>
      have hall := hfront calls line []
      rw [List.append_nil] at hall
      exact hall

/-- A log is a line after the other. -/
theorem printLog_eq (hnul : L.NoNul) (h : List.Forall₂ FormatCall.Says calls infos) :
    printLog (LogFormatter.new defaultPattern) calls =
      some ((infos.map LineInfo.fields).flatMap (recordText lineEnds)) := by
  induction h with
  | nil => rfl
  | @cons c i calls infos hc _ ih =>
      obtain ⟨tm, htm, rfl⟩ := hc.info
      rw [printLog_cons, print_defaultPattern c.level c.event hnul htm hc.fits c.stack,
        Option.bind_some, ih, Option.map_some, List.map_cons, List.flatMap_cons]

/-- Every record of the log can be cut off. -/
theorem said_delimited (h : List.Forall₂ FormatCall.Says calls infos) :
    ∀ r ∈ infos.map LineInfo.fields, Delimited lineEnds r := by
  induction h with
  | nil => exact fun r hr => absurd hr List.not_mem_nil
  | cons hc _ ih =>
      intro r hr
      rcases List.mem_cons.1 hr with rfl | hr
      · obtain ⟨tm, -, rfl⟩ := hc.info
        exact hc.plain.delimited rfl
      · exact ih r hr

/-- **Reading a log.** Where no tab is in a name and no newline in a message, a log of the default
pattern starts like another one exactly if what it says is what the other says first. So there is
one way to read it. -/
theorem printLog_prefix_iff (hnul : L.NoNul) (h : List.Forall₂ FormatCall.Says calls infos)
    (h' : List.Forall₂ FormatCall.Says calls' infos') :
    ∃ log log', printLog (LogFormatter.new defaultPattern) calls = some log ∧
      printLog (LogFormatter.new defaultPattern) calls' = some log' ∧
      (log <+: log' ↔ infos <+: infos') ∧ (log = log' ↔ infos = infos') := by
  have hinj : Function.Injective LineInfo.fields := fun _ _ => LineInfo.fields_injective
  refine ⟨_, _, printLog_eq hnul h, printLog_eq hnul h', ⟨fun hpre => ?_, fun hpre => ?_⟩,
    fun heq => ?_, fun heq => by rw [heq]⟩
  · have hfields := prefix_of_recordText_prefix (by decide) (said_delimited h)
      (said_delimited h') hpre
    exact (List.prefix_map_iff_of_injective hinj).1 hfields
  · obtain ⟨rest, rfl⟩ := hpre
    rw [List.map_append, List.flatMap_append]
    exact List.prefix_append _ _
  · exact List.map_injective_iff.2 hinj
      (recordText_inj (by decide) (said_delimited h) (said_delimited h') heq)

/-- With a newline in a message, a log of one call is the log of any number of calls. -/
theorem printLog_forged (hnul : L.NoNul) {c : FormatCall L} {i : LineInfo} (hc : c.Says i)
    {text : String}
    (h : printLog (LogFormatter.new defaultPattern) calls = some (bytes (text ++ "\n"))) :
    printLog (LogFormatter.new defaultPattern)
        [{ c with event := c.event.append ("\n" ++ text) }] =
      printLog (LogFormatter.new defaultPattern) (c :: calls) := by
  obtain ⟨tm, htm, rfl⟩ := hc.info
  -- the content comes last, and the newline that ends it
  have hline : recordText lineEnds (lineInfo L tm c.level (c.event.append ("\n" ++ text))).fields =
      recordText lineEnds (lineInfo L tm c.level c.event).fields ++ bytes (text ++ "\n") := by
    simp only [lineInfo, LineInfo.fields, LogEvent.getContent, LogEvent.append, lineEnds,
      recordText_cons, bytes_append, List.append_assoc, List.cons_append]
    rfl
  have hforged :=
    print_defaultPattern c.level (c.event.append ("\n" ++ text)) hnul htm hc.fits c.stack
  rw [printLog_cons, printLog_cons, h, print_defaultPattern c.level c.event hnul htm hc.fits c.stack,
    hforged, hline]
  exact congrArg some (List.append_nil _)

end

/-- A call without a date or names, from a thread of the number 0. -/
def sampleCall (content : String) : FormatCall plainLibc :=
  { level := .info, event := plainEvent content, stack := fun _ => ⟨(), zeros, zeros⟩ }

theorem printLog_prefix_iff_sample :
    ∃ log log', printLog (LogFormatter.new defaultPattern) [sampleCall "a"] = some log ∧
      printLog (LogFormatter.new defaultPattern) [sampleCall "a", sampleCall "b"] = some log' ∧
      log <+: log' := by
  have hsaid : ∀ content : String, '\n' ∉ content.toList →
      (sampleCall content).Says (lineInfo plainLibc () .info (plainEvent content)) := by
    intro content hcontent
    have hdate : (lineDate plainLibc ()).length < 64 ∧ 9 ∉ lineDate plainLibc () := by decide
    have hnone : '\t' ∉ "".toList := List.not_mem_nil
    have hroot : '\t' ∉ "root".toList := by decide
    exact ⟨⟨(), rfl, rfl⟩, hdate.1, hdate.2, hnone, hroot, hnone, hcontent⟩
  have ha := hsaid "a" (by decide)
  obtain ⟨log, log', hlog, hlog', hiff, -⟩ := printLog_prefix_iff plainLibc_noNul
    (.cons ha .nil) (.cons ha (.cons (hsaid "b" (by decide)) .nil))
  exact ⟨log, log', hlog, hlog', hiff.2 ⟨_, rfl⟩⟩

end Ipmsg
