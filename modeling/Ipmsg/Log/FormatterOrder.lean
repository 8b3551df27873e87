import Mathlib.Data.List.Induction
import Ipmsg.Log.FormatterEscape

set_option autoImplicit false

/-! # The order of the items

`tokens` is the pattern as `LogFormatter::init` reads it: characters of literal text, directives,
and the `%` of a directive whose `{` is not closed, after which the scan goes on behind the `%`. The
literal text collected so far becomes an item in front of a directive and at the end, but not in
front of the mark for an unclosed one. -/

namespace Ipmsg

/-! ## Tokens -/

/-- What one round of `init` reads. -/
inductive Token
  | text (c : Char)
  | directive (name : List Char) (arg : Option (List Char))
  | unclosed
  deriving DecidableEq

/-- The part of the pattern a round passes over. -/
def Token.source : Token → List Char
  | .text c => [c]
  | .directive name arg => (Piece.directive name arg).text
  | .unclosed => ['%']

/-- The rounds of `init`. -/
def tokens : List Char → List Token
  | [] => []
  | c :: cs =>
      if c ≠ '%' then .text c :: tokens cs
      else if cs.head? = some '%' then .text '%' :: tokens cs
      else match _h : readDirective cs with
        | (.directive name arg, rest) => .directive name arg :: tokens rest
        | (_, _) => .unclosed :: tokens cs
termination_by cs => cs.length
decreasing_by
  · exact Nat.lt_succ_self _
  · exact Nat.lt_succ_self _
  · have hle := readDirective_length_le cs
    rw [_h] at hle
    exact Nat.lt_succ_of_le hle
  · exact Nat.lt_succ_self _

theorem tokens_nil : tokens [] = [] := by rw [tokens]

theorem tokens_char {c : Char} (hc : c ≠ '%') (cs : List Char) :
    tokens (c :: cs) = .text c :: tokens cs := by
  rw [tokens, if_pos hc]

theorem tokens_percent {cs : List Char} (h : cs.head? = some '%') :
    tokens ('%' :: cs) = .text '%' :: tokens cs := by
  rw [tokens, if_neg (by simp), if_pos h]

theorem tokens_directive {cs name rest : List Char} {arg : Option (List Char)}
    (hne : cs.head? ≠ some '%') (h : readDirective cs = (.directive name arg, rest)) :
    tokens ('%' :: cs) = .directive name arg :: tokens rest := by
  rw [tokens, if_neg (by simp), if_neg hne]
  split
  · next h' =>
      rw [h] at h'
      simp only [Prod.mk.injEq, Piece.directive.injEq] at h'
      obtain ⟨⟨rfl, rfl⟩, rfl⟩ := h'
      rfl
  · next h' => exact absurd (congrArg Prod.fst (h.symm.trans h')) (by simp_all)

theorem tokens_unclosed {cs name r rest : List Char} (hne : cs.head? ≠ some '%')
    (h : readDirective cs = (.unclosed name r, rest)) :
    tokens ('%' :: cs) = .unclosed :: tokens cs := by
  rw [tokens, if_neg (by simp), if_neg hne]
  split
  · next h' => exact absurd (h.symm.trans h') (by simp)
  · rfl

/-- The tokens are the whole pattern. -/
theorem tokens_source (cs : List Char) : (tokens cs).flatMap Token.source = cs := by
  induction cs using rounds_induction with
  | nil => rw [tokens_nil, List.flatMap_nil]
  | char c cs hc ih =>
      rw [tokens_char hc, List.flatMap_cons, ih]
      rfl
  | percent cs hne ih =>
      rw [tokens_percent hne, List.flatMap_cons, ih]
      rfl
  | directive cs name arg rest hne hread ih =>
      have htext := readDirective_text cs
      rw [hread] at htext
      rw [tokens_directive hne hread, List.flatMap_cons, ih]
      exact htext
  | unclosed cs name r rest hne hread ih =>
      rw [tokens_unclosed hne hread, List.flatMap_cons, ih]
      rfl

/-! ## What is made of them -/

/-- The origin of an item: literal text, a directive, or the mark for an unclosed one. -/
inductive Made
  | literal (text : List Char)
  | directive (name : List Char) (arg : Option (List Char))
  | mark
  deriving DecidableEq

def Made.entry : Made → VecEntry
  | .literal text => (text, [], 0)
  | .directive name arg => (name, arg.getD [], 1)
  | .mark => ("<< pattern_error >> ".toList, [], 0)

/-- The item, as it stands in `m_items`. -/
def Made.item (m : Made) : FormatItem := (itemOf m.entry).1

/-- The literal text the item carries. -/
def Made.text : Made → List Char
  | .literal text => text
  | _ => []

/-- What is pushed for a `%`. -/
def Token.made : Token → Option Made
  | .text _ => none
  | .directive name arg => some (.directive name arg)
  | .unclosed => some .mark

/-- The literal text of a token. -/
def Token.literal : Token → List Char
  | .text c => [c]
  | _ => []

def Made.isLiteral : Made → Bool
  | .literal _ => true
  | _ => false

/-- The items of `vec` that were pushed for a `%`. -/
def marks (ms : List Made) : List Made := ms.filter fun m => !m.isLiteral

/-- The item for the text collected so far, if there is any. -/
def flushText (str : List Char) : List Made := if str = [] then [] else [.literal str]

/-- `vec` and `str` after the tokens. -/
def collect (str : List Char) : List Token → List Made × List Char
  | [] => ([], str)
  | .text c :: ts => collect (str ++ [c]) ts
  | .directive name arg :: ts =>
      (flushText str ++ .directive name arg :: (collect [] ts).1, (collect [] ts).2)
  | .unclosed :: ts => (.mark :: (collect str ts).1, (collect str ts).2)

/-- The items of the tokens. -/
def assemble (str : List Char) (ts : List Token) : List Made :=
  (collect str ts).1 ++ flushText (collect str ts).2

theorem assemble_directive (str name : List Char) (arg : Option (List Char)) (ts : List Token) :
    assemble str (.directive name arg :: ts) =
      flushText str ++ .directive name arg :: assemble [] ts := by
  simp only [assemble, collect, List.append_assoc, List.cons_append]

theorem assemble_unclosed (str : List Char) (ts : List Token) :
    assemble str (.unclosed :: ts) = .mark :: assemble str ts := by
  simp only [assemble, collect, List.cons_append]

theorem entry_flushText (str : List Char) : (flushText str).map Made.entry = flush str := by
  unfold flushText flush
  split_ifs <;> rfl

/-- What `init` collects is made of the tokens. -/
theorem scan_eq_assemble (cs : List Char) :
    ∀ str, (scan str cs).1 = (assemble str (tokens cs)).map Made.entry := by
  induction cs using rounds_induction with
  | nil =>
      intro str
      rw [scan_nil, tokens_nil, assemble, collect, List.nil_append, entry_flushText]
  | char c cs hc ih =>
      intro str
      rw [scan_char hc, tokens_char hc, ih]
      rfl
  | percent cs hne ih =>
      intro str
      rw [scan_percent hne, tokens_percent hne, ih]
      rfl
  | directive cs name arg rest hne hread ih =>
      intro str
      rw [scan_directive hne hread, tokens_directive hne hread, assemble_directive,
        List.map_append, entry_flushText, List.map_cons, ← ih]
      rfl
  | unclosed cs name r rest hne hread ih =>
      intro str
      rw [scan_unclosed hne hread, tokens_unclosed hne hread, assemble_unclosed, List.map_cons,
        ← ih]
      rfl

/-! ## What has been collected in front of a token -/

theorem collect_append (a b : List Token) :
    ∀ str, collect str (a ++ b) = ((collect str a).1 ++ (collect (collect str a).2 b).1,
      (collect (collect str a).2 b).2) := by
  induction a with
  | nil => exact fun str => rfl
  | cons t a ih =>
      intro str
      cases t with
      | text c => exact ih (str ++ [c])
      | directive name arg =>
          simp only [List.cons_append, collect, ih, List.append_assoc]
      | unclosed => simp only [List.cons_append, collect, ih]

theorem assemble_append (str : List Char) (a b : List Token) :
    assemble str (a ++ b) = (collect str a).1 ++ assemble (collect str a).2 b := by
  simp only [assemble, collect_append, List.append_assoc]

theorem marks_flushText (str : List Char) : marks (flushText str) = [] := by
  unfold flushText
  split_ifs <;> rfl

theorem text_flushText (str : List Char) : (flushText str).flatMap Made.text = str := by
  unfold flushText
  split_ifs with h
  · exact h.symm
  · exact List.append_nil str

theorem marks_append (ms ms' : List Made) : marks (ms ++ ms') = marks ms ++ marks ms' :=
  List.filter_append ..

/-- One item has been pushed for each `%`, in their order. -/
theorem marks_collect (a : List Token) :
    ∀ str, marks (collect str a).1 = a.filterMap Token.made := by
  induction a with
  | nil => exact fun str => rfl
  | cons t a ih =>
      intro str
      cases t with
      | text c => exact ih (str ++ [c])
      | directive name arg =>
          rw [collect, marks_append, marks_flushText, List.nil_append]
          exact congrArg (Made.directive name arg :: ·) (ih [])
      | unclosed => exact congrArg (Made.mark :: ·) (ih str)

/-- The literal text is in the items, but for what is still in `str`. -/
theorem text_collect (a : List Token) :
    ∀ str, (collect str a).1.flatMap Made.text ++ (collect str a).2 =
      str ++ a.flatMap Token.literal := by
  induction a with
  | nil => exact fun str => (List.append_nil str).symm
  | cons t a ih =>
      intro str
      cases t with
      | text c =>
          rw [collect, ih, List.flatMap_cons, List.append_assoc]
          rfl
      | directive name arg =>
          rw [collect, List.flatMap_append, text_flushText, List.flatMap_cons, List.append_assoc,
            List.append_assoc, ih, List.flatMap_cons]
          rfl
      | unclosed =>
          rw [collect, List.flatMap_cons, List.append_assoc, ih, List.flatMap_cons]
          rfl

/-! ## The order of text and marks -/

/-- For every `%`, the literal text in front of it is in items in front of the one pushed for it. -/
def KeepsOrder (ts : List Token) (ms : List Made) : Prop :=
  ∀ a t b m, ts = a ++ t :: b → t.made = some m →
    ∃ before after, ms = before ++ m :: after ∧ marks before = a.filterMap Token.made ∧
      a.flatMap Token.literal <+: before.flatMap Made.text

/-- No literal character is directly in front of the `%` of an unclosed directive. -/
def Clear (ts : List Token) : Prop := ∀ c, ¬ [.text c, .unclosed] <:+: ts

theorem eq_nil_of_marks {m : Made} {ms after after' : List Made} (hm : m.isLiteral = false)
    (heq : m :: after = ms ++ after') (hmarks : marks ms = []) : ms = [] := by
  cases ms with
  | nil => rfl
  | cons m' ms =>
      obtain ⟨rfl, -⟩ := List.cons.inj heq
      exact absurd hmarks (by simp [marks, hm])

/-- The place of an item pushed for a `%` is given by those pushed before it. -/
theorem eq_of_marks {m m' : Made} {before before' after after' : List Made}
    (hm : m.isLiteral = false) (hm' : m'.isLiteral = false)
    (heq : before ++ m :: after = before' ++ m' :: after') (hmarks : marks before = marks before') :
    before = before' := by
  rcases List.append_eq_append_iff.1 heq with ⟨ms, rfl, hms⟩ | ⟨ms, rfl, hms⟩
  · rw [marks_append, List.self_eq_append_right] at hmarks
    rw [eq_nil_of_marks hm hms hmarks, List.append_nil]
  · rw [marks_append, List.append_right_eq_self] at hmarks
    rw [eq_nil_of_marks hm' hms hmarks, List.append_nil]

/-- The order is kept exactly if no text is collected when an unclosed directive is met. -/
theorem keepsOrder_assemble_iff (ts : List Token) :
    KeepsOrder ts (assemble [] ts) ↔
      ∀ a b, ts = a ++ .unclosed :: b → (collect [] a).2 = [] := by
  constructor
  · rintro h a b rfl
    obtain ⟨before, after, hsplit, hmarks, htext⟩ := h a .unclosed b .mark rfl rfl
    rw [assemble_append, assemble_unclosed] at hsplit
    rw [← marks_collect a []] at hmarks
    have hbefore := eq_of_marks rfl rfl hsplit hmarks.symm
    have hall := text_collect a []
    rw [List.nil_append, hbefore] at hall
    have hlen := congrArg List.length hall
    have hle := htext.length_le
    rw [List.length_append] at hlen
    exact List.eq_nil_of_length_eq_zero (by omega)
  · rintro h a t b m rfl hm
    have hall := text_collect a []
    rw [List.nil_append] at hall
    cases t with
    | text c => exact absurd hm (by simp [Token.made])
    | directive name arg =>
        obtain rfl := Option.some.inj hm
        refine ⟨(collect [] a).1 ++ flushText (collect [] a).2, assemble [] b, ?_, ?_, ?_⟩
        · rw [assemble_append, assemble_directive, List.append_assoc]
        · rw [marks_append, marks_flushText, List.append_nil, marks_collect]
        · exact ⟨[], by rw [List.append_nil, List.flatMap_append, text_flushText, hall]⟩
    | unclosed =>
        obtain rfl := Option.some.inj hm
        refine ⟨(collect [] a).1, assemble (collect [] a).2 b, ?_, marks_collect a [], ?_⟩
        · rw [assemble_append, assemble_unclosed]
        · rw [h a b rfl, List.append_nil] at hall
          exact ⟨[], by rw [List.append_nil, hall]⟩

/-- Text is collected in front of some unclosed directive exactly if a literal character is directly
    in front of one. -/
theorem clear_iff (ts : List Token) :
    (∀ a b, ts = a ++ .unclosed :: b → (collect [] a).2 = []) ↔ Clear ts := by
  constructor
  · rintro h c ⟨a, b, rfl⟩
    have hstr := h (a ++ [.text c]) b (by simp)
    rw [collect_append] at hstr
    exact absurd hstr (by simp [collect])
  · intro h a
    -- back from the unclosed directive to the last token that is not one
    induction a using List.reverseRecOn with
    | nil => exact fun b _ => rfl
    | append_singleton a t ih =>
        intro b hts
        rw [collect_append]
        cases t with
        | text c => exact absurd ⟨a, b, by rw [hts]; simp⟩ (h c)
        | directive name arg => rfl
        | unclosed => exact ih (.unclosed :: b) (by rw [hts]; simp)

theorem LogFormatter.items_assemble (pattern : String) :
    (LogFormatter.new pattern).m_items =
      (assemble [] (tokens pattern.toList)).map Made.item := by
  have hitems := congrArg Prod.fst (LogFormatter.new pattern).items_eq
  rw [LogFormatter.new_m_pattern, itemsOf, scan_eq_assemble, List.map_map] at hitems
  exact hitems

/-- **Pattern order.** The items of a formatter are made of the tokens, which are the whole pattern.
The literal text in front of every `%` comes before the item or the mark for it exactly if no
literal character is directly in front of the `%` of an unclosed directive. -/
theorem LogFormatter.keepsOrder_iff (pattern : String) :
    (tokens pattern.toList).flatMap Token.source = pattern.toList ∧
    (LogFormatter.new pattern).m_items =
      (assemble [] (tokens pattern.toList)).map Made.item ∧
    (KeepsOrder (tokens pattern.toList) (assemble [] (tokens pattern.toList)) ↔
      Clear (tokens pattern.toList)) :=
  ⟨tokens_source _, LogFormatter.items_assemble pattern,
    (keepsOrder_assemble_iff _).trans (clear_iff _)⟩

/-- The `a` is printed after the mark. -/
theorem LogFormatter.not_keepsOrder :
    (LogFormatter.new "a%d\x7b").m_items =
      [.stringFormatItem "<< pattern_error >> ", .stringFormatItem "ad\x7b"] ∧
    (∀ event, (LogFormatter.new "a%d\x7b").format event = "<< pattern_error >> ad\x7b") ∧
    ¬ KeepsOrder (tokens "a%d\x7b".toList) (assemble [] (tokens "a%d\x7b".toList)) := by
  have hlist : "a%d\x7b".toList = ['a', '%', 'd', '{'] := by decide
  have hread : readDirective ['d', '{'] = (.unclosed ['d'] [], []) := by decide
  have htokens : tokens "a%d\x7b".toList = [.text 'a', .unclosed, .text 'd', .text '{'] := by
    rw [hlist, tokens_char (by decide), tokens_unclosed (by decide) hread, tokens_char (by decide),
      tokens_char (by decide), tokens_nil]
  have hitems : (LogFormatter.new "a%d\x7b").m_items =
      [.stringFormatItem "<< pattern_error >> ", .stringFormatItem "ad\x7b"] := by
    rw [LogFormatter.items_assemble, htokens]
    decide
  rw [htokens]
  refine ⟨hitems, fun event => ?_, fun h => ?_⟩
  · rw [LogFormatter.format, hitems]
    show "" ++ "<< pattern_error >> " ++ "ad\x7b" = _
    decide
  · exact (clear_iff _).1 ((keepsOrder_assemble_iff _).1 h) 'a' ⟨[], [.text 'd', .text '{'], rfl⟩

end Ipmsg
