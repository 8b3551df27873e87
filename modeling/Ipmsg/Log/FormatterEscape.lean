import Ipmsg.Log.FormatterGrammar

set_option autoImplicit false

/-! # Escaped percent signs

`%%` is meant to stand for one literal `%`. The branch that sees it appends the `%` and moves on by
one character only, so the second `%` is looked at again: with what follows it becomes a directive,
unless another `%` does. So no pattern with a `%` is only literal text, escaped or not. -/

namespace Ipmsg

/-! ## Formatting -/

/-- `FormatItem::format`; `event` is what the items that are no literals write of an event. -/
def FormatItem.format (event : FormatItem → String) : FormatItem → String
  | .stringFormatItem string => string
  | item => event item

/-- `LogFormatter::format`. -/
def LogFormatter.format (f : LogFormatter) (event : FormatItem → String) : String :=
  f.m_items.foldl (fun ss i => ss ++ i.format event) ""

/-- A text with every `%` doubled. -/
def escapePercent (t : String) : String :=
  String.ofList (t.toList.flatMap fun c => if c = '%' then ['%', '%'] else [c])

/-- The formatter has no error, and its items are literals that make up `t`, which is what it writes
    of every event. -/
def LogFormatter.IsText (f : LogFormatter) (t : String) : Prop :=
  f.m_error = false ∧
    (∃ texts : List String, f.m_items = texts.map .stringFormatItem ∧ String.join texts = t) ∧
    ∀ event, f.format event = t

/-! ## Patterns with a percent sign -/

/-- The last `%` of a run is read as the start of a directive. -/
theorem scan_of_percent {cs : List Char} : ∀ str : List Char, '%' ∈ cs →
    (scan str cs).2 = true ∨ ∃ e ∈ (scan str cs).1, e.2.2 = 1 := by
  induction cs using rounds_induction with
  | nil => exact fun _ h => absurd h List.not_mem_nil
  | char c cs hc ih =>
      intro str h
      rw [scan_char hc]
      exact ih _ ((List.mem_cons.1 h).resolve_left fun heq => hc heq.symm)
  | percent cs hne ih =>
      intro str _
      rw [scan_percent hne]
      exact ih _ (List.mem_of_mem_head? hne)
  | directive cs name arg rest hne hread _ =>
      intro str _
      rw [scan_directive hne hread]
      exact .inr ⟨(name, arg.getD [], 1), by simp, rfl⟩
  | unclosed cs name r rest hne hread _ =>
      intro str _
      rw [scan_unclosed hne hread]
      exact .inl rfl

/-- The entry of a directive is an error, or no literal. -/
theorem itemOf_directive {e : VecEntry} (h : e.2.2 = 1) :
    (itemOf e).2 = true ∨ ∀ string, (itemOf e).1 ≠ .stringFormatItem string := by
  obtain ⟨text, fmt, type⟩ := e
  obtain rfl : type = 1 := h
  simp only [itemOf, Nat.one_ne_zero, if_false]
  cases hfind : findFormatItem (String.ofList text) with
  | none => exact .inl rfl
  | some new =>
      right
      intro string hitem
      obtain ⟨e, he, rfl⟩ := Option.map_eq_some_iff.1 hfind
      have hmem := List.mem_of_find?_eq_some he
      have hno : ∀ e ∈ formatItemTable, ∀ fmt string, e.2 fmt ≠ .stringFormatItem string := by
        simp [formatItemTable, FormatItem.newDateTime]
      exact hno e hmem (String.ofList fmt) string hitem

/-- A pattern with a `%` is not only literal text. -/
theorem LogFormatter.not_isText {pattern : String} (h : '%' ∈ pattern.toList) (t : String) :
    ¬ (LogFormatter.new pattern).IsText t := by
  rintro ⟨herror, ⟨texts, hitems, -⟩, -⟩
  have heq := (LogFormatter.new pattern).items_eq
  rw [LogFormatter.new_m_pattern, itemsOf, Prod.mk.injEq, hitems, herror] at heq
  obtain ⟨hitems, herror⟩ := heq
  have hfalse := Bool.or_eq_false_iff.1 herror.symm
  -- the first `%` is never closed, or it begins a directive
  rcases scan_of_percent [] h with hscan | ⟨e, he, hdirective⟩
  · rw [hscan] at hfalse
    simp at hfalse
  · rcases itemOf_directive hdirective with hitem | hitem
    · have := List.any_eq_false.1 hfalse.2 e he
      exact this hitem
    · have hmem : (itemOf e).1 ∈ texts.map FormatItem.stringFormatItem := by
        rw [hitems]
        exact List.mem_map_of_mem he
      obtain ⟨text, -, htext⟩ := List.mem_map.1 hmem
      exact hitem text htext.symm

/-! ## Texts without one -/

theorem mem_escapePercent {t : String} : '%' ∈ (escapePercent t).toList ↔ '%' ∈ t.toList := by
  rw [escapePercent, String.toList_ofList, List.mem_flatMap]
  constructor
  · rintro ⟨c, hc, hmem⟩
    split_ifs at hmem with heq
    · exact heq ▸ hc
    · rwa [List.mem_singleton.1 hmem]
  · exact fun h => ⟨'%', h, by simp⟩

theorem escapePercent_eq {t : String} (h : '%' ∉ t.toList) : escapePercent t = t := by
  have hmap : ∀ cs : List Char, '%' ∉ cs →
      (cs.flatMap fun c => if c = '%' then ['%', '%'] else [c]) = cs := by
    intro cs
    induction cs with
    | nil => exact fun _ => rfl
    | cons c cs ih =>
        intro hcs
        obtain ⟨hc, hcs⟩ := not_or.1 (fun hor => hcs (List.mem_cons.2 hor))
        rw [List.flatMap_cons, if_neg fun heq => hc heq.symm, ih hcs]
        rfl
  rw [escapePercent, hmap t.toList h, String.ofList_toList]

/-- A pattern without a `%` is one literal, or none. -/
theorem LogFormatter.isText {t : String} (h : '%' ∉ t.toList) : (LogFormatter.new t).IsText t := by
  have heq := (LogFormatter.new t).items_eq
  have hscan : scan [] t.toList = (flush t.toList, false) := by
    have hrun : scan [] (t.toList ++ []) = scan ([] ++ t.toList) [] :=
      scan_run (fun c hc heq => h (heq ▸ hc)) [] []
    rwa [List.append_nil, List.nil_append, scan_nil] at hrun
  rw [LogFormatter.new_m_pattern, hscan, itemsOf, Prod.mk.injEq] at heq
  obtain ⟨hitems, herror⟩ := heq
  by_cases hnil : t.toList = []
  · -- an empty pattern has no items at all
    have ht : t = "" := String.toList_inj.1 hnil
    subst ht
    refine ⟨by simpa [flush] using herror, ⟨[], by simpa [flush] using hitems, rfl⟩,
      fun event => ?_⟩
    rw [LogFormatter.format, hitems]
    rfl
  · simp only [flush, if_neg hnil] at hitems herror
    have hitems : (LogFormatter.new t).m_items = [.stringFormatItem t] := by
      rw [hitems]
      simp [itemOf]
    refine ⟨by simpa [itemOf] using herror, ⟨[t], hitems, by simp [String.join]⟩, fun event => ?_⟩
    rw [LogFormatter.format, hitems]
    simp [FormatItem.format]

/-- **Escaped text.** A formatter built from a text with every `%` doubled has no error and consists
of literals that make up the text exactly when the text has no `%`. -/
theorem LogFormatter.isText_iff (t : String) :
    (LogFormatter.new (escapePercent t)).IsText t ↔ '%' ∉ t.toList := by
  constructor
  · intro htext hmem
    exact LogFormatter.not_isText (mem_escapePercent.2 hmem) t htext
  · intro h
    rw [escapePercent_eq h]
    exact LogFormatter.isText h

/-- The text `100%`: the second `%` becomes a directive without a name. -/
theorem LogFormatter.escaped_error :
    ¬ ∀ t : String, (LogFormatter.new (escapePercent t)).IsText t := by
  intro h
  have hmem : '%' ∈ (escapePercent "100%").toList := by decide
  exact LogFormatter.not_isText hmem "100%" (h "100%")

end Ipmsg
