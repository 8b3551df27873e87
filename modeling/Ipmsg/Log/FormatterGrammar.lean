import Ipmsg.Log.FormatterScan

set_option autoImplicit false

/-! # The grammar of log patterns

A pattern is cut from left to right into literals (maximal runs without `%`) and directives (`%`,
the longest run of letters and `}` as the name, and after a `{` an argument up to the next `}`).
`cut` is this reading of the pattern documentation, and `LogFormatter.new_eq_cut` compares the
formatter with it, for patterns in which no `%` directly follows another. -/

namespace Ipmsg

/-! ## Pieces -/

/-- The part of the pattern a piece stands for. -/
def Piece.text : Piece → List Char
  | .literal text => text
  | .directive name none => '%' :: name
  | .directive name (some arg) => '%' :: name ++ '{' :: arg ++ ['}']
  | .unclosed name rest => '%' :: name ++ '{' :: rest

/-- Every `{` the piece opens is closed. -/
def Piece.Closed : Piece → Prop
  | .unclosed _ _ => False
  | _ => True

/-- The directive names of the pattern documentation. -/
def directiveNames : List String := ["m", "p", "r", "c", "t", "n", "d", "f", "l", "T", "F", "N"]

/-- A directive has one of the documented names. -/
def Piece.Known : Piece → Prop
  | .literal _ => True
  | .directive name _ => String.ofList name ∈ directiveNames
  | .unclosed name _ => String.ofList name ∈ directiveNames

/-- The item of a well-formed piece. -/
def Piece.item : Piece → FormatItem
  | .literal text => .stringFormatItem (String.ofList text)
  | .directive name arg =>
      match findFormatItem (String.ofList name) with
      | some new => new (String.ofList (arg.getD []))
      | none => .stringFormatItem ""
  | .unclosed _ _ => .stringFormatItem ""

instance : DecidablePred Piece.Closed
  | .literal _ => .isTrue trivial
  | .directive _ _ => .isTrue trivial
  | .unclosed _ _ => .isFalse id

instance : DecidablePred Piece.Known
  | .literal _ => .isTrue trivial
  | .directive name _ => inferInstanceAs (Decidable (String.ofList name ∈ directiveNames))
  | .unclosed name _ => inferInstanceAs (Decidable (String.ofList name ∈ directiveNames))

/-! ## Cutting a pattern -/

/-- The pieces of a pattern. -/
def cut : List Char → List Piece
  | [] => []
  | c :: cs =>
      if c = '%' then (readDirective cs).1 :: cut (readDirective cs).2
      else .literal (c :: cs.takeWhile (· ≠ '%')) :: cut (cs.dropWhile (· ≠ '%'))
termination_by cs => cs.length
decreasing_by
  · exact Nat.lt_succ_of_le (readDirective_length_le cs)
  · exact Nat.lt_succ_of_le (List.length_dropWhile_le _ cs)

theorem cut_nil : cut [] = [] := by rw [cut]

theorem cut_percent (cs : List Char) :
    cut ('%' :: cs) = (readDirective cs).1 :: cut (readDirective cs).2 := by
  rw [cut, if_pos rfl]

theorem cut_literal {c : Char} (hc : c ≠ '%') (cs : List Char) :
    cut (c :: cs) =
      .literal (c :: cs.takeWhile (· ≠ '%')) :: cut (cs.dropWhile (· ≠ '%')) := by
  rw [cut, if_neg hc]

theorem readDirective_ne_literal (cs text : List Char) :
    (readDirective cs).1 ≠ .literal text := by
  unfold readDirective
  split
  · split <;> simp
  · simp

/-- Induction on the rounds of `init`: in each of them the rest of the pattern is shorter. -/
theorem rounds_induction {motive : List Char → Prop} (nil : motive [])
    (char : ∀ c cs, c ≠ '%' → motive cs → motive (c :: cs))
    (percent : ∀ cs, cs.head? = some '%' → motive cs → motive ('%' :: cs))
    (directive : ∀ cs name arg rest, cs.head? ≠ some '%' →
      readDirective cs = (.directive name arg, rest) → motive rest → motive ('%' :: cs))
    (unclosed : ∀ cs name r rest, cs.head? ≠ some '%' →
      readDirective cs = (.unclosed name r, rest) → motive cs → motive ('%' :: cs)) :
    ∀ cs, motive cs := by
  intro cs
  induction hlen : cs.length using Nat.strong_induction_on generalizing cs with
  | _ n ih =>
      subst hlen
      cases cs with
      | nil => exact nil
      | cons c cs =>
          have hcs : motive cs := ih cs.length (Nat.lt_succ_self _) cs rfl
          by_cases hc : c = '%'
          · subst hc
            by_cases hne : cs.head? = some '%'
            · exact percent cs hne hcs
            · have hle := readDirective_length_le cs
              match hread : readDirective cs with
              | (.directive name arg, rest) =>
                  rw [hread] at hle
                  exact directive cs name arg rest hne hread
                    (ih rest.length (Nat.lt_succ_of_le hle) rest rfl)
              | (.unclosed name r, rest) => exact unclosed cs name r rest hne hread hcs
              | (.literal text, rest) =>
                  exact absurd (congrArg Prod.fst hread) (readDirective_ne_literal cs text)
          · exact char c cs hc hcs

theorem takeWhile_append_of_mem {c : Char} {r : List Char} (h : c ∈ r) :
    r.takeWhile (· ≠ c) ++ c :: (r.dropWhile (· ≠ c)).tail = r := by
  induction r with
  | nil => exact absurd h List.not_mem_nil
  | cons a r ih =>
      by_cases ha : a = c
      · simp [ha]
      · have hr : c ∈ r := (List.mem_cons.1 h).resolve_left fun h => ha h.symm
        simpa [ha] using ih hr

/-- A directive and the suffix after it are what was read. -/
theorem readDirective_text (cs : List Char) :
    (readDirective cs).1.text ++ (readDirective cs).2 = '%' :: cs := by
  have hname := List.takeWhile_append_dropWhile (p := nameChar) (l := cs)
  unfold readDirective
  split
  · next r hr =>
      rw [hr] at hname
      split
      · next hmem =>
          calc (Piece.directive (cs.takeWhile nameChar) (some (r.takeWhile (· ≠ '}')))).text ++
                (r.dropWhile (· ≠ '}')).tail
              = '%' :: (cs.takeWhile nameChar ++
                  '{' :: (r.takeWhile (· ≠ '}') ++ '}' :: (r.dropWhile (· ≠ '}')).tail)) := by
                simp [Piece.text]
            _ = '%' :: (cs.takeWhile nameChar ++ '{' :: r) := by
                rw [takeWhile_append_of_mem hmem]
            _ = '%' :: cs := by rw [hname]
      · simp [Piece.text, hname]
  · next hr => simp [Piece.text, hname]

/-- Nothing of the pattern is lost, duplicated or reordered. -/
theorem cut_text (p : List Char) : (cut p).flatMap Piece.text = p := by
  induction p using cut.induct with
  | case1 => rw [cut_nil]; rfl
  | case2 cs ih => rw [cut_percent, List.flatMap_cons, ih, readDirective_text]
  | case3 c cs hc ih =>
      rw [cut_literal hc, List.flatMap_cons, ih]
      exact congrArg (c :: ·) List.takeWhile_append_dropWhile

/-! ## The scanner against the grammar -/

/-- The entry `init` collects for a closed piece. -/
def Piece.entry : Piece → VecEntry
  | .literal text => (text, [], 0)
  | .directive name arg => (name, arg.getD [], 1)
  | .unclosed name _ => (name, [], 1)

/-- No `%` directly follows another. -/
def NoDoublePercent (p : List Char) : Prop := ¬ ['%', '%'] <:+: p

instance (p : List Char) : Decidable (NoDoublePercent p) :=
  inferInstanceAs (Decidable (¬ ['%', '%'] <:+: p))

theorem NoDoublePercent.of_suffix {p q : List Char} (h : NoDoublePercent p) (hq : q <:+ p) :
    NoDoublePercent q :=
  fun hin => h (hin.trans hq.isInfix)

theorem NoDoublePercent.head_ne {cs : List Char} (h : NoDoublePercent ('%' :: cs)) :
    cs.head? ≠ some '%' := by
  intro hhead
  obtain ⟨cs', rfl⟩ := List.head?_eq_some_iff.1 hhead
  exact h ⟨[], cs', rfl⟩

/-- A run of characters other than `%` goes to the literal text. -/
theorem scan_run {lead : List Char} (h : ∀ c ∈ lead, c ≠ '%') (str rest : List Char) :
    scan str (lead ++ rest) = scan (str ++ lead) rest := by
  induction lead generalizing str with
  | nil => simp
  | cons c lead ih =>
      rw [List.cons_append, scan_char (h c List.mem_cons_self),
        ih (fun c' hc' => h c' (List.mem_cons_of_mem c hc')), List.append_assoc]
      rfl

theorem takeWhile_run {c : Char} (hc : c ≠ '%') (cs : List Char) :
    ∀ c' ∈ c :: cs.takeWhile (· ≠ '%'), c' ≠ '%' := by
  intro c' hc'
  rcases List.mem_cons.1 hc' with rfl | h
  · exact hc
  · simpa using List.mem_takeWhile_imp h

theorem dropWhile_head {cs : List Char} :
    ∀ c ∈ (cs.dropWhile (· ≠ '%')).head?, c = '%' := by
  intro c hc
  have h := List.head?_dropWhile_not (fun c => decide (c ≠ '%')) cs
  simp_all

/-- What the scanner collects is what the pieces give, and `m_error` is set when one of them is
not closed. The text collected so far ends at a `%` or at the end of the pattern. -/
theorem scan_cut (n : ℕ) : ∀ str cs : List Char, cs.length ≤ n → NoDoublePercent cs →
    (str = [] ∨ ∀ c ∈ cs.head?, c = '%') →
    ((scan str cs).2 = false ↔ ∀ x ∈ cut cs, x.Closed) ∧
      ((scan str cs).2 = false → (scan str cs).1 = flush str ++ (cut cs).map Piece.entry) := by
  induction n with
  | zero =>
      intro str cs hlen _ _
      obtain rfl := List.length_eq_zero_iff.1 (Nat.le_zero.1 hlen)
      simp [scan_nil, cut_nil]
  | succ n ih =>
      intro str cs hlen hno hstr
      cases cs with
      | nil => simp [scan_nil, cut_nil]
      | cons c cs =>
          rw [List.length_cons] at hlen
          by_cases hc : c = '%'
          · -- a directive, which the loop of the source reads in one go
            subst hc
            have hne := hno.head_ne
            have htext := readDirective_text cs
            have hle := readDirective_length_le cs
            rw [cut_percent]
            match hread : readDirective cs with
            | (.directive name arg, rest) =>
                rw [hread] at htext hle
                have hlen' : rest.length ≤ n := Nat.le_trans hle (Nat.le_of_succ_le_succ hlen)
                obtain ⟨hiff, hvec⟩ := ih [] rest hlen' (hno.of_suffix ⟨_, htext⟩) (Or.inl rfl)
                rw [scan_directive hne hread]
                refine ⟨hiff.trans ?_, fun h => ?_⟩
                · simp [Piece.Closed]
                · simp [hvec h, flush, Piece.entry]
            | (.unclosed name r, rest) =>
                rw [scan_unclosed hne hread]
                simp [Piece.Closed]
            | (.literal text, rest) =>
                exact absurd (congrArg Prod.fst hread) (readDirective_ne_literal cs text)
          · -- the literal ends at the next '%'
            obtain rfl : str = [] := hstr.resolve_right fun h => hc (h c rfl)
            have hsplit : (c :: cs.takeWhile (· ≠ '%')) ++ cs.dropWhile (· ≠ '%') = c :: cs :=
              congrArg (c :: ·) List.takeWhile_append_dropWhile
            have hle := List.length_dropWhile_le (fun c => decide (c ≠ '%')) cs
            obtain ⟨hiff, hvec⟩ := ih (c :: cs.takeWhile (· ≠ '%')) (cs.dropWhile (· ≠ '%'))
              (by omega) (hno.of_suffix ⟨_, hsplit⟩) (Or.inr dropWhile_head)
            rw [cut_literal hc, ← hsplit, scan_run (takeWhile_run hc cs), List.nil_append]
            refine ⟨hiff.trans ?_, fun h => ?_⟩
            · simp [Piece.Closed]
            · rw [hvec h, flush, if_neg (List.cons_ne_nil c _)]
              rfl

/-! ## The formatter against the grammar -/

theorem findFormatItem_eq_none {key : String} :
    findFormatItem key = none ↔ key ∉ directiveNames := by
  have hnames : directiveNames = formatItemTable.map Prod.fst := rfl
  rw [findFormatItem, Option.map_eq_none_iff, List.find?_eq_none, hnames, List.mem_map]
  constructor
  · rintro h ⟨e, he, rfl⟩
    exact h e he (by simp)
  · intro h e he hkey
    exact h ⟨e, he, by simpa using hkey⟩

/-- The item made of a closed piece, and whether it sets `m_error`. -/
theorem itemOf_entry {x : Piece} (h : x.Closed) :
    ((itemOf x.entry).2 = false ↔ x.Known) ∧ (x.Known → (itemOf x.entry).1 = x.item) := by
  cases x with
  | literal text => exact ⟨iff_of_true rfl trivial, fun _ => rfl⟩
  | unclosed name rest => exact h.elim
  | directive name arg =>
      have hnone := @findFormatItem_eq_none (String.ofList name)
      cases hfind : findFormatItem (String.ofList name) with
      | none =>
          have hun : ¬ (Piece.directive name arg).Known := hnone.1 hfind
          refine ⟨iff_of_false ?_ hun, fun hk => absurd hk hun⟩
          simp [Piece.entry, itemOf, hfind]
      | some new =>
          have hk : (Piece.directive name arg).Known := by
            refine Classical.not_not.1 fun hun => ?_
            rw [hnone.2 hun] at hfind
            exact absurd hfind (by simp)
          refine ⟨iff_of_true ?_ hk, fun _ => ?_⟩ <;>
            simp [Piece.entry, itemOf, hfind, Piece.item]

/-- **The formatter follows the grammar.** For a pattern without adjacent `%`, `isError()` is false
exactly when every argument is closed and every directive has a documented name; the items are then
those of the pieces, which together are the whole pattern. -/
theorem LogFormatter.new_eq_cut (pattern : String) (h : NoDoublePercent pattern.toList) :
    ((LogFormatter.new pattern).m_error = false ↔
      ∀ x ∈ cut pattern.toList, x.Closed ∧ x.Known) ∧
    ((LogFormatter.new pattern).m_error = false →
      (LogFormatter.new pattern).m_items = (cut pattern.toList).map Piece.item) ∧
    (cut pattern.toList).flatMap Piece.text = pattern.toList := by
  obtain ⟨hclosed, hvec⟩ := scan_cut _ [] _ le_rfl h (Or.inl rfl)
  have hitems := (LogFormatter.new pattern).items_eq
  rw [LogFormatter.new_m_pattern, itemsOf, Prod.mk.injEq] at hitems
  obtain ⟨hitems, herror⟩ := hitems
  have hall : (LogFormatter.new pattern).m_error = false ↔
      ∀ x ∈ cut pattern.toList, x.Closed ∧ x.Known := by
    rw [herror, Bool.or_eq_false_iff, List.any_eq_false]
    constructor
    · rintro ⟨hscan, hentry⟩ x hx
      have hxc := hclosed.1 hscan x hx
      rw [hvec hscan] at hentry
      have hxe := hentry x.entry (List.mem_append_right _ (List.mem_map_of_mem hx))
      exact ⟨hxc, (itemOf_entry hxc).1.1 (Bool.eq_false_iff.2 hxe)⟩
    · intro hall
      have hscan := hclosed.2 fun x hx => (hall x hx).1
      refine ⟨hscan, ?_⟩
      rw [hvec hscan]
      rintro e he
      obtain ⟨x, hx, rfl⟩ := List.mem_map.1 he
      rw [(itemOf_entry (hall x hx).1).1.2 (hall x hx).2]
      simp
  refine ⟨hall, fun hfalse => ?_, cut_text _⟩
  have hx := hall.1 hfalse
  have hscan := hclosed.2 fun x h => (hx x h).1
  rw [hitems, hvec hscan]
  show (List.map Piece.entry (cut pattern.toList)).map (fun e => (itemOf e).1) = _
  rw [List.map_map]
  exact List.map_congr_left fun x h => (itemOf_entry (hx x h).1).2 (hx x h).2

/-- The pattern `[%p]%d{%Y}%n`. -/
theorem LogFormatter.new_eq_cut_sample :
    (LogFormatter.new "[%p]%d{%Y}%n").m_error = false ∧
    (LogFormatter.new "[%p]%d{%Y}%n").m_items =
      [.stringFormatItem "[", .levelFormatItem, .stringFormatItem "]", .dateTimeFormatItem "%Y",
        .newLineFormatItem] := by
  have hlist : "[%p]%d{%Y}%n".toList =
      ['[', '%', 'p', ']', '%', 'd', '{', '%', 'Y', '}', '%', 'n'] := by decide
  have hp : readDirective ['p', ']', '%', 'd', '{', '%', 'Y', '}', '%', 'n'] =
      (.directive ['p'] none, [']', '%', 'd', '{', '%', 'Y', '}', '%', 'n']) := by decide
  have hd : readDirective ['d', '{', '%', 'Y', '}', '%', 'n'] =
      (.directive ['d'] (some ['%', 'Y']), ['%', 'n']) := by decide
  have hn : readDirective ['n'] = (.directive ['n'] none, []) := by decide
  have hcut : cut "[%p]%d{%Y}%n".toList =
      [.literal ['['], .directive ['p'] none, .literal [']'],
        .directive ['d'] (some ['%', 'Y']), .directive ['n'] none] := by
    rw [hlist, cut_literal (by decide)]
    simp [cut_percent, cut_literal, cut_nil, hp, hd, hn]
  obtain ⟨herror, hitems, -⟩ := LogFormatter.new_eq_cut "[%p]%d{%Y}%n" (by rw [hlist]; decide)
  rw [hcut] at herror hitems
  have hfalse := herror.2 (by decide)
  exact ⟨hfalse, (hitems hfalse).trans (by decide)⟩

end Ipmsg
