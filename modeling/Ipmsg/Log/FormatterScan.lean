import Mathlib.Data.List.TakeWhile
import Ipmsg.Log.Formatter

set_option autoImplicit false

/-! # The scanner on suffixes

The loops of `LogFormatter::init` work on indices into one string. This module describes the same
scan on the suffix that is still to be read: `readDirective` is what the inner loop finds after a
`%`, `scan` what the outer loop collects. `initVec_eq` shows that the loops compute exactly `scan`;
in particular they always terminate and never meet a `ScanFault`, so `LogFormatter.new` is total. -/

namespace Ipmsg

/-! ## A directive -/

/-- The characters the inner loop passes over in a directive name. -/
def nameChar (c : Char) : Bool := c.isAlpha || c = '}'

/-- A piece of a pattern. -/
inductive Piece
  | literal (text : List Char)
  /-- `%name` or `%name{arg}`. -/
  | directive (name : List Char) (arg : Option (List Char))
  /-- `%name{rest`, where no `}` follows. -/
  | unclosed (name rest : List Char)
  deriving DecidableEq

/-- The directive whose `%` has just been read, and the suffix after it. -/
def readDirective (cs : List Char) : Piece × List Char :=
  match cs.dropWhile nameChar with
  | '{' :: r =>
      if '}' ∈ r then
        (.directive (cs.takeWhile nameChar) (some (r.takeWhile (· ≠ '}'))),
          (r.dropWhile (· ≠ '}')).tail)
      else (.unclosed (cs.takeWhile nameChar) r, [])
  | r => (.directive (cs.takeWhile nameChar) none, r)

theorem readDirective_length_le (cs : List Char) : (readDirective cs).2.length ≤ cs.length := by
  have h := List.length_dropWhile_le nameChar cs
  unfold readDirective
  split
  · next r hr =>
      rw [hr, List.length_cons] at h
      have hdrop := List.length_dropWhile_le (fun c => decide (c ≠ '}')) r
      split
      · simp only [List.length_tail]
        omega
      · simp
  · exact h

/-! ## The inner loop reads one directive -/

theorem charAt_append (a b : List Char) (c : Char) : charAt (a ++ c :: b) a.length = .ok c := by
  simp [charAt]

theorem substr_append (a b c : List Char) : substr (a ++ (b ++ c)) a.length b.length = .ok b := by
  simp [substr]

theorem sizeSub_ok {a b : ℕ} (h : b ≤ a) : sizeSub a b = .ok (a - b) := if_pos h

theorem scanLoop_done {p : List Char} {i : ℕ} {d : Directive} (h : p.length ≤ d.pos) (fuel : ℕ) :
    scanLoop p i fuel d = .ok d := by
  cases fuel with
  | zero => exact if_neg (Nat.not_lt.2 h)
  | succ fuel => exact if_neg (Nat.not_lt.2 h)

theorem scanLoop_step {p : List Char} {i fuel : ℕ} {d d' : Directive} {more : Bool}
    (hlt : d.pos < p.length) (h : scanPass p i d = .ok (d', more)) :
    scanLoop p i (fuel + 1) d = if more then scanLoop p i fuel d' else .ok d' := by
  simp only [scanLoop, if_pos hlt, h]
  rfl

/-- `++pos` sets a name that is still empty only at the end of the pattern. -/
theorem advance_eq {p : List Char} {i : ℕ} (hi : i < p.length) (d : Directive) :
    d.advance p i = .ok { d with
      pos := d.pos + 1
      iwstr := if d.pos + 1 = p.length ∧ d.iwstr = [] then p.drop (i + 1) else d.iwstr } := by
  have hsub : substr p (i + 1) p.length = .ok (p.drop (i + 1)) := by
    simp [substr, Nat.succ_le_of_lt hi, List.take_of_length_le]
  by_cases h : d.pos + 1 = p.length ∧ d.iwstr = [] <;>
    simp [Directive.advance, h, hsub, bind, Except.bind, pure, Except.pure]

/-- A pass inside an argument that does not see its end. -/
theorem scanPass_arg {p : List Char} {i : ℕ} (hi : i < p.length) {d : Directive} {c : Char}
    (hc : charAt p d.pos = .ok c) (hs : d.fmtStatus = 1) (hne : c ≠ '}') :
    scanPass p i d = .ok ({ d with
      pos := d.pos + 1
      iwstr := if d.pos + 1 = p.length ∧ d.iwstr = [] then p.drop (i + 1) else d.iwstr }, true) := by
  simp [scanPass, hc, hs, hne, advance_eq hi, bind, Except.bind, pure, Except.pure]

/-- The pass that sees the end of an argument. -/
theorem scanPass_close {p : List Char} {i : ℕ} {d : Directive} {arg : List Char}
    (hc : charAt p d.pos = .ok '}') (hs : d.fmtStatus = 1)
    (hpos : d.pos = d.fmtBegin + 1 + arg.length)
    (hsub : substr p (d.fmtBegin + 1) arg.length = .ok arg) :
    scanPass p i d =
      .ok ({ d with iwfmt := arg, fmtStatus := 0, pos := d.pos + 1 }, false) := by
  have h1 : sizeSub d.pos d.fmtBegin = .ok (arg.length + 1) :=
    (sizeSub_ok (by omega)).trans (congrArg _ (by omega))
  have h2 : sizeSub (arg.length + 1) 1 = .ok arg.length := sizeSub_ok (by omega)
  simp [scanPass, hc, hs, h1, h2, hsub, bind, Except.bind, pure, Except.pure]

/-! ## At the next character

The pattern is `a`, a character, what was `read` since, and then `c`. -/

section
variable {p a read rest : List Char} {x c : Char} (hp : p = a ++ x :: (read ++ c :: rest))
include hp

theorem length_at : p.length = a.length + 1 + read.length + 1 + rest.length := by
  simp [hp]
  omega

theorem drop_at : p.drop (a.length + 1 + read.length) = c :: rest := by
  have hp' : p = (a ++ x :: read) ++ c :: rest := by simp [hp]
  have hlen : (a ++ x :: read).length = a.length + 1 + read.length := by
    simp
    omega
  rw [hp', ← hlen, List.drop_left]

theorem charAt_at : charAt p (a.length + 1 + read.length) = .ok c := by
  have hp' : p = (a ++ x :: read) ++ c :: rest := by simp [hp]
  have hlen : (a ++ x :: read).length = a.length + 1 + read.length := by
    simp
    omega
  rw [hp', ← hlen]
  exact charAt_append _ _ _

theorem substr_at : substr p (a.length + 1) read.length = .ok read := by
  have h := substr_append (a ++ [x]) read (c :: rest)
  simpa [hp] using h

end

/-! ## Arguments -/

/-- The state of the inner loop when it has read the whole argument `arg`, after the `{` at `b`. -/
def Directive.inArg (b : ℕ) (iwstr arg : List Char) : Directive :=
  { pos := b + 1 + arg.length, fmtBegin := b, fmtStatus := 1, iwstr }

theorem Directive.inArg_next (b : ℕ) (iwstr iwstr' arg : List Char) (c : Char) :
    ({ Directive.inArg b iwstr arg with
      pos := (Directive.inArg b iwstr arg).pos + 1, iwstr := iwstr' } : Directive) =
      .inArg b iwstr' (arg ++ [c]) := by
  simp [Directive.inArg, Nat.add_assoc]

/-- Inside an argument the loop runs to the first `}`, or to the end of the pattern. -/
theorem scanLoop_arg {p a : List Char} {i : ℕ} (hi : i < a.length) {rest : List Char} :
    ∀ (arg iwstr : List Char) (fuel : ℕ), p = a ++ '{' :: (arg ++ rest) → rest.length ≤ fuel →
      ∃ d, scanLoop p i fuel (.inArg a.length iwstr arg) = .ok d ∧
        (('}' ∈ rest ∧ d.fmtStatus = 0 ∧ d.iwfmt = arg ++ rest.takeWhile (· ≠ '}') ∧
            d.iwstr = iwstr ∧ i < d.pos ∧ d.pos ≤ p.length ∧
            p.drop d.pos = (rest.dropWhile (· ≠ '}')).tail) ∨
          ('}' ∉ rest ∧ d.fmtStatus = 1 ∧ d.iwfmt = [])) := by
  induction rest with
  | nil =>
      intro arg iwstr fuel hp _
      have hlen : p.length ≤ a.length + 1 + arg.length := by
        simp [hp]
        omega
      exact ⟨_, scanLoop_done hlen fuel, Or.inr ⟨List.not_mem_nil, rfl, rfl⟩⟩
  | cons c rest ih =>
      intro arg iwstr fuel hp hfuel
      rw [List.length_cons] at hfuel
      obtain ⟨fuel, rfl⟩ : ∃ f, fuel = f + 1 := ⟨fuel - 1, by omega⟩
      have hplen := length_at hp
      have hlt : a.length + 1 + arg.length < p.length := by omega
      have hc := charAt_at hp
      by_cases hbrace : c = '}'
      · -- the argument ends here
        subst hbrace
        have hdrop : p.drop (a.length + 1 + arg.length + 1) = rest := by
          rw [← List.drop_drop, drop_at hp, List.drop_one, List.tail_cons]
        have hpass := scanPass_close (i := i) (d := .inArg a.length iwstr arg) hc rfl rfl
          (substr_at hp)
        refine ⟨_, scanLoop_step hlt hpass, Or.inl ⟨List.mem_cons_self, rfl, ?_, rfl, ?_, ?_, ?_⟩⟩
        · simp
        · show i < a.length + 1 + arg.length + 1
          omega
        · show a.length + 1 + arg.length + 1 ≤ p.length
          omega
        · simpa [Directive.inArg] using hdrop
      · -- one more character; at the end of the pattern an empty name is set, which is not used
        have hpass := scanPass_arg (i := i) (d := .inArg a.length iwstr arg) (by omega) hc rfl
          hbrace
        rw [Directive.inArg_next] at hpass
        obtain ⟨d, hd, h⟩ := ih (arg ++ [c]) _ fuel (by simp [hp]) (Nat.le_of_succ_le_succ hfuel)
        refine ⟨d, (scanLoop_step hlt hpass).trans hd, ?_⟩
        have hne : '}' ≠ c := fun h => hbrace h.symm
        rcases h with ⟨hmem, hs, hfmt, hname, hrest⟩ | ⟨hmem, h⟩
        · refine Or.inl ⟨List.mem_cons_of_mem c hmem, hs, ?_, ?_, ?_⟩
          · simpa [hbrace] using hfmt
          · have hpos := List.length_pos_of_mem hmem
            have hend : a.length + 1 + arg.length + 1 ≠ p.length := by omega
            exact hname.trans (if_neg fun h => hend h.1)
          · simpa [hbrace] using hrest
        · exact Or.inr ⟨by simpa [hne] using hmem, h⟩

/-! ## The whole inner loop -/

/-- What the inner loop, started behind the `%` at `i`, leaves in its variables for a piece. -/
def Scanned (p : List Char) (i : ℕ) (d : Directive) : Piece × List Char → Prop
  | (.directive name arg, rest) =>
      d.fmtStatus = 0 ∧ d.iwstr = name ∧ d.iwfmt = arg.getD [] ∧
        i < d.pos ∧ d.pos ≤ p.length ∧ p.drop d.pos = rest
  | (.unclosed _ _, _) => d.fmtStatus = 1 ∧ d.iwfmt = []
  | (.literal _, _) => False

/-- A pass over a character of the name. -/
theorem scanPass_nameChar {p : List Char} {i : ℕ} (hi : i < p.length) {d : Directive} {c : Char}
    (hc : charAt p d.pos = .ok c) (hs : d.fmtStatus = 0) (hname : nameChar c = true) :
    scanPass p i d = .ok ({ d with
      pos := d.pos + 1
      iwstr := if d.pos + 1 = p.length ∧ d.iwstr = [] then p.drop (i + 1) else d.iwstr }, true) := by
  have hopen : c ≠ '{' := by
    rintro rfl
    exact absurd hname (by decide)
  have hletter : c.isAlpha = true ∨ c = '}' := by simpa [nameChar] using hname
  have hfirst : ¬ (c.isAlpha = false ∧ c ≠ '{' ∧ c ≠ '}') := by
    rintro ⟨ha, -, hb⟩
    rcases hletter with h | h
    · simp [h] at ha
    · exact hb h
  simp [scanPass, hc, hs, hopen, advance_eq hi, bind, Except.bind, pure, Except.pure]
  intro ha hb
  exact absurd ⟨ha, hopen, hb⟩ hfirst

/-- The pass that sees the `{` of an argument. -/
theorem scanPass_open {p : List Char} {i : ℕ} {d : Directive} {name : List Char}
    (hc : charAt p d.pos = .ok '{') (hs : d.fmtStatus = 0) (hpos : d.pos = i + 1 + name.length)
    (hsub : substr p (i + 1) name.length = .ok name) :
    scanPass p i d = .ok ({ d with
      iwstr := name, fmtBegin := d.pos, fmtStatus := 1, pos := d.pos + 1 }, true) := by
  have h1 : sizeSub d.pos i = .ok (name.length + 1) :=
    (sizeSub_ok (by omega)).trans (congrArg _ (by omega))
  have h2 : sizeSub (name.length + 1) 1 = .ok name.length := sizeSub_ok (by omega)
  simp [scanPass, hc, hs, h1, h2, hsub, bind, Except.bind, pure, Except.pure]

/-- The pass that sees a character that ends the directive. -/
theorem scanPass_stop {p : List Char} {i : ℕ} {d : Directive} {c : Char} {name : List Char}
    (hc : charAt p d.pos = .ok c) (hs : d.fmtStatus = 0) (hname : nameChar c = false)
    (hopen : c ≠ '{') (hpos : d.pos = i + 1 + name.length)
    (hsub : substr p (i + 1) name.length = .ok name) :
    scanPass p i d = .ok ({ d with iwstr := name }, false) := by
  have h1 : sizeSub d.pos i = .ok (name.length + 1) :=
    (sizeSub_ok (by omega)).trans (congrArg _ (by omega))
  have h2 : sizeSub (name.length + 1) 1 = .ok name.length := sizeSub_ok (by omega)
  obtain ⟨ha, hb⟩ : c.isAlpha = false ∧ c ≠ '}' := by simpa [nameChar] using hname
  simp [scanPass, hc, hs, ha, hb, hopen, h1, h2, hsub, bind, Except.bind, pure, Except.pure]

section
variable {pre : List Char} (hpre : ∀ c ∈ pre, nameChar c = true)
include hpre

theorem readDirective_end : readDirective pre = (.directive pre none, []) := by
  simp [readDirective, List.dropWhile_eq_nil_iff.2 hpre, List.takeWhile_eq_self_iff.2 hpre]

theorem readDirective_stop {c : Char} {r : List Char} (hname : nameChar c = false)
    (hopen : c ≠ '{') : readDirective (pre ++ c :: r) = (.directive pre none, c :: r) := by
  have hdrop : (pre ++ c :: r).dropWhile nameChar = c :: r := by
    rw [List.dropWhile_append_of_pos hpre, List.dropWhile_cons_of_neg (by simp [hname])]
  have htake : (pre ++ c :: r).takeWhile nameChar = pre := by
    rw [List.takeWhile_append_of_pos hpre, List.takeWhile_cons_of_neg (by simp [hname]),
      List.append_nil]
  unfold readDirective
  rw [hdrop, htake]
  split
  · next r' h => exact absurd (List.cons.inj h).1 hopen
  · rfl

theorem readDirective_open (r : List Char) :
    readDirective (pre ++ '{' :: r) =
      if '}' ∈ r then
        (.directive pre (some (r.takeWhile (· ≠ '}'))), (r.dropWhile (· ≠ '}')).tail)
      else (.unclosed pre r, []) := by
  have hbrace : ¬ nameChar '{' = true := by decide
  have hdrop : (pre ++ '{' :: r).dropWhile nameChar = '{' :: r := by
    rw [List.dropWhile_append_of_pos hpre, List.dropWhile_cons_of_neg hbrace]
  have htake : (pre ++ '{' :: r).takeWhile nameChar = pre := by
    rw [List.takeWhile_append_of_pos hpre, List.takeWhile_cons_of_neg hbrace, List.append_nil]
  simp only [readDirective, hdrop, htake]

/-- A name and an argument are read as they stand. -/
theorem readDirective_arg {arg : List Char} (harg : '}' ∉ arg) (rest : List Char) :
    readDirective (pre ++ '{' :: (arg ++ '}' :: rest)) = (.directive pre (some arg), rest) := by
  have hmem : '}' ∈ arg ++ '}' :: rest := by simp
  have hall : ∀ c ∈ arg, decide (c ≠ '}') = true := by
    intro c hc
    exact decide_eq_true fun heq => harg (heq ▸ hc)
  rw [readDirective_open hpre, if_pos hmem, List.takeWhile_append_of_pos hall,
    List.takeWhile_cons_of_neg (by simp), List.append_nil, List.dropWhile_append_of_pos hall,
    List.dropWhile_cons_of_neg (by simp), List.tail_cons]

end

section
variable {p before pre rest : List Char} {c : Char} (hp : p = before ++ '%' :: (pre ++ c :: rest))
  (hpre : ∀ c ∈ pre, nameChar c = true)
include hp

/-- After a character of the name the loop goes on behind it; the name is set exactly when it was
the last character of the pattern. -/
theorem scanLoop_nameChar (hname : nameChar c = true) (fuel : ℕ) :
    scanLoop p before.length (fuel + 1) { pos := before.length + 1 + pre.length } =
      scanLoop p before.length fuel { pos := before.length + 1 + (pre ++ [c]).length
                                      iwstr := if rest = [] then pre ++ [c] else [] } := by
  have hplen := length_at hp
  have hlt : before.length + 1 + pre.length < p.length := by omega
  have hpass := scanPass_nameChar (i := before.length) (by omega)
    (d := { pos := before.length + 1 + pre.length }) (charAt_at hp) rfl hname
  have hend : before.length + 1 + pre.length + 1 = p.length ↔ rest = [] := by
    rw [← List.length_eq_zero_iff]
    omega
  have hdrop : p.drop (before.length + 1) = pre ++ c :: rest := by
    rw [hp, ← List.drop_drop, List.drop_left]
    rfl
  have hnext : ({
      pos := before.length + 1 + pre.length + 1
      iwstr := if before.length + 1 + pre.length + 1 = p.length ∧ ([] : List Char) = [] then
        p.drop (before.length + 1) else [] } : Directive) =
      { pos := before.length + 1 + (pre ++ [c]).length
        iwstr := if rest = [] then pre ++ [c] else [] } := by
    simp only [hend, hdrop]
    by_cases hrest : rest = [] <;> simp [hrest, Nat.add_assoc]
  rw [← hnext]
  exact scanLoop_step hlt hpass

include hpre

/-- A character that ends the directive. -/
theorem scanLoop_stop (hname : nameChar c = false) (hopen : c ≠ '{') (fuel : ℕ) :
    ∃ d, scanLoop p before.length (fuel + 1) { pos := before.length + 1 + pre.length } = .ok d ∧
      Scanned p before.length d (readDirective (pre ++ c :: rest)) := by
  have hplen := length_at hp
  have hlt : before.length + 1 + pre.length < p.length := by omega
  have hpass := scanPass_stop (i := before.length)
    (d := { pos := before.length + 1 + pre.length }) (charAt_at hp) rfl hname hopen rfl (substr_at hp)
  refine ⟨_, scanLoop_step hlt hpass, ?_⟩
  rw [readDirective_stop hpre hname hopen]
  refine ⟨rfl, rfl, rfl, ?_, Nat.le_of_lt hlt, drop_at hp⟩
  show before.length < before.length + 1 + pre.length
  omega

end

/-- The `{` of an argument. -/
theorem scanLoop_open {p before pre rest : List Char} (hp : p = before ++ '%' :: (pre ++ '{' :: rest))
    (hpre : ∀ c ∈ pre, nameChar c = true) {fuel : ℕ} (hfuel : rest.length ≤ fuel) :
    ∃ d, scanLoop p before.length (fuel + 1) { pos := before.length + 1 + pre.length } = .ok d ∧
      Scanned p before.length d (readDirective (pre ++ '{' :: rest)) := by
  have hplen := length_at hp
  have hlt : before.length + 1 + pre.length < p.length := by omega
  have hlen : (before ++ '%' :: pre).length = before.length + 1 + pre.length := by
    simp
    omega
  have hpass := scanPass_open (i := before.length)
    (d := { pos := before.length + 1 + pre.length }) (charAt_at hp) rfl rfl (substr_at hp)
  obtain ⟨d, hd, h⟩ := scanLoop_arg (p := p) (a := before ++ '%' :: pre) (i := before.length)
    (by omega) [] pre fuel (by simp [hp]) hfuel
  rw [hlen] at hd
  refine ⟨d, (scanLoop_step hlt hpass).trans hd, ?_⟩
  rw [readDirective_open hpre]
  rcases h with ⟨hmem, hs, hfmt, hname, hrest⟩ | ⟨hmem, h⟩
  · rw [if_pos hmem]
    exact ⟨hs, hname, hfmt, hrest⟩
  · rw [if_neg hmem]
    exact h

/-- The inner loop computes `readDirective`: the induction is on what it still has to read, and
`pre` is the part of the name it has passed over. -/
theorem scanLoop_name {p before : List Char} {rest : List Char} :
    ∀ (pre : List Char) (fuel : ℕ), p = before ++ '%' :: (pre ++ rest) →
      (∀ c ∈ pre, nameChar c = true) → rest.length ≤ fuel →
      ∃ d, scanLoop p before.length fuel { pos := before.length + 1 + pre.length
                                           iwstr := if rest = [] then pre else [] } = .ok d ∧
        Scanned p before.length d (readDirective (pre ++ rest)) := by
  induction rest with
  | nil =>
      intro pre fuel hp hpre _
      have hlen : p.length = before.length + 1 + pre.length := by
        simp [hp]
        omega
      refine ⟨_, scanLoop_done hlen.le fuel, ?_⟩
      rw [List.append_nil, readDirective_end hpre]
      refine ⟨rfl, rfl, rfl, ?_, hlen.ge, List.drop_of_length_le hlen.le⟩
      show before.length < before.length + 1 + pre.length
      omega
  | cons c rest ih =>
      intro pre fuel hp hpre hfuel
      rw [List.length_cons] at hfuel
      obtain ⟨fuel, rfl⟩ : ∃ f, fuel = f + 1 := ⟨fuel - 1, by omega⟩
      have hfuel' : rest.length ≤ fuel := Nat.le_of_succ_le_succ hfuel
      rw [if_neg (List.cons_ne_nil c rest)]
      cases hname : nameChar c with
      | true =>
          have hpre' : ∀ c' ∈ pre ++ [c], nameChar c' = true := by
            intro c' hc'
            rcases List.mem_append.1 hc' with h | h
            · exact hpre c' h
            · rwa [List.mem_singleton.1 h]
          rw [scanLoop_nameChar hp hname, List.append_cons pre c rest]
          exact ih (pre ++ [c]) fuel (by simp [hp]) hpre' hfuel'
      | false =>
          by_cases hopen : c = '{'
          · subst hopen
            exact scanLoop_open hp hpre hfuel'
          · exact scanLoop_stop hp hpre hname hopen fuel

/-! ## The outer loop -/

/-- What `init` collects from the suffix `cs`, when `str` is the literal text before it. -/
def scan (str : List Char) : List Char → List VecEntry × Bool
  | [] => (flush str, false)
  | c :: cs =>
      if c ≠ '%' then scan (str ++ [c]) cs
      else if cs.head? = some '%' then scan (str ++ ['%']) cs
      else match _h : readDirective cs with
        | (.directive name arg, rest) =>
            (flush str ++ (name, arg.getD [], 1) :: (scan [] rest).1, (scan [] rest).2)
        | (_, _) => (("<< pattern_error >> ".toList, [], 0) :: (scan str cs).1, true)
termination_by cs => cs.length
decreasing_by
  · exact Nat.lt_succ_self _
  · exact Nat.lt_succ_self _
  · have hle := readDirective_length_le cs
    rw [_h] at hle
    exact Nat.lt_succ_of_le hle
  · exact Nat.lt_succ_self _

theorem scan_nil (str : List Char) : scan str [] = (flush str, false) := by
  rw [scan]

theorem scan_char {c : Char} (hc : c ≠ '%') (str cs : List Char) :
    scan str (c :: cs) = scan (str ++ [c]) cs := by
  rw [scan, if_pos hc]

theorem scan_percent {cs : List Char} (h : cs.head? = some '%') (str : List Char) :
    scan str ('%' :: cs) = scan (str ++ ['%']) cs := by
  rw [scan, if_neg (by simp), if_pos h]

theorem scan_directive {cs name rest : List Char} {arg : Option (List Char)}
    (hne : cs.head? ≠ some '%') (h : readDirective cs = (.directive name arg, rest))
    (str : List Char) :
    scan str ('%' :: cs) =
      (flush str ++ (name, arg.getD [], 1) :: (scan [] rest).1, (scan [] rest).2) := by
  rw [scan, if_neg (by simp), if_neg hne]
  split
  · next h' =>
      rw [h] at h'
      simp only [Prod.mk.injEq, Piece.directive.injEq] at h'
      obtain ⟨⟨rfl, rfl⟩, rfl⟩ := h'
      rfl
  · next h' => exact absurd (congrArg Prod.fst (h.symm.trans h')) (by simp_all)

theorem scan_unclosed {cs name r rest : List Char} (hne : cs.head? ≠ some '%')
    (h : readDirective cs = (.unclosed name r, rest)) (str : List Char) :
    scan str ('%' :: cs) = (("<< pattern_error >> ".toList, [], 0) :: (scan str cs).1, true) := by
  rw [scan, if_neg (by simp), if_neg hne]
  split
  · next h' => exact absurd (h.symm.trans h') (by simp)
  · rfl

section
variable {p : List Char} {s : Scan}

theorem initPass_char {c : Char} (hat : charAt p s.i = .ok c) (hc : c ≠ '%') :
    initPass p s = .ok { s with str := s.str ++ [c], i := s.i + 1 } := by
  simp [initPass, hat, hc, bind, Except.bind, pure, Except.pure]

theorem initPass_percent (hat : charAt p s.i = .ok '%')
    (hnext : s.i + 1 < p.length ∧ p[s.i + 1]? = some '%') :
    initPass p s = .ok { s with str := s.str ++ ['%'], i := s.i + 1 } := by
  simp only [initPass, hat, bind, Except.bind, if_pos hnext]
  rfl

variable {d : Directive} (hat : charAt p s.i = .ok '%')
  (hnext : ¬ (s.i + 1 < p.length ∧ p[s.i + 1]? = some '%'))
  (hd : scanLoop p s.i p.length { pos := s.i + 1 } = .ok d)
include hat hnext hd

theorem initPass_directive (hs : d.fmtStatus = 0) (hpos : 1 ≤ d.pos) :
    initPass p s = .ok { s with
      vec := s.vec ++ flush s.str ++ [(d.iwstr, d.iwfmt, 1)], str := [], i := d.pos } := by
  simp only [initPass, hat, bind, Except.bind, if_neg hnext, hd, hs, sizeSub_ok hpos]
  simp [pure, Except.pure, Nat.sub_add_cancel hpos]

theorem initPass_unclosed (hs : d.fmtStatus = 1) (hi : s.i ≤ p.length) :
    initPass p s = .ok { s with
      vec := s.vec ++ [("<< pattern_error >> ".toList, d.iwfmt, 0)], error := true,
      i := s.i + 1 } := by
  have hsub : substr p s.i p.length = .ok ((p.drop s.i).take p.length) := if_pos hi
  simp only [initPass, hat, bind, Except.bind, if_neg hnext, hd, hs, hsub]
  rfl

end

/-- What `init` collects in the end, from the state of its loop. -/
def Scan.total (p : List Char) (s : Scan) : List VecEntry × Bool :=
  (s.vec ++ (scan s.str (p.drop s.i)).1, s.error || (scan s.str (p.drop s.i)).2)

/-- One round moves on in the pattern and leaves the final outcome as it was. -/
theorem initPass_spec {p : List Char} {s : Scan} (hlt : s.i < p.length) :
    ∃ s', initPass p s = .ok s' ∧ s.i < s'.i ∧ s'.i ≤ p.length ∧ s'.total p = s.total p := by
  obtain ⟨c, hc⟩ : ∃ c, p[s.i]? = some c := ⟨_, List.getElem?_eq_getElem hlt⟩
  have hdrop : p.drop s.i = c :: p.drop (s.i + 1) := by
    rw [List.drop_eq_getElem_cons hlt]
    simp_all
  have hat : charAt p s.i = .ok c := by simp [charAt, hc]
  by_cases hpercent : c = '%'
  · subst hpercent
    have hhead : (p.drop (s.i + 1)).head? = p[s.i + 1]? := List.head?_drop
    by_cases hnext : s.i + 1 < p.length ∧ p[s.i + 1]? = some '%'
    · -- the first of two '%'
      refine ⟨_, initPass_percent hat hnext, Nat.lt_succ_self _, hnext.1.le, ?_⟩
      simp [Scan.total, hdrop, scan_percent (hhead.trans hnext.2)]
    · have hne : (p.drop (s.i + 1)).head? ≠ some '%' := by
        rw [hhead]
        intro h
        exact hnext ⟨(List.getElem?_eq_some_iff.1 h).1, h⟩
      have htake : (p.take s.i).length = s.i := List.length_take_of_le hlt.le
      have hp : p = p.take s.i ++ '%' :: ([] ++ p.drop (s.i + 1)) := by
        rw [List.nil_append, ← hdrop, List.take_append_drop]
      obtain ⟨d, hd, hscanned⟩ := scanLoop_name [] p.length hp (by simp) (by simp)
      simp only [htake, List.length_nil, ite_self, List.nil_append] at hd hscanned
      match hread : readDirective (p.drop (s.i + 1)) with
      | (.directive name arg, rest) =>
          rw [hread] at hscanned
          obtain ⟨hs, hname, harg, hpos, hle, hrest⟩ := hscanned
          refine ⟨_, initPass_directive hat hnext hd hs (Nat.one_le_of_lt hpos), hpos, hle, ?_⟩
          simp [Scan.total, hdrop, scan_directive hne hread, hname, harg, hrest]
      | (.unclosed name r, rest) =>
          rw [hread] at hscanned
          obtain ⟨hs, hfmt⟩ := hscanned
          refine ⟨_, initPass_unclosed hat hnext hd hs hlt.le, Nat.lt_succ_self _, hlt, ?_⟩
          simp [Scan.total, hdrop, scan_unclosed hne hread, hfmt]
      | (.literal text, rest) =>
          rw [hread] at hscanned
          exact hscanned.elim
  · refine ⟨_, initPass_char hat hpercent, Nat.lt_succ_self _, hlt, ?_⟩
    simp [Scan.total, hdrop, scan_char hpercent]

theorem initLoop_total {p : List Char} (fuel : ℕ) :
    ∀ {s : Scan}, s.i ≤ p.length → p.length - s.i ≤ fuel →
      ∃ s', initLoop p fuel s = .ok s' ∧ p.length ≤ s'.i ∧ s'.total p = s.total p := by
  induction fuel with
  | zero =>
      intro s _ hfuel
      exact ⟨s, if_neg (by omega), by omega, rfl⟩
  | succ fuel ih =>
      intro s hi hfuel
      by_cases hlt : s.i < p.length
      · obtain ⟨s₁, hpass, hgt, hle, htotal⟩ := initPass_spec hlt
        obtain ⟨s', hloop, hend, htotal'⟩ := ih hle (by omega)
        refine ⟨s', ?_, hend, htotal'.trans htotal⟩
        simp only [initLoop, if_pos hlt, hpass]
        exact hloop
      · exact ⟨s, if_neg hlt, Nat.not_lt.1 hlt, rfl⟩

/-- **The index loops compute `scan`.** The scanner terminates on every pattern, reads only inside
it, and collects what `scan` does. -/
theorem initVec_eq (p : List Char) : initVec p = .ok (scan [] p) := by
  obtain ⟨s, hloop, hend, htotal⟩ := initLoop_total (p := p) p.length (s := {}) (Nat.zero_le _)
    (Nat.sub_le _ _)
  simp only [Scan.total, List.drop_of_length_le hend, scan_nil, Bool.or_false] at htotal
  simp only [initVec, hloop, bind, Except.bind, htotal, pure, Except.pure]
  simp

/-- The items and the error flag of a pattern. -/
def itemsOf (v : List VecEntry × Bool) : List FormatItem × Bool :=
  (v.1.map fun e => (itemOf e).1, v.2 || v.1.any fun e => (itemOf e).2)

theorem LogFormatter.init_eq (pattern : String) :
    LogFormatter.init pattern = .ok (itemsOf (scan [] pattern.toList)) := by
  simp only [LogFormatter.init, initVec_eq]
  rfl

/-- **The scanner is safe.** On every pattern `init` comes to an end without reading outside the
pattern, calling `substr` beyond it or letting a difference of sizes wrap, and every round of its
loop moves the index on. -/
theorem LogFormatter.init_safe (pattern : String) :
    (∃ items error, LogFormatter.init pattern = .ok (items, error)) ∧
      ∀ s : Scan, s.i < pattern.toList.length → ∃ s', initPass pattern.toList s = .ok s' ∧
        s.i < s'.i ∧ s'.i ≤ pattern.toList.length := by
  refine ⟨⟨_, _, LogFormatter.init_eq pattern⟩, fun s hlt => ?_⟩
  obtain ⟨s', hpass, hgt, hle, -⟩ := initPass_spec hlt
  exact ⟨s', hpass, hgt, hle⟩

/-! ## Formatters -/

/-- A `LogFormatter`; its items are those `init` made of its pattern. -/
structure LogFormatter where
  m_pattern : String
  m_items : List FormatItem
  m_error : Bool
  scanned : LogFormatter.init m_pattern = .ok (m_items, m_error)

/-- The constructor of `LogFormatter`. -/
def LogFormatter.new (pattern : String) : LogFormatter :=
  match h : LogFormatter.init pattern with
  | .ok (items, error) => ⟨pattern, items, error, h⟩
  | .error _ => absurd ((LogFormatter.init_eq pattern).symm.trans h) (by simp)

@[simp] theorem LogFormatter.new_m_pattern (pattern : String) :
    (LogFormatter.new pattern).m_pattern = pattern := by
  unfold LogFormatter.new
  split
  · rfl
  · next h => exact absurd ((LogFormatter.init_eq pattern).symm.trans h) (by simp)

theorem LogFormatter.items_eq (f : LogFormatter) :
    (f.m_items, f.m_error) = itemsOf (scan [] f.m_pattern.toList) :=
  Except.ok.inj (f.scanned.symm.trans (LogFormatter.init_eq f.m_pattern))

end Ipmsg
