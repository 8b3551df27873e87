import Mathlib.Data.List.Nodup
import Ipmsg.Yaml

set_option autoImplicit false

/-! # Flow-style text

A concrete emitter: every tree has an unambiguous text in YAML's flow style, with double-quoted
scalars and keys. It shows that `YamlCpp.LoadEmit` can be met. `YamlCpp.flow` turns it into a library
whose emitter prints a chosen tree with a chosen text (block style, say) instead, and
`YamlCpp.withTexts` into one that prints several trees with their own texts and loads some more. -/

namespace Ipmsg

namespace Node

/-- The inside of a double-quoted scalar. -/
def escape (text : List Char) : List Char :=
  text.flatMap fun c => if c = '"' ∨ c = '\\' then ['\\', c] else [c]

mutual

/-- The tree in flow style. -/
def flowText : Node → List Char
  | .null => ['~']
  | .scalar text => '"' :: (escape text.toList ++ ['"'])
  | .seq items => '[' :: flowItems items
  | .map pairs => '{' :: flowPairs pairs

def flowItems : List Node → List Char
  | [] => [']']
  | n :: items => flowText n ++ ',' :: flowItems items

def flowPairs : List (String × Node) → List Char
  | [] => ['}']
  | (key, n) :: pairs =>
      '"' :: (escape key.toList ++ '"' :: ':' :: (flowText n ++ ',' :: flowPairs pairs))

end

theorem escape_cons_special {c : Char} (h : c = '"' ∨ c = '\\') (t : List Char) :
    escape (c :: t) = '\\' :: c :: escape t := by
  simp only [escape, List.flatMap_cons, if_pos h, List.cons_append, List.nil_append]

theorem escape_cons_plain {c : Char} (h : ¬(c = '"' ∨ c = '\\')) (t : List Char) :
    escape (c :: t) = c :: escape t := by
  simp only [escape, List.flatMap_cons, if_neg h, List.cons_append, List.nil_append]

/-- The first character of an escaped text is never the closing quote. -/
theorem escape_cons_ne_quote (c : Char) (t r : List Char) :
    ∃ d u, escape (c :: t) ++ r = d :: u ∧ d ≠ '"' := by
  by_cases hc : c = '"' ∨ c = '\\'
  · exact ⟨'\\', c :: (escape t ++ r), by rw [escape_cons_special hc]; rfl, by decide⟩
  · exact ⟨c, escape t ++ r, by rw [escape_cons_plain hc]; rfl, fun h => hc (Or.inl h)⟩

/-- The closing quote of a scalar can be found: what precedes it is determined. -/
theorem escape_append_inj {s t r r' : List Char}
    (h : escape s ++ '"' :: r = escape t ++ '"' :: r') : s = t ∧ r = r' := by
  induction s generalizing t with
  | nil =>
      cases t with
      | nil => simpa [escape] using h
      | cons c t =>
          obtain ⟨d, u, hd, hne⟩ := escape_cons_ne_quote c t ('"' :: r')
          rw [hd] at h
          exact absurd (List.cons.inj h).1.symm hne
  | cons d s ih =>
      cases t with
      | nil =>
          obtain ⟨e, u, he, hne⟩ := escape_cons_ne_quote d s ('"' :: r)
          rw [he] at h
          exact absurd (List.cons.inj h).1 hne
      | cons c t =>
          have hstep : d = c ∧ escape s ++ '"' :: r = escape t ++ '"' :: r' := by
            by_cases hd : d = '"' ∨ d = '\\' <;> by_cases hc : c = '"' ∨ c = '\\'
            · simpa [escape_cons_special hd, escape_cons_special hc] using h
            · rw [escape_cons_special hd, escape_cons_plain hc] at h
              exact absurd (Or.inr (List.cons.inj h).1.symm) hc
            · rw [escape_cons_plain hd, escape_cons_special hc] at h
              exact absurd (Or.inr (List.cons.inj h).1) hd
            · simpa [escape_cons_plain hd, escape_cons_plain hc] using h
          obtain ⟨hst, hr⟩ := ih hstep.2
          exact ⟨by rw [hstep.1, hst], hr⟩

theorem head_flowText (n : Node) : ∃ c r, n.flowText = c :: r ∧ c ∈ ['~', '"', '[', '{'] := by
  cases n <;> simp [flowText]

mutual

/-- A flow text is determined by any text it is a prefix of. -/
theorem flowText_append_inj : ∀ (n m : Node) {r r' : List Char},
    n.flowText ++ r = m.flowText ++ r' → n = m ∧ r = r'
  | .null, m, r, r', h => by cases m <;> simp_all [flowText]
  | .scalar s, m, r, r', h => by
      cases m with
      | scalar t =>
          have hq : escape s.toList ++ '"' :: r = escape t.toList ++ '"' :: r' := by
            simpa [flowText] using h
          obtain ⟨hst, hr⟩ := escape_append_inj hq
          exact ⟨by rw [String.toList_inj.1 hst], hr⟩
      | _ => simp [flowText] at h
  | .seq items, m, r, r', h => by
      cases m with
      | seq items' =>
          obtain ⟨hi, hr⟩ := flowItems_append_inj items items' (by simpa [flowText] using h)
          exact ⟨by rw [hi], hr⟩
      | _ => simp [flowText] at h
  | .map pairs, m, r, r', h => by
      cases m with
      | map pairs' =>
          obtain ⟨hp, hr⟩ := flowPairs_append_inj pairs pairs' (by simpa [flowText] using h)
          exact ⟨by rw [hp], hr⟩
      | _ => simp [flowText] at h

theorem flowItems_append_inj : ∀ (l l' : List Node) {r r' : List Char},
    flowItems l ++ r = flowItems l' ++ r' → l = l' ∧ r = r'
  | [], [], r, r', h => by simpa [flowItems] using h
  | [], n :: l', r, r', h => by
      obtain ⟨c, t, hn, hc⟩ := head_flowText n
      simp only [flowItems, hn] at h
      obtain ⟨rfl, -⟩ := List.cons.inj h
      simp at hc
  | n :: l, [], r, r', h => by
      obtain ⟨c, t, hn, hc⟩ := head_flowText n
      simp only [flowItems, hn] at h
      obtain ⟨rfl, -⟩ := List.cons.inj h
      simp at hc
  | n :: l, n' :: l', r, r', h => by
      obtain ⟨hn, hrest⟩ := flowText_append_inj n n' (by simpa [flowItems] using h)
      obtain ⟨hl, hr⟩ := flowItems_append_inj l l' (by simpa using hrest)
      exact ⟨by rw [hn, hl], hr⟩

theorem flowPairs_append_inj : ∀ (l l' : List (String × Node)) {r r' : List Char},
    flowPairs l ++ r = flowPairs l' ++ r' → l = l' ∧ r = r'
  | [], [], r, r', h => by simpa [flowPairs] using h
  | [], p :: l', r, r', h => by simp [flowPairs] at h
  | p :: l, [], r, r', h => by simp [flowPairs] at h
  | (k, n) :: l, (k', n') :: l', r, r', h => by
      have hq : escape k.toList ++ '"' :: (':' :: (n.flowText ++ ',' :: (flowPairs l ++ r))) =
          escape k'.toList ++ '"' :: (':' :: (n'.flowText ++ ',' :: (flowPairs l' ++ r'))) := by
        simpa [flowPairs] using h
      obtain ⟨hk, hrest⟩ := escape_append_inj hq
      obtain ⟨hn, hrest⟩ := flowText_append_inj n n' (List.cons.inj hrest).2
      obtain ⟨hl, hr⟩ := flowPairs_append_inj l l' (List.cons.inj hrest).2
      exact ⟨by rw [String.toList_inj.1 hk, hn, hl], hr⟩

end

theorem flowText_inj {n m : Node} (h : n.flowText = m.flowText) : n = m := by
  have happ : n.flowText ++ [] = m.flowText ++ [] := by rw [h]
  exact (flowText_append_inj n m happ).1

instance : DecidableEq Node := fun n m =>
  decidable_of_iff (n.flowText = m.flowText) ⟨flowText_inj, fun h => h ▸ rfl⟩

end Node

/-- The library that prints `n₀` as `text` and every other tree in flow style, and loads exactly
    what it prints. -/
noncomputable def YamlCpp.flow (n₀ : Node) (text : String) : YamlCpp where
  emit n := if n = n₀ then text else String.ofList n.flowText
  load s :=
    open Classical in
    if h : ∃ n, (if n = n₀ then text else String.ofList n.flowText) = s then .ok h.choose
    else .error .parserException
  keyIndex key := key.toNat?
  nullText := some "null"

/-- Printing `n₀` in block style (no flow text starts with its first character) stays unambiguous.
-/
theorem YamlCpp.flow_loadEmit (n₀ : Node) {text : String} {c : Char}
    (hc : text.toList.head? = some c) (hflow : c ∉ ['~', '"', '[', '{']) :
    (YamlCpp.flow n₀ text).LoadEmit := by
  have hne : ∀ n : Node, text ≠ String.ofList n.flowText := by
    intro n ht
    obtain ⟨d, r, hn, hd⟩ := n.head_flowText
    rw [ht, String.toList_ofList, hn, List.head?_cons, Option.some.injEq] at hc
    exact hflow (hc ▸ hd)
  intro n
  have hex : ∃ m, (YamlCpp.flow n₀ text).emit m = (YamlCpp.flow n₀ text).emit n := ⟨n, rfl⟩
  have hinj : ∀ m, (YamlCpp.flow n₀ text).emit m = (YamlCpp.flow n₀ text).emit n → m = n := by
    intro m hm
    simp only [YamlCpp.flow] at hm
    split_ifs at hm with h1 h2 h2
    · rw [h1, h2]
    · exact absurd hm (hne n)
    · exact absurd hm.symm (hne m)
    · exact Node.flowText_inj (String.ofList_injective hm)
  have hload : (YamlCpp.flow n₀ text).load ((YamlCpp.flow n₀ text).emit n) = .ok hex.choose :=
    dif_pos hex
  rw [hload, hinj _ hex.choose_spec]

/-! ## Chosen texts -/

/-- The text could be the start of a flow text. -/
def startsFlow (s : String) : Bool :=
  match s.toList with
  | c :: _ => ['~', '"', '[', '{'].contains c
  | [] => false

theorem startsFlow_flowText (n : Node) : startsFlow (String.ofList n.flowText) = true := by
  obtain ⟨c, r, hn, hc⟩ := n.head_flowText
  rw [startsFlow, String.toList_ofList, hn]
  simpa using hc

section
variable (prints : List (Node × String)) (loads : List (String × Node))

/-- The nodes of `prints` with their texts, and every other tree in flow style. -/
def Node.textIn (n : Node) : String :=
  match prints.find? (fun e => e.1 = n) with
  | some e => e.2
  | none => String.ofList n.flowText

/-- The library that prints the nodes of `prints` with their texts and every other tree in flow
    style; it loads what it prints, and the texts of `loads`. -/
noncomputable def YamlCpp.withTexts : YamlCpp where
  emit := Node.textIn prints
  load s :=
    open Classical in
    if h : ∃ n, Node.textIn prints n = s then .ok h.choose
    else match loads.find? (fun e => e.1 = s) with
      | some e => .ok e.2
      | none => .error .parserException
  keyIndex key := key.toNat?
  nullText := some "null"

variable {prints}

theorem Node.textIn_cases (n : Node) :
    (n, n.textIn prints) ∈ prints ∨ n.textIn prints = String.ofList n.flowText := by
  unfold Node.textIn
  cases h : prints.find? (fun e => e.1 = n) with
  | none => exact Or.inr rfl
  | some e =>
      have hkey : e.1 = n := by simpa using List.find?_some h
      exact Or.inl (hkey ▸ List.mem_of_find?_eq_some h)

variable {loads}

/-- A text that is not printed for any node is loaded as `loads` says. -/
theorem YamlCpp.withTexts_load {s : String} {node : Node} (hs : startsFlow s = false)
    (hnew : s ∉ prints.map Prod.snd) (hfind : loads.find? (fun e => e.1 = s) = some (s, node)) :
    (YamlCpp.withTexts prints loads).load s = .ok node := by
  have hnone : ¬ ∃ n, Node.textIn prints n = s := by
    rintro ⟨n, hn⟩
    rcases Node.textIn_cases n with h | h
    · exact hnew (hn ▸ List.mem_map_of_mem h)
    · rw [← hn, h, startsFlow_flowText] at hs
      exact absurd hs (by simp)
  refine (dif_neg hnone).trans ?_
  rw [hfind]

variable (hflow : ∀ e ∈ prints, startsFlow e.2 = false)
include hflow

theorem Node.textIn_inj (hprints : (prints.map Prod.snd).Nodup) {n m : Node}
    (h : n.textIn prints = m.textIn prints) : n = m := by
  have hmixed : ∀ k l : Node, (k, k.textIn prints) ∈ prints →
      k.textIn prints ≠ String.ofList l.flowText := by
    intro k l hk heq
    exact absurd (hflow _ hk) (by rw [heq, startsFlow_flowText]; simp)
  rcases Node.textIn_cases n with hn | hn <;>
    rcases Node.textIn_cases m with hm | hm
  · exact congrArg Prod.fst (List.inj_on_of_nodup_map hprints hn hm h)
  · exact absurd (h.trans hm) (hmixed n m hn)
  · exact absurd (h.symm.trans hn) (hmixed m n hm)
  · exact Node.flowText_inj (String.ofList_injective (hn.symm.trans (h.trans hm)))

theorem YamlCpp.withTexts_loadEmit (hprints : (prints.map Prod.snd).Nodup) :
    (YamlCpp.withTexts prints loads).LoadEmit := by
  intro n
  have hex : ∃ m, Node.textIn prints m = Node.textIn prints n := ⟨n, rfl⟩
  have hload : (YamlCpp.withTexts prints loads).load (Node.textIn prints n) = .ok hex.choose :=
    dif_pos hex
  show (YamlCpp.withTexts prints loads).load (Node.textIn prints n) = _
  rw [hload, Node.textIn_inj hflow hprints hex.choose_spec]

end

end Ipmsg
