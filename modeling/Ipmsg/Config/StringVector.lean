import Ipmsg.Config.ContainersSpec

set_option autoImplicit false

/-! # Vectors of strings

The encoder of a vector loads the text of each element as YAML, and the text of a string is the
string itself. An element comes back as what its node is printed as, so a vector comes back exactly
when every element is written the way the emitter would write it. -/

namespace Ipmsg

/-- `LexicalCast<std::string, std::string>`. -/
def stringCasts : LexicalCasts String where
  toStr := .ok
  fromStr := .ok

/-- The emitter writes the text for some tree. -/
def YamlCpp.Emits (Y : YamlCpp) (text : String) : Prop := ∃ node, Y.emit node = text

section
variable {Y : YamlCpp}

/-- A vector is printed only if each of its elements can be loaded. -/
theorem load_of_toStr {v : List String} {text : String}
    (h : (vectorCasts Y stringCasts).toStr v = .ok text) : ∀ s ∈ v, ∃ node, Y.load s = .ok node := by
  intro s hs
  obtain ⟨node, hloop, -⟩ := bind_eq_ok.1 h
  obtain ⟨acc, acc', hpass⟩ := foldlM_passes hloop s hs
  obtain ⟨text, htext, hpass⟩ := bind_eq_ok.1 hpass
  obtain ⟨node, hload, -⟩ := bind_eq_ok.1 hpass
  rw [← Except.ok.inj htext] at hload
  exact ⟨node, hload⟩

variable (hY : Y.LoadEmit)
include hY

/-- An element is printed back as it was exactly if the emitter writes it. -/
theorem YamlCpp.emits_iff {s : String} {node : Node} (hload : Y.load s = .ok node) :
    Y.emit node = s ↔ Y.Emits s := by
  constructor
  · exact fun h => ⟨node, h⟩
  · rintro ⟨n, hn⟩
    have hsame : n = node := by
      rw [← hn, hY n] at hload
      exact Except.ok.inj hload
    exact hsame ▸ hn

variable (hempty : Y.load "" = .ok .null)
include hempty

/-- What comes back are the elements, loaded and printed again. -/
theorem vectorString_readBack {v : List String} {node : String → Node}
    (h : ∀ s ∈ v, Y.load s = .ok (node s)) :
    ∃ text, (vectorCasts Y stringCasts).toStr v = .ok text ∧
      (vectorCasts Y stringCasts).fromStr text = .ok (v.map fun s => Y.emit (node s)) := by
  have hitems : ∀ s ∈ v, stringCasts.fromStr (Y.emit (node s)) = .ok (Y.emit (node s)) :=
    fun s _ => rfl
  have hread := itemsOfString_eq hitems (fun vec i => vec ++ [i]) []
    (hY.loadPrint hempty (Node.ofItems (v.map node)))
  rw [foldl_push] at hread
  exact ⟨_, itemsToString_eq h, hread⟩

/-- A vector of texts of the emitter comes back. -/
theorem vectorString_same {v : List String} (h : ∀ s ∈ v, Y.Emits s) :
    ∃ text, (vectorCasts Y stringCasts).toStr v = .ok text ∧
      (vectorCasts Y stringCasts).fromStr text = .ok v := by
  have hload : ∀ s ∈ v, ∃ node, Y.load s = .ok node := by
    rintro s hs
    obtain ⟨node, rfl⟩ := h s hs
    exact ⟨node, hY node⟩
  have : Nonempty Node := ⟨.null⟩
  choose! node hnode using hload
  have hmap : v.map (fun s => Y.emit (node s)) = v := by
    refine (List.map_congr_left fun s hs => ?_).trans (List.map_id v)
    exact (YamlCpp.emits_iff hY (hnode s hs)).2 (h s hs)
  have hback := vectorString_readBack hY hempty hnode
  rwa [hmap] at hback

/-- Any other vector either cannot be printed or comes back different. -/
theorem vectorString_changed {v : List String} (h : ¬ ∀ s ∈ v, Y.Emits s) :
    (∃ e, (vectorCasts Y stringCasts).toStr v = .error e) ∨
    ∃ text w, (vectorCasts Y stringCasts).toStr v = .ok text ∧
      (vectorCasts Y stringCasts).fromStr text = .ok w ∧ w ≠ v := by
  cases htext : (vectorCasts Y stringCasts).toStr v with
  | error e => exact Or.inl ⟨e, rfl⟩
  | ok text =>
      right
      have : Nonempty Node := ⟨.null⟩
      choose! node hnode using load_of_toStr htext
      obtain ⟨text', htext', hback⟩ := vectorString_readBack hY hempty hnode
      obtain rfl : text = text' := Except.ok.inj (htext.symm.trans htext')
      refine ⟨text, _, rfl, hback, fun hsame => h ?_⟩
      intro s hs
      -- the lists agree in every place, so the element itself is printed back
      have hmap : v.map (fun s => Y.emit (node s)) = v.map id := hsame.trans (List.map_id v).symm
      exact (YamlCpp.emits_iff hY (hnode s hs)).1 (List.map_inj_left.1 hmap s hs)

end

/-- The empty vector comes back from the empty text that stands for a failure. -/
theorem vectorString_empty {Y : YamlCpp} (hempty : Y.load "" = .ok .null) :
    (vectorCasts Y stringCasts).fromStr "" = .ok [] := by
  show itemsOfString Y _ _ _ _ = _
  unfold itemsOfString
  rw [hempty]
  rfl

/-- A vector comes back exactly if the emitter writes each element. -/
theorem vectorString_text_iff {Y : YamlCpp} (hY : Y.LoadEmit) (hempty : Y.load "" = .ok .null)
    (v : List String) :
    (do (vectorCasts Y stringCasts).fromStr (← (vectorCasts Y stringCasts).toStr v)) = .ok v ↔
      ∀ s ∈ v, Y.Emits s := by
  constructor
  · intro hback
    by_contra hnot
    rcases vectorString_changed hY hempty hnot with ⟨e, he⟩ | ⟨text, w, htext, hw, hne⟩
    · rw [he] at hback
      cases hback
    · rw [htext] at hback
      exact hne (Except.ok.inj (hw.symm.trans hback))
  · intro h
    obtain ⟨text, htext, hback⟩ := vectorString_same hY hempty h
    rw [htext]
    exact hback

/-- A variable that is set from its own text finds the same value. -/
theorem vectorString_keeps {Y : YamlCpp} (hY : Y.LoadEmit) (hempty : Y.load "" = .ok .null)
    {x : ConfigVar (List String)} (h : ∀ s ∈ x.m_val, Y.Emits s) :
    x.fromString (vectorCasts Y stringCasts).fromStr
      (x.toString (vectorCasts Y stringCasts).toStr) = (x, [], false) := by
  obtain ⟨text, htext, hback⟩ := vectorString_same hY hempty h
  have hset : x.setValue x.m_val = (x, [], none) := ConfigVar.setValue_same (beq_self_eq_true _)
  unfold ConfigVar.toString
  rw [htext, ConfigVar.fromString_setValue hback, hset]

/-- A variable with another element is set to something else. -/
theorem vectorString_stores {Y : YamlCpp} (hY : Y.LoadEmit) (hempty : Y.load "" = .ok .null)
    {x : ConfigVar (List String)} (hquiet : ∀ e ∈ x.m_cbs, e.2.Quiet)
    (hnot : ¬ ∀ s ∈ x.m_val, Y.Emits s) :
    (x.fromString (vectorCasts Y stringCasts).fromStr
      (x.toString (vectorCasts Y stringCasts).toStr)).1.m_val ≠ x.m_val := by
  -- what is read back is stored, since it differs and no listener throws
  have hstored : ∀ {text : String} {w : List String},
      x.toString (vectorCasts Y stringCasts).toStr = text →
      (vectorCasts Y stringCasts).fromStr text = .ok w → w ≠ x.m_val →
      (x.fromString (vectorCasts Y stringCasts).fromStr
        (x.toString (vectorCasts Y stringCasts).toStr)).1.m_val ≠ x.m_val := by
    intro text w htext hw hne
    have hset := ConfigVar.setValue_changed (by simpa using hne) hquiet
    rw [htext, ConfigVar.fromString_setValue hw, hset]
    exact hne
  rcases vectorString_changed hY hempty hnot with ⟨e, he⟩ | ⟨text, w, htext, hw, hne⟩
  · -- a failed conversion gives the empty text, which is read as the empty vector
    have htext : x.toString (vectorCasts Y stringCasts).toStr = "" := by
      unfold ConfigVar.toString
      rw [he]
    exact hstored htext (vectorString_empty hempty) fun hnil => hnot (by simp [← hnil])
  · have htext' : x.toString (vectorCasts Y stringCasts).toStr = text := by
      unfold ConfigVar.toString
      rw [htext]
    exact hstored htext' hw hne

/-- **A vector of strings comes back exactly if the emitter writes each of its elements.** So does
    the value of a variable whose listeners do not throw. -/
theorem vectorString_roundTrip_iff {Y : YamlCpp} (hY : Y.LoadEmit)
    (hempty : Y.load "" = .ok .null) :
    let c := vectorCasts Y stringCasts
    (∀ v : List String, (do c.fromStr (← c.toStr v)) = .ok v ↔ ∀ s ∈ v, Y.Emits s) ∧
    (∀ x : ConfigVar (List String), (∀ s ∈ x.m_val, Y.Emits s) →
      x.fromString c.fromStr (x.toString c.toStr) = (x, [], false)) ∧
    ∀ x : ConfigVar (List String), (∀ e ∈ x.m_cbs, e.2.Quiet) →
      ((x.fromString c.fromStr (x.toString c.toStr)).1.m_val = x.m_val ↔
        ∀ s ∈ x.m_val, Y.Emits s) := by
  intro c
  refine ⟨vectorString_text_iff hY hempty, fun x => vectorString_keeps hY hempty, ?_⟩
  intro x hquiet
  constructor
  · exact fun hval => by_contra fun hnot => vectorString_stores hY hempty hquiet hnot hval
  · intro h
    rw [vectorString_keeps hY hempty h]

/-- A library that trims plain scalars. -/
noncomputable def trimmingYaml : YamlCpp :=
  .withTexts [(.scalar "a", "a"), (.seq [.scalar "a"], "- a")] [("", .null), (" a", .scalar "a")]

theorem trimmingYaml_loadEmit : trimmingYaml.LoadEmit :=
  YamlCpp.withTexts_loadEmit (by simp; decide) (by decide)

theorem trimmingYaml_load_empty : trimmingYaml.load "" = .ok .null :=
  YamlCpp.withTexts_load rfl (by decide) rfl

theorem trimmingYaml_trims : trimmingYaml.load " a" = .ok (.scalar "a") :=
  YamlCpp.withTexts_load rfl (by decide) rfl

theorem trimmingYaml_emit : trimmingYaml.emit (.scalar "a") = "a" := by decide

/-- `{"a"}` comes back. -/
theorem vectorString_roundTrip_sample :
    let c := vectorCasts trimmingYaml stringCasts
    let x : ConfigVar (List String) := { m_name := "names", m_val := ["a"], m_cbs := ∅ }
    (do c.fromStr (← c.toStr ["a"])) = .ok ["a"] ∧
    (x.fromString c.fromStr (x.toString c.toStr)).1.m_val = ["a"] := by
  have h := vectorString_roundTrip_iff trimmingYaml_loadEmit trimmingYaml_load_empty
  have hemits : ∀ s ∈ ["a"], trimmingYaml.Emits s := by
    intro s hs
    rw [List.mem_singleton.1 hs]
    exact ⟨_, trimmingYaml_emit⟩
  have hquiet : ∀ e ∈ (∅ : OrdMap ℕ (Listener (List String))), e.2.Quiet := by
    intro e he
    cases he
  exact ⟨(h.1 ["a"]).2 hemits, (h.2.2 _ hquiet).2 hemits⟩

/-- `{" a"}` comes back as `{"a"}`. -/
theorem vectorString_trimmed :
    ∃ Y : YamlCpp, Y.LoadEmit ∧ Y.load "" = .ok .null ∧ Y.load " a" = .ok (.scalar "a") ∧
      ∃ v : List String, (do
        (vectorCasts Y stringCasts).fromStr (← (vectorCasts Y stringCasts).toStr v)) ≠ .ok v := by
  refine ⟨trimmingYaml, trimmingYaml_loadEmit, trimmingYaml_load_empty, trimmingYaml_trims,
    [" a"], ?_⟩
  have hload : ∀ s ∈ [" a"], trimmingYaml.load s = .ok (.scalar "a") := by
    intro s hs
    rw [List.mem_singleton.1 hs]
    exact trimmingYaml_trims
  obtain ⟨text, htext, hback⟩ := vectorString_readBack trimmingYaml_loadEmit trimmingYaml_load_empty
    hload
  rw [htext]
  refine fun h => ?_
  have hsame := Except.ok.inj (hback.symm.trans h)
  rw [List.map_singleton, trimmingYaml_emit] at hsame
  exact absurd hsame (by decide)

end Ipmsg
