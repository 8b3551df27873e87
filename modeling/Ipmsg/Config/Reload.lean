import Ipmsg.Config.Lookup

set_option autoImplicit false

/-! # Loading a document again

A text sets a variable to what it is converted to, so the same text finds the value already there.
If no two members have the same name, nothing comes between the two: after a document is loaded,
every member finds its variable as it would leave it. -/

namespace Ipmsg

/-! ## The same text again -/

/-- Once quiet listeners are told, the same text changes nothing and calls nobody. -/
theorem ConfigVar.fromString_again {T : Type} [BEq T] [ReflBEq T]
    {fromStr : String → Except StdException T} {x : ConfigVar T} (hquiet : ∀ e ∈ x.m_cbs, e.2.Quiet)
    (val : String) :
    (x.fromString fromStr val).1.fromString fromStr val =
      ((x.fromString fromStr val).1, [], false) := by
  cases hv : fromStr val with
  | error e => simp only [fromString, hv]
  | ok v =>
      have hset : ∀ x : ConfigVar T, (v == x.m_val) = true →
          x.fromString fromStr val = (x, [], false) := by
        intro x h
        rw [fromString_setValue hv, setValue_same h]
      by_cases h : (v == x.m_val) = true
      · rw [hset x h]
        exact hset x h
      · have hchanged : (x.fromString fromStr val).1 = x.store v := by
          rw [fromString_setValue hv, setValue_changed h hquiet]
        -- what was stored is what the text is converted to
        rw [hchanged]
        exact hset _ BEq.rfl

variable {K : ConfigTypes}

/-- The listeners of the variable do not throw. -/
def ConfigVarBase.Quiet (v : ConfigVarBase K) : Prop := ∀ e ∈ v.2.m_cbs, e.2.Quiet

/-- Setting the variable from the text changes nothing and calls nobody. -/
def ConfigVarBase.Holds (v : ConfigVarBase K) (val : String) : Prop := v.fromString val = (v, [])

theorem ConfigVarBase.holds_fromString (hrefl : ∀ t, @ReflBEq (K.El t) (K.beq t))
    {v : ConfigVarBase K} (hquiet : v.Quiet) (val : String) : (v.fromString val).1.Holds val := by
  let _ := K.beq v.1
  have _ := hrefl v.1
  have hagain : (v.2.fromString (K.fromStr v.1) val).1.fromString (K.fromStr v.1) val =
      ((v.2.fromString (K.fromStr v.1) val).1, [], false) :=
    ConfigVar.fromString_again hquiet val
  show ConfigVarBase.fromString ⟨v.1, (v.2.fromString (K.fromStr v.1) val).1⟩ val = _
  simp only [fromString, hagain, List.map_nil]

/-! ## One text for each variable -/

section
variable {Y : YamlCpp}

theorem textsFor_append (name : String) (ms ms' : List (String × Node)) :
    textsFor Y name (ms ++ ms') = textsFor Y name ms ++ textsFor Y name ms' := by
  simp only [textsFor, List.filter_append, List.map_append]

/-- Of members with different names, one only is meant for a variable. -/
theorem textsFor_of_nodup {ms : List (String × Node)} (hms : (ms.map Prod.fst).Nodup)
    {m : String × Node} (hm : m ∈ ms) (hroot : m.1 ≠ "") :
    textsFor Y m.1 ms = [nodeText Y m.2] := by
  obtain ⟨before, after, rfl⟩ := List.append_of_mem hm
  rw [List.map_append, List.map_cons, List.nodup_middle, List.nodup_cons, ← List.map_append] at hms
  have hother : ∀ m' ∈ before ++ after, m'.1 ≠ "" → m'.1 ≠ m.1 :=
    fun m' hm' _ heq => hms.1 (heq ▸ List.mem_map_of_mem hm')
  have hself : textsFor Y m.1 [m] = [nodeText Y m.2] := by simp [textsFor, hroot]
  rw [textsFor_append, textsFor_cons, hself,
    textsFor_eq_nil fun m' hm' => hother m' (List.mem_append_left _ hm'),
    textsFor_eq_nil fun m' hm' => hother m' (List.mem_append_right _ hm'), List.nil_append,
    List.append_nil]

/-! ## The loop -/

/-- What the variables of the registry are set from is what they hold. -/
def Settled (Y : YamlCpp) (r : Registry K) (ms : List (String × Node)) : Prop :=
  ∀ m ∈ ms, m.1 ≠ "" → ∀ v, r.lookupBase m.1 = some v → v.Holds (nodeText Y m.2)

/-- The member finds its variable as it would leave it. -/
theorem loadEntry_settled {s : Loading K} {m : String × Node} (hm : ValidName m.1)
    (h : Settled Y s.registry [m]) :
    (loadEntry Y s m).calls = s.calls ∧
      ∀ name, (loadEntry Y s m).registry.lookupBase name = s.registry.lookupBase name := by
  by_cases hroot : m.1 = ""
  · rw [loadEntry, if_pos hroot]
    exact ⟨rfl, fun _ => rfl⟩
  · cases hv : s.registry.lookupBase m.1 with
    | none =>
        rw [loadEntry_unknown hm hv]
        exact ⟨rfl, fun _ => rfl⟩
    | some v =>
        have hholds : v.Holds (nodeText Y m.2) := h m List.mem_cons_self hroot v hv
        rw [loadEntry_known hm hroot hv]
        refine ⟨?_, fun name => ?_⟩
        · show s.calls ++ (v.fromString (nodeText Y m.2)).2 = s.calls
          rw [hholds, List.append_nil]
        · rw [Registry.lookupBase_setFromString]
          split_ifs with hname
          · rw [← hname, hv, Option.map_some, hholds]
          · rfl

theorem foldl_loadEntry_settled {ms : List (String × Node)} (hms : ∀ m ∈ ms, ValidName m.1)
    {s : Loading K} (h : Settled Y s.registry ms) :
    (ms.foldl (loadEntry Y) s).calls = s.calls ∧
      ∀ name, (ms.foldl (loadEntry Y) s).registry.lookupBase name = s.registry.lookupBase name := by
  induction ms generalizing s with
  | nil => exact ⟨rfl, fun _ => rfl⟩
  | cons m ms ih =>
      obtain ⟨hcalls, hlookup⟩ := loadEntry_settled (hms m List.mem_cons_self)
        (List.forall_mem_singleton.2 (h m List.mem_cons_self))
      obtain ⟨hcalls', hlookup'⟩ := ih (fun m' hm' => hms m' (List.mem_cons_of_mem m hm'))
        (s := loadEntry Y s m) fun m' hm' hroot v hv =>
          h m' (List.mem_cons_of_mem m hm') hroot v (hlookup m'.1 ▸ hv)
      exact ⟨hcalls'.trans hcalls, fun name => (hlookup' name).trans (hlookup name)⟩

end

/-! ## The document again -/

/-- After the document is loaded every variable holds what it was set from. -/
theorem settled_loadFromYaml (hrefl : ∀ t, @ReflBEq (K.El t) (K.beq t)) (Y : YamlCpp)
    {r : Registry K} (hquiet : ∀ e ∈ r.datas, ConfigVarBase.Quiet e.2) {root : Node}
    (hnodup : ((listAllMember "" root []).map Prod.fst).Nodup) :
    Settled Y (loadFromYaml Y r root).registry (listAllMember "" root []) := by
  intro m hm hroot v hv
  rw [lookupBase_loadFromYaml, textsFor_of_nodup hnodup hm hroot, Option.map_eq_some_iff] at hv
  obtain ⟨v, hv, rfl⟩ := hv
  refine ConfigVarBase.holds_fromString hrefl ?_ (nodeText Y m.2)
  obtain ⟨e, he, rfl⟩ := Option.map_eq_some_iff.1 hv
  exact hquiet e (KeyedSet.find?_eq_some.1 he).1

/-- **Loading again.** Where no two members have the same name, the second loading of a document
leaves every variable with the value it had after the first, and calls no listener. -/
theorem loadFromYaml_again (hrefl : ∀ t, @ReflBEq (K.El t) (K.beq t)) (Y : YamlCpp)
    {r : Registry K} (hquiet : ∀ e ∈ r.datas, ConfigVarBase.Quiet e.2) {root : Node}
    (hnodup : ((listAllMember "" root []).map Prod.fst).Nodup) :
    (loadFromYaml Y (loadFromYaml Y r root).registry root).calls = [] ∧
      ∀ name, (loadFromYaml Y (loadFromYaml Y r root).registry root).registry.lookupBase name =
        (loadFromYaml Y r root).registry.lookupBase name :=
  foldl_loadEntry_settled validName_of_listed (settled_loadFromYaml hrefl Y hquiet hnodup)

theorem loadFromYaml_again_sample : ∃ r : Registry textTypes,
    (loadFromYaml scalarsOnly r (.map [("a", .scalar "1")])).calls.length = 1 ∧
      (loadFromYaml scalarsOnly (loadFromYaml scalarsOnly r (.map [("a", .scalar "1")])).registry
        (.map [("a", .scalar "1")])).calls = [] := by
  let x := ((ConfigVar.new "a" "0").addListener 0 fun _ _ => .ok ()).1
  let r : Registry textTypes :=
    { datas := ⟨[("a", ⟨(), x⟩)], List.pairwise_singleton _ _⟩
      named := List.forall_mem_singleton.2 rfl }
  have hquiet : ∀ e ∈ r.datas, ConfigVarBase.Quiet e.2 :=
    List.forall_mem_singleton.2 (List.forall_mem_singleton.2 fun _ _ => rfl)
  have hrefl : ∀ t, @ReflBEq (textTypes.El t) (textTypes.beq t) :=
    fun _ => inferInstanceAs (ReflBEq String)
  have hnodup : ((listAllMember "" (.map [("a", .scalar "1")]) []).map Prod.fst).Nodup := by
    decide
  refine ⟨r, ?_, (loadFromYaml_again hrefl scalarsOnly hquiet hnodup).1⟩
  decide

end Ipmsg
