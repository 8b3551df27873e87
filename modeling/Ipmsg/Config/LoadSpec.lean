import Ipmsg.Config.Members

set_option autoImplicit false

/-! # What loading a document passes to the variables

A listed name is already in lower case, so an entry reaches exactly the variable of its own name.
Over the whole list, each variable is set from the texts of the members with its name, one after
another, and no two variables touch each other. -/

namespace Ipmsg

/-- Lowering leaves a name alone whose characters are all in lower case. -/
theorem tolower_of_chars {chars name : String}
    (hfixed : chars.toList.map Char.toLower = chars.toList)
    (h : findFirstNotOf name chars = none) : tolower name = name := by
  have hmap : name.toList.map Char.toLower = name.toList := by
    refine map_eq_self_iff.2 fun c hc => ?_
    exact map_eq_self_iff.1 hfixed c (findFirstNotOf_eq_none.1 h c hc)
  rw [tolower, hmap, String.ofList_toList]

theorem ValidName.tolower_eq {name : String} (h : ValidName name) : tolower name = name :=
  tolower_of_chars (by decide) h

variable {K : ConfigTypes}

/-! ## The registry -/

namespace Registry

theorem getName_of_lookupBase {r : Registry K} {name : String} {v : ConfigVarBase K}
    (h : r.lookupBase name = some v) : v.getName = name := by
  rw [lookupBase, Option.map_eq_some_iff] at h
  obtain ⟨e, he, rfl⟩ := h
  obtain ⟨hmem, hkey⟩ := KeyedSet.find?_eq_some.1 he
  exact (r.named e hmem).trans hkey

/-- Setting one variable leaves every other one alone. -/
theorem lookupBase_setFromString (r : Registry K) (name val name' : String) :
    (r.setFromString name val).lookupBase name' =
      if name = name' then (r.lookupBase name').map fun v => (v.fromString val).1
      else r.lookupBase name' := by
  unfold setFromString
  split
  · next hnone =>
      split_ifs with h
      · subst h
        simp [lookupBase, hnone]
      · rfl
  · next e hsome =>
      have hkey : e.1 = name := (KeyedSet.find?_eq_some.1 hsome).2
      subst hkey
      simp only [lookupBase, KeyedSet.find?_assign]
      split_ifs with h
      · rw [← h, hsome]
        rfl
      · rfl

end Registry

namespace ConfigVarBase

/-- The variable after `fromString` was called with each of the texts. -/
def fromStrings (v : ConfigVarBase K) (texts : List String) : ConfigVarBase K :=
  texts.foldl (fun v val => (v.fromString val).1) v

theorem fromStrings_keeps (v : ConfigVarBase K) (texts : List String) :
    ∃ x : ConfigVar (K.El v.1), v.fromStrings texts = ⟨v.1, x⟩ ∧ x.m_name = v.2.m_name ∧
      x.m_cbs = v.2.m_cbs := by
  induction texts generalizing v with
  | nil => exact ⟨v.2, rfl, rfl, rfl⟩
  | cons val texts ih =>
      obtain ⟨x, hx, hname, hcbs⟩ := v.fromString_keeps val
      show ∃ y : ConfigVar (K.El v.1), (v.fromString val).1.fromStrings texts = ⟨v.1, y⟩ ∧ _
      rw [hx]
      obtain ⟨y, hy, hname', hcbs'⟩ := ih ⟨v.1, x⟩
      exact ⟨y, hy, hname'.trans hname, hcbs'.trans hcbs⟩

end ConfigVarBase

/-! ## The loop -/

section
variable (Y : YamlCpp)

/-- The texts of the members named `name`; the root, whose name is empty, is not one of them. -/
def textsFor (name : String) (members : List (String × Node)) : List String :=
  (members.filter fun m => m.1 ≠ "" ∧ m.1 = name).map fun m => nodeText Y m.2

/-- The texts passed to the variable named `name`. -/
def Loading.passedTo (s : Loading K) (name : String) : List String :=
  (s.passed.filter fun e => e.1 = name).map Prod.snd

variable {Y}

theorem textsFor_cons (name : String) (m : String × Node) (members : List (String × Node)) :
    textsFor Y name (m :: members) =
      textsFor Y name [m] ++ textsFor Y name members := by
  rw [textsFor, ← List.singleton_append, List.filter_append, List.map_append]
  rfl

theorem loadEntry_unknown {s : Loading K} {m : String × Node} (hm : ValidName m.1)
    (hv : s.registry.lookupBase m.1 = none) : loadEntry Y s m = s := by
  unfold loadEntry
  split_ifs
  · rfl
  · simp only [hm.tolower_eq, hv]

theorem loadEntry_known {s : Loading K} {m : String × Node} (hm : ValidName m.1)
    (hroot : m.1 ≠ "") {v : ConfigVarBase K} (hv : s.registry.lookupBase m.1 = some v) :
    loadEntry Y s m =
      { registry := s.registry.setFromString m.1 (nodeText Y m.2)
        passed := s.passed ++ [(m.1, nodeText Y m.2)]
        calls := s.calls ++ (v.fromString (nodeText Y m.2)).2 } := by
  unfold loadEntry
  -- the variable found under a name has that name
  simp only [if_neg hroot, hm.tolower_eq, hv, Registry.getName_of_lookupBase hv]

/-- One entry sets the variable of its own name and no other. -/
theorem lookupBase_loadEntry (s : Loading K) {m : String × Node} (hm : ValidName m.1)
    (name : String) :
    (loadEntry Y s m).registry.lookupBase name =
      (s.registry.lookupBase name).map fun v => v.fromStrings (textsFor Y name [m]) := by
  have hnone : ∀ o : Option (ConfigVarBase K), o = o.map fun v => v.fromStrings [] :=
    fun o => Option.map_id'.symm
  by_cases hroot : m.1 = ""
  · have htexts : textsFor Y name [m] = [] := by simp [textsFor, hroot]
    rw [htexts, ← hnone, loadEntry, if_pos hroot]
  · by_cases hname : m.1 = name
    · subst hname
      have htexts : textsFor Y m.1 [m] = [nodeText Y m.2] := by simp [textsFor, hroot]
      cases hv : s.registry.lookupBase m.1 with
      | none => rw [loadEntry_unknown hm hv, hv, Option.map_none]
      | some v =>
          rw [loadEntry_known hm hroot hv, Registry.lookupBase_setFromString, if_pos rfl, hv, htexts]
          rfl
    · have htexts : textsFor Y name [m] = [] := by simp [textsFor, hname]
      rw [htexts, ← hnone]
      cases hv : s.registry.lookupBase m.1 with
      | none => rw [loadEntry_unknown hm hv]
      | some v =>
          rw [loadEntry_known hm hroot hv, Registry.lookupBase_setFromString, if_neg hname]

/-- Every variable is set from the texts of the members with its name, in their order. -/
theorem lookupBase_foldl_loadEntry {members : List (String × Node)}
    (hmembers : ∀ m ∈ members, ValidName m.1) (s : Loading K) (name : String) :
    (members.foldl (loadEntry Y) s).registry.lookupBase name =
      (s.registry.lookupBase name).map fun v => v.fromStrings (textsFor Y name members) := by
  induction members generalizing s with
  | nil => exact Option.map_id'.symm
  | cons m members ih =>
      rw [List.foldl_cons, ih (fun m' hm' => hmembers m' (List.mem_cons_of_mem m hm')),
        lookupBase_loadEntry s (hmembers m List.mem_cons_self), Option.map_map, textsFor_cons name m members]
      refine congrArg (Option.map · _) (funext fun v => ?_)
      simp only [Function.comp_apply, ConfigVarBase.fromStrings, List.foldl_append]

/-- One entry is passed to the variable of its own name and to no other. -/
theorem passedTo_loadEntry {s : Loading K} {m : String × Node} (hm : ValidName m.1)
    {name : String} (hname : (s.registry.lookupBase name).isSome) :
    (loadEntry Y s m).passedTo name = s.passedTo name ++ textsFor Y name [m] := by
  by_cases hroot : m.1 = ""
  · simp [loadEntry, textsFor, hroot]
  · cases hv : s.registry.lookupBase m.1 with
    | none =>
        have hne : m.1 ≠ name := by
          rintro rfl
          simp [hv] at hname
        simp [loadEntry_unknown hm hv, textsFor, hne]
    | some v =>
        rw [loadEntry_known hm hroot hv]
        by_cases hne : m.1 = name
        · subst hne
          simp [Loading.passedTo, textsFor, hroot, List.filter_append]
        · simp [Loading.passedTo, textsFor, hne, List.filter_append]

theorem passedTo_foldl_loadEntry {members : List (String × Node)}
    (hmembers : ∀ m ∈ members, ValidName m.1) {s : Loading K} {name : String}
    (hname : (s.registry.lookupBase name).isSome) :
    (members.foldl (loadEntry Y) s).passedTo name =
      s.passedTo name ++ textsFor Y name members := by
  induction members generalizing s with
  | nil => simp [textsFor]
  | cons m members ih =>
      have hm : ValidName m.1 := hmembers m List.mem_cons_self
      have hname' : ((loadEntry Y s m).registry.lookupBase name).isSome := by
        rw [lookupBase_loadEntry s hm, Option.isSome_map]
        exact hname
      rw [List.foldl_cons, ih (fun m' hm' => hmembers m' (List.mem_cons_of_mem m hm')) hname',
        passedTo_loadEntry hm hname, textsFor_cons name m members, List.append_assoc]

/-- Nothing is passed to a variable that is not registered. -/
theorem passed_foldl_loadEntry {members : List (String × Node)}
    (hmembers : ∀ m ∈ members, ValidName m.1) {s : Loading K}
    (hs : ∀ e ∈ s.passed, (s.registry.lookupBase e.1).isSome) :
    ∀ e ∈ (members.foldl (loadEntry Y) s).passed,
      ((members.foldl (loadEntry Y) s).registry.lookupBase e.1).isSome := by
  induction members generalizing s with
  | nil => exact hs
  | cons m members ih =>
      have hm : ValidName m.1 := hmembers m List.mem_cons_self
      refine ih (fun m' hm' => hmembers m' (List.mem_cons_of_mem m hm')) fun e he => ?_
      rw [lookupBase_loadEntry s hm, Option.isSome_map]
      by_cases hroot : m.1 = ""
      · rw [loadEntry, if_pos hroot] at he
        exact hs e he
      · cases hv : s.registry.lookupBase m.1 with
        | none =>
            rw [loadEntry_unknown hm hv] at he
            exact hs e he
        | some v =>
            rw [loadEntry_known hm hroot hv] at he
            rcases List.mem_append.1 he with he | he
            · exact hs e he
            · rw [List.mem_singleton.1 he, hv]
              rfl

end

/-- No text is meant for a variable that no member is named after. -/
theorem textsFor_eq_nil {Y : YamlCpp} {name : String} {members : List (String × Node)}
    (h : ∀ m ∈ members, m.1 ≠ "" → m.1 ≠ name) : textsFor Y name members = [] := by
  unfold textsFor
  rw [List.filter_eq_nil_iff.2 fun m hm => by simpa using h m hm, List.map_nil]

/-! ## Loading a document -/

theorem validName_of_listed {root : Node} :
    ∀ m ∈ listAllMember "" root [], ValidName m.1 := fun _ hm => validName_of_mem hm

theorem lookupBase_loadFromYaml (Y : YamlCpp) (r : Registry K) (root : Node) (name : String) :
    (loadFromYaml Y r root).registry.lookupBase name =
      (r.lookupBase name).map fun v => v.fromStrings (textsFor Y name (listAllMember "" root [])) :=
  lookupBase_foldl_loadEntry validName_of_listed _ name

theorem passedTo_listed (Y : YamlCpp) {r : Registry K} {name : String}
    (hreg : (r.lookupBase name).isSome) (root : Node) :
    (loadFromYaml Y r root).passedTo name = textsFor Y name (listAllMember "" root []) :=
  passedTo_foldl_loadEntry validName_of_listed hreg

/-- **Loading.** `ListAllMember` lists exactly the valid chains of the document, each once and in
pre-order, with the nodes they lead to. `LoadFromYaml` passes to each registered variable the texts
of the listed members with its name, in that order, and to nothing else; it sets the variable from
these texts one after another, keeps all listeners, and leaves a variable no member is named after
as it was. -/
theorem loadFromYaml_members (Y : YamlCpp) (root : Node) :
    (∃ ps : List (List ℕ), ps.Pairwise (· < ·) ∧ (∀ p, p ∈ ps ↔ ValidChain "" root p) ∧
      (listAllMember "" root []).map some = ps.map (memberAt "" root)) ∧
    ∀ r : Registry K,
      (∀ name v, r.lookupBase name = some v →
        v.getName = name ∧
        (loadFromYaml Y r root).passedTo v.getName =
          textsFor Y v.getName (listAllMember "" root []) ∧
        (loadFromYaml Y r root).registry.lookupBase name =
          some (v.fromStrings (textsFor Y v.getName (listAllMember "" root []))) ∧
        (∃ x : ConfigVar (K.El v.1),
          (loadFromYaml Y r root).registry.lookupBase name = some ⟨v.1, x⟩ ∧
            x.m_cbs = v.2.m_cbs) ∧
        ((∀ m ∈ listAllMember "" root [], m.1 ≠ "" → m.1 ≠ v.getName) →
          (loadFromYaml Y r root).registry.lookupBase name = some v)) ∧
      (∀ name, r.lookupBase name = none →
        (loadFromYaml Y r root).registry.lookupBase name = none) ∧
      ∀ e ∈ (loadFromYaml Y r root).passed, (r.lookupBase e.1).isSome := by
  refine ⟨⟨chains "" root, chains_sorted "" root, fun p => mem_chains,
    listAllMember_chains "" root⟩, fun r => ?_⟩
  have hlookup := lookupBase_loadFromYaml Y r root
  refine ⟨fun name v hv => ?_, fun name hname => ?_, fun e he => ?_⟩
  · obtain rfl : v.getName = name := Registry.getName_of_lookupBase hv
    have hset := hlookup v.getName
    rw [hv, Option.map_some] at hset
    refine ⟨rfl, ?_, hset, ?_, fun hother => ?_⟩
    · exact passedTo_listed Y (by rw [hv]; rfl) root
    · obtain ⟨x, hx, -, hcbs⟩ :=
        v.fromStrings_keeps (textsFor Y v.getName (listAllMember "" root []))
      exact ⟨x, hx ▸ hset, hcbs⟩
    · rw [hset, textsFor_eq_nil hother]
      rfl
  · rw [hlookup, hname, Option.map_none]
  · have hreg := passed_foldl_loadEntry (Y := Y) validName_of_listed
      (s := { registry := r, passed := [], calls := [] }) (by simp) e he
    rwa [lookupBase_foldl_loadEntry validName_of_listed, Option.isSome_map] at hreg

end Ipmsg
