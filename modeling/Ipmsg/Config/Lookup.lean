import Ipmsg.Config.LoadSpec

set_option autoImplicit false

/-! # Registering variables

`Config::Lookup` registers a variable under a name after checking its characters. `ListAllMember`
checks the names of a document against a list of its own, which lacks the `9`: a variable whose name
has one can be registered, and no document reaches it. It joins the keys of a chain by dots, but
puts none after an empty prefix, so empty keys at the front of a chain are lost. -/

namespace Ipmsg

/-! ## `Config::Lookup` -/

/-- The characters `Config::Lookup` accepts in a name. -/
def lookupChars : String := "abcdefghikjlmnopqrstuvwxyz._0123456789"

theorem tolower_of_lookupChars {name : String} (h : findFirstNotOf name lookupChars = none) :
    tolower name = name :=
  tolower_of_chars (by decide) h

section
variable {K : ConfigTypes} [DecidableEq K.Ty]

/-- `std::dynamic_pointer_cast<ConfigVar<T>>`, null for a variable of another type. -/
def ConfigVarBase.cast (t : K.Ty) (v : ConfigVarBase K) : Option (ConfigVar (K.El t)) :=
  if h : v.1 = t then some (h ▸ v.2) else none

/-- `Config::Lookup<T>(name, default_value)`: the variable found or created (null if the one
    registered has another type), and the registry afterwards. -/
def Registry.lookup (r : Registry K) (t : K.Ty) (name : String) (default_value : K.El t) :
    Except StdException (Option (ConfigVar (K.El t)) × Registry K) :=
  match r.datas.find? name with
  | some it => .ok (ConfigVarBase.cast t it.2, r)
  | none =>
      if h : findFirstNotOf name lookupChars = none then
        let v := ConfigVar.new name default_value
        .ok (some v,
          { datas := r.datas.assign (name, ⟨t, v⟩)
            named := by
              intro e he
              rcases KeyedSet.mem_assign.1 he with rfl | ⟨he, -⟩
              · exact tolower_of_lookupChars h
              · exact r.named e he })
      else .error (.invalidArgument name)

/-! ## The names that are registered -/

/-- The registries of a program: `Lookup` registers names, and nothing else does. What happens to
    the variables in between is left open. -/
inductive Registry.Reachable : Registry K → Prop
  | empty (h : ∀ e ∈ (∅ : OrdMap String (ConfigVarBase K)), ConfigVarBase.getName e.2 = e.1) :
      Reachable ⟨∅, h⟩
  | lookup {r r' : Registry K} {t : K.Ty} {name : String} {default_value : K.El t}
      {v : Option (ConfigVar (K.El t))} :
      Reachable r → r.lookup t name default_value = .ok (v, r') → Reachable r'
  | changed {r r' : Registry K} :
      Reachable r → (∀ name, (r'.lookupBase name).isSome → (r.lookupBase name).isSome) →
      Reachable r'

/-- A variable is registered under the name it was looked up with, if that has the characters. -/
theorem Registry.lookup_ok {r r' : Registry K} {t : K.Ty} {name : String} {default_value : K.El t}
    {v : Option (ConfigVar (K.El t))} (h : r.lookup t name default_value = .ok (v, r')) :
    (r'.lookupBase name).isSome ∧ ∀ name', (r'.lookupBase name').isSome →
      (r.lookupBase name').isSome ∨ findFirstNotOf name' lookupChars = none := by
  unfold lookup at h
  split at h
  · next it hit =>
      obtain ⟨-, rfl⟩ := Prod.mk.inj (Except.ok.inj h)
      exact ⟨by rw [lookupBase, hit]; rfl, fun _ => Or.inl⟩
  · split at h
    · next hchars =>
        obtain ⟨-, rfl⟩ := Prod.mk.inj (Except.ok.inj h)
        refine ⟨by simp [lookupBase, KeyedSet.find?_assign], fun name' hname' => ?_⟩
        by_cases heq : name = name'
        · exact Or.inr (heq ▸ hchars)
        · rw [lookupBase, KeyedSet.find?_assign, if_neg heq] at hname'
          exact Or.inl hname'
    · exact absurd h (by simp)

/-- A new name that has the characters is accepted. -/
theorem Registry.lookup_new {r : Registry K} {name : String} (hnew : r.datas.find? name = none)
    (h : findFirstNotOf name lookupChars = none) (t : K.Ty) (default_value : K.El t) :
    ∃ r', r.lookup t name default_value = .ok (some (ConfigVar.new name default_value), r') := by
  unfold lookup
  split
  · next hit => exact absurd (hnew.symm.trans hit) (by simp)
  · rw [dif_pos h]
    exact ⟨_, rfl⟩

theorem Registry.Reachable.chars {r : Registry K} (h : r.Reachable) :
    ∀ name, (r.lookupBase name).isSome → findFirstNotOf name lookupChars = none := by
  induction h with
  | empty => exact fun name hname => absurd hname (by simp [lookupBase, KeyedSet.find?])
  | lookup _ hlookup ih =>
      exact fun name hname => ((Registry.lookup_ok hlookup).2 name hname).elim (ih name) id
  | changed _ hkeep ih => exact fun name hname => ih name (hkeep name hname)

/-- Loading a document registers nothing. -/
theorem Registry.Reachable.loadFromYaml {r : Registry K} (h : r.Reachable) (Y : YamlCpp)
    (root : Node) : (loadFromYaml Y r root).registry.Reachable := by
  refine h.changed fun name hname => ?_
  rwa [lookupBase_loadFromYaml, Option.isSome_map] at hname

end

/-! ## The names that are listed -/

/-- The two lists of characters differ in the `9`. -/
theorem validName_iff {name : String} (h : findFirstNotOf name lookupChars = none) :
    ValidName name ↔ '9' ∉ name.toList := by
  have hlookup : lookupChars.toList = memberChars.toList ++ ['9'] := by decide
  have hnine : '9' ∉ memberChars.toList := by decide
  constructor
  · exact fun hname h9 => hnine (findFirstNotOf_eq_none.1 hname _ h9)
  · intro h9
    refine findFirstNotOf_eq_none.2 fun c hc => ?_
    have hmem := findFirstNotOf_eq_none.1 h c hc
    rw [hlookup, List.mem_append, List.mem_singleton] at hmem
    exact hmem.resolve_right fun hc9 => h9 (hc9 ▸ hc)

/-- A name grows with every key. -/
theorem toList_joinName_subset (pfx key : String) : pfx.toList ⊆ (joinName pfx key).toList := by
  unfold joinName
  split_ifs with h
  · simp [h]
  · rw [String.toList_append, String.toList_append, List.append_assoc]
    exact List.subset_append_left _ _

theorem toList_pathName_subset (keys : List String) :
    ∀ pfx : String, pfx.toList ⊆ (pathName pfx keys).toList := by
  induction keys with
  | nil => exact fun pfx => List.Subset.refl _
  | cons key keys ih => exact fun pfx _ hc => ih _ (toList_joinName_subset pfx key hc)

/-- A chain with a valid name has valid beginnings. -/
theorem validChain_iff {root m : Node} {p : List ℕ} {name : String}
    (h : memberAt "" root p = some (name, m)) : ValidChain "" root p ↔ ValidName name := by
  rw [memberAt, Option.map_eq_some_iff] at h
  obtain ⟨⟨keys, m'⟩, hfollow, heq⟩ := h
  obtain ⟨rfl, rfl⟩ := Prod.mk.inj heq
  constructor
  · rintro ⟨keys', n, hn, hvalid⟩
    rw [hfollow, Option.some.injEq, Prod.mk.injEq] at hn
    exact hn.1 ▸ hvalid keys' (List.prefix_refl keys')
  · intro hvalid
    refine ⟨keys, m', hfollow, fun keys' hpre => ?_⟩
    obtain ⟨rest, rfl⟩ := hpre
    refine findFirstNotOf_eq_none.2 fun c hc => findFirstNotOf_eq_none.1 hvalid c ?_
    -- the rest of the chain is named below the name of its beginning
    have happ : pathName "" (keys' ++ rest) = pathName (pathName "" keys') rest :=
      List.foldl_append
    rw [happ]
    exact toList_pathName_subset rest _ hc

/-! ## Keys joined by dots -/

/-- The keys begin with an empty one that others follow. -/
def StartsEmpty (keys : List String) : Prop := keys.head? = some "" ∧ keys.tail ≠ []

instance (keys : List String) : Decidable (StartsEmpty keys) :=
  inferInstanceAs (Decidable (_ ∧ _))

theorem pathName_of_ne {pfx : String} (h : pfx ≠ "") (keys : List String) :
    pathName pfx keys = ".".intercalate (pfx :: keys) := by
  induction keys generalizing pfx with
  | nil => exact String.intercalate_singleton.symm
  | cons key keys ih =>
      have hne : pfx ++ "." ++ key ≠ "" := fun heq => h (String.append_eq_empty_iff.1
        (String.append_eq_empty_iff.1 heq).1).1
      rw [pathName_cons, joinName, if_neg h, ih hne, String.intercalate_cons_append,
        String.intercalate_cons_cons]

theorem pathName_empty_cons (keys : List String) :
    pathName "" ("" :: keys) = pathName "" keys := rfl

/-- An empty key in front is dropped with its dot. -/
theorem length_pathName_le (keys : List String) :
    (pathName "" keys).length ≤ (".".intercalate keys).length := by
  induction keys with
  | nil => exact Nat.le_refl _
  | cons key keys ih =>
      by_cases hkey : key = ""
      · subst hkey
        rw [pathName_empty_cons]
        cases keys with
        | nil => exact Nat.le_refl _
        | cons key' keys =>
            rw [String.intercalate_cons_cons, String.length_append]
            omega
      · rw [pathName_cons, joinName, if_pos rfl, pathName_of_ne hkey]

/-- A chain is listed under its keys joined by dots, unless an empty key comes first. -/
theorem pathName_eq_intercalate_iff (keys : List String) :
    pathName "" keys = ".".intercalate keys ↔ ¬ StartsEmpty keys := by
  match keys with
  | [] => exact iff_of_true rfl fun h => h.2 rfl
  | [key] => exact iff_of_true String.intercalate_singleton.symm fun h => h.2 rfl
  | key :: key' :: keys =>
      by_cases hkey : key = ""
      · subst hkey
        refine iff_of_false (fun heq => ?_) (not_not.2 ⟨rfl, List.cons_ne_nil _ _⟩)
        have hle := length_pathName_le (key' :: keys)
        rw [pathName_empty_cons, String.intercalate_cons_cons] at heq
        rw [heq, String.length_append, String.length_append] at hle
        have hdot : ".".length = 1 := rfl
        omega
      · refine iff_of_true ?_ fun h => hkey (Option.some.inj h.1)
        rw [pathName_cons, joinName, if_pos rfl, pathName_of_ne hkey]

/-! ## Which variables a document reaches -/

section
variable {K : ConfigTypes} (Y : YamlCpp) (root : Node) (name : String)

/-- The texts of the nodes at the positions `ps` that are listed under `name`. -/
def textsAt (ps : List (List ℕ)) : List String := textsFor Y name (ps.filterMap (memberAt "" root))

/-- Of the calls of `fromString` that `LoadFromYaml` makes on the variable `name`, one is for the
    node at the positions `p`: it is passed the text of that node, after those of the nodes that
    come before it in the document and before those of the nodes that come after it. -/
def PassedAt (r : Registry K) (p : List ℕ) : Prop :=
  ∃ before after m, chains "" root = before ++ p :: after ∧ root.follow p = some m ∧
    (loadFromYaml Y r root).passedTo name =
      textsAt Y root name before ++ nodeText Y m.2 :: textsAt Y root name after

variable {Y root name}

theorem textsAt_append (ps qs : List (List ℕ)) :
    textsAt Y root name (ps ++ qs) = textsAt Y root name ps ++ textsAt Y root name qs := by
  rw [textsAt, List.filterMap_append, textsFor, List.filter_append, List.map_append]
  rfl

theorem textsAt_singleton {p : List ℕ} {member : String × Node} (hname : name ≠ "")
    (hm : memberAt "" root p = some member) :
    textsAt Y root name [p] = if member.1 = name then [nodeText Y member.2] else [] := by
  rw [textsAt, List.filterMap_cons_some hm, List.filterMap_nil, textsFor]
  split_ifs with heq
  · simp [heq, hname]
  · simp [heq]

theorem passedTo_chains {r : Registry K} (hreg : (r.lookupBase name).isSome) :
    (loadFromYaml Y r root).passedTo name = textsAt Y root name (chains "" root) := by
  rw [passedTo_listed Y hreg, listAllMember_eq, List.nil_append, textsAt]

/-- The variable is called for exactly the valid chains that are listed under its name. -/
theorem passedAt_iff {r : Registry K} (hreg : (r.lookupBase name).isSome) (hname : name ≠ "")
    {p : List ℕ} {keys : List String} {m : Node} (hm : root.follow p = some (keys, m)) :
    PassedAt Y root name r p ↔ ValidName name ∧ pathName "" keys = name := by
  have hmember : memberAt "" root p = some (pathName "" keys, m) := by
    rw [memberAt, hm, Option.map_some]
  have hat := textsAt_singleton (Y := Y) hname hmember
  constructor
  · rintro ⟨before, after, m', hchains, hm', hpassed⟩
    have hp : p ∈ chains "" root := by simp [hchains]
    rw [passedTo_chains hreg, hchains, textsAt_append, ← List.singleton_append,
      textsAt_append] at hpassed
    have heq : pathName "" keys = name := by
      by_contra hne
      rw [hat, if_neg hne, List.nil_append] at hpassed
      exact absurd (List.append_cancel_left hpassed) (by simp)
    exact ⟨heq ▸ (validChain_iff hmember).1 (mem_chains.1 hp), heq⟩
  · rintro ⟨hvalid, heq⟩
    obtain ⟨before, after, hchains⟩ :=
      List.append_of_mem (mem_chains.2 ((validChain_iff hmember).2 (heq.symm ▸ hvalid)))
    refine ⟨before, after, (keys, m), hchains, hm, ?_⟩
    rw [passedTo_chains hreg, hchains, textsAt_append, ← List.singleton_append, textsAt_append, hat,
      if_pos heq]
    rfl

theorem PassedAt.mem {r : Registry K} {p : List ℕ} {keys : List String} {m : Node}
    (h : PassedAt Y root name r p) (hm : root.follow p = some (keys, m)) :
    nodeText Y m ∈ (loadFromYaml Y r root).passedTo name := by
  obtain ⟨before, after, m', -, hm', hpassed⟩ := h
  obtain rfl := Option.some.inj (hm'.symm.trans hm)
  simp [hpassed]

end

/-- **Reaching a variable.** Let a chain of keys of a document, joined by dots, be the name of a
registered variable. `LoadFromYaml` calls the variable for the node at the end of the chain exactly
when the name has no `9` and the chain does not begin with an empty key that others follow. -/
theorem loadFromYaml_reaches_iff {K : ConfigTypes} [DecidableEq K.Ty] (Y : YamlCpp)
    {r r' : Registry K} (hr : r.Reachable) {t : K.Ty} {name : String} {default_value : K.El t}
    {v : Option (ConfigVar (K.El t))} (hlookup : r.lookup t name default_value = .ok (v, r'))
    (hname : name ≠ "") {root m : Node} {p : List ℕ} {keys : List String}
    (hm : root.follow p = some (keys, m)) (hkeys : ".".intercalate keys = name) :
    (PassedAt Y root name r' p ↔ '9' ∉ name.toList ∧ ¬ StartsEmpty keys) ∧
      (PassedAt Y root name r' p → nodeText Y m ∈ (loadFromYaml Y r' root).passedTo name) := by
  have hreg : (r'.lookupBase name).isSome := (Registry.lookup_ok hlookup).1
  refine ⟨?_, fun h => h.mem hm⟩
  rw [passedAt_iff hreg hname hm, validName_iff ((hr.lookup hlookup).chars name hreg)]
  exact and_congr_right fun _ => hkeys ▸ pathName_eq_intercalate_iff keys

/-- A registry of texts. -/
def textTypes : ConfigTypes where
  Ty := Unit
  El _ := String
  beq _ := inferInstance
  fromStr _ := .ok

instance : DecidableEq textTypes.Ty := inferInstanceAs (DecidableEq Unit)

def noVariables : Registry textTypes := ⟨∅, fun e he => absurd he (KeyedSet.notMem_empty e)⟩

theorem noVariables_lookup {name : String} (h : findFirstNotOf name lookupChars = none) :
    ∃ r', noVariables.lookup () name "" = .ok (some (ConfigVar.new name ""), r') :=
  Registry.lookup_new (K := textTypes) (r := noVariables) rfl h () ""

/-- A library that is not asked for anything: scalars are passed on as they are. -/
def scalarsOnly : YamlCpp :=
  { load := fun _ => .ok .null, emit := fun _ => "", keyIndex := fun _ => none
    nullText := some "null" }

theorem loadFromYaml_reaches_iff_sample :
    ∃ r', noVariables.lookup () "system.port" "" = .ok (some (ConfigVar.new "system.port" ""), r') ∧
      "8080" ∈ (loadFromYaml scalarsOnly r'
        (.map [("system", .map [("port", .scalar "8080")])])).passedTo "system.port" := by
  obtain ⟨r', hlookup⟩ := noVariables_lookup (show findFirstNotOf "system.port" _ = none by decide)
  have hm : (Node.map [("system", .map [("port", .scalar "8080")])]).follow [0, 0] =
      some (["system", "port"], .scalar "8080") := rfl
  obtain ⟨hiff, hmem⟩ :=
    loadFromYaml_reaches_iff scalarsOnly (.empty _) hlookup (by decide) hm (by decide)
  exact ⟨r', hlookup, hmem (hiff.2 (by decide))⟩

/-- A variable with a `9` in its name is registered and cannot be configured. -/
theorem loadFromYaml_misses :
    ¬ ∀ (Y : YamlCpp) (r r' : Registry textTypes) (name : String) (v : Option (ConfigVar String)),
      r.Reachable → r.lookup () name "" = .ok (v, r') → name ≠ "" →
      ∀ (root m : Node) (p : List ℕ) (keys : List String), root.follow p = some (keys, m) →
        ".".intercalate keys = name → nodeText Y m ∈ (loadFromYaml Y r' root).passedTo name := by
  intro h
  obtain ⟨r', hlookup⟩ := noVariables_lookup (show findFirstNotOf "port9" _ = none by decide)
  have hm : (Node.map [("port9", .scalar "1")]).follow [0] = some (["port9"], .scalar "1") := rfl
  have hreach := h scalarsOnly _ _ _ _ (.empty _) hlookup (by decide) _ _ _ _ hm (by decide)
  have hreg := (Registry.lookup_ok hlookup).1
  rw [passedTo_listed scalarsOnly hreg] at hreach
  obtain ⟨m, hm, -⟩ := List.mem_map.1 hreach
  obtain ⟨hin, hnamed⟩ := List.mem_filter.1 hm
  have heq : m.1 = "port9" := (of_decide_eq_true hnamed).2
  exact absurd (heq ▸ validName_of_mem hin) (by decide : ¬ ValidName "port9")

end Ipmsg
