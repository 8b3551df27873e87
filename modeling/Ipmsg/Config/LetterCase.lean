import Mathlib
import Ipmsg.Config.Lookup

set_option autoImplicit false

/-! # The letter case of the keys

`LoadFromYaml` looks the variable up under the name in lower case, but `ListAllMember` has dropped
every member below a key with a capital letter before that. Whether a variable is set depends on how
its name is spelled in the document. -/

/-- What is lowered to a character that is no letter is that character. -/
theorem Char.toLower_eq_self {c : Char} (h : c.toLower.toUpper = c.toLower) : c.toLower = c := by
  by_cases hupper : c.isUpper
  · rw [← h, Char.toUpper_toLower_eq_toUpper]
    exact Char.toUpper_eq_of_not_isLower (Char.not_isLower_of_isUpper hupper)
  · exact Char.toLower_eq_of_not_isUpper hupper

namespace Ipmsg

/-! ## Spellings -/

/-- The text with every character mapped. -/
def respell (g : Char → Char) (s : String) : String := String.ofList (s.toList.map g)

theorem tolower_eq_respell (s : String) : tolower s = respell Char.toLower s := rfl

@[simp] theorem toList_respell (g : Char → Char) (s : String) :
    (respell g s).toList = s.toList.map g := String.toList_ofList

theorem respell_respell (g g' : Char → Char) (s : String) :
    respell g (respell g' s) = respell (fun c => g (g' c)) s := by
  rw [respell, toList_respell, List.map_map]
  rfl

theorem respell_eq_empty {g : Char → Char} {s : String} : respell g s = "" ↔ s = "" := by
  rw [← String.toList_inj, ← String.toList_inj, toList_respell, String.toList_empty,
    List.map_eq_nil_iff]

theorem respell_joinName {g : Char → Char} (hdot : g '.' = '.') (pfx key : String) :
    respell g (joinName pfx key) = joinName (respell g pfx) (respell g key) := by
  unfold joinName
  by_cases h : pfx = ""
  · rw [if_pos h, if_pos (respell_eq_empty.2 h)]
  · rw [if_neg h, if_neg (mt respell_eq_empty.1 h), ← String.toList_inj]
    simp [hdot]

namespace Node

mutual

/-- The document with every character of its map keys mapped. -/
def respellKeys (g : Char → Char) : Node → Node
  | .null => .null
  | .scalar text => .scalar text
  | .seq items => .seq (respellItems g items)
  | .map pairs => .map (respellPairs g pairs)

def respellItems (g : Char → Char) : List Node → List Node
  | [] => []
  | node :: items => node.respellKeys g :: respellItems g items

def respellPairs (g : Char → Char) : List (String × Node) → List (String × Node)
  | [] => []
  | (key, node) :: pairs => (respell g key, node.respellKeys g) :: respellPairs g pairs

end

/-- The documents differ in nothing but the letter case of their keys. -/
def SameButCase (d d' : Node) : Prop :=
  d.respellKeys Char.toLower = d'.respellKeys Char.toLower

mutual

/-- There is no map in the node. -/
def MapFree : Node → Prop
  | .null => True
  | .scalar _ => True
  | .seq items => MapFreeItems items
  | .map _ => False

def MapFreeItems : List Node → Prop
  | [] => True
  | node :: items => node.MapFree ∧ MapFreeItems items

end

mutual

theorem respellKeys_respellKeys (g g' : Char → Char) :
    ∀ node : Node, (node.respellKeys g').respellKeys g = node.respellKeys fun c => g (g' c)
  | .null => rfl
  | .scalar _ => rfl
  | .seq items => by
      simp only [respellKeys, respellItems_respellItems g g' items]
  | .map pairs => by
      simp only [respellKeys, respellPairs_respellPairs g g' pairs]

theorem respellItems_respellItems (g g' : Char → Char) :
    ∀ items, respellItems g (respellItems g' items) = respellItems (fun c => g (g' c)) items
  | [] => rfl
  | node :: items => by
      simp only [respellItems, respellKeys_respellKeys g g' node,
        respellItems_respellItems g g' items]

theorem respellPairs_respellPairs (g g' : Char → Char) :
    ∀ pairs, respellPairs g (respellPairs g' pairs) = respellPairs (fun c => g (g' c)) pairs
  | [] => rfl
  | (key, node) :: pairs => by
      simp only [respellPairs, respell_respell, respellKeys_respellKeys g g' node,
        respellPairs_respellPairs g g' pairs]

end

mutual

/-- A node without maps has no keys. -/
theorem MapFree.respellKeys_eq (g : Char → Char) :
    ∀ {node : Node}, node.MapFree → node.respellKeys g = node
  | .null, _ => rfl
  | .scalar _, _ => rfl
  | .seq items, h => by
      have hitems : MapFreeItems items := h
      rw [respellKeys, hitems.respellItems_eq g]
  | .map _, h => h.elim

theorem MapFreeItems.respellItems_eq (g : Char → Char) :
    ∀ {items : List Node}, MapFreeItems items → respellItems g items = items
  | [], _ => rfl
  | node :: items, h => by
      rw [respellItems, h.1.respellKeys_eq g, h.2.respellItems_eq g]

end

mutual

theorem mapFree_respellKeys (g : Char → Char) :
    ∀ node : Node, (node.respellKeys g).MapFree ↔ node.MapFree
  | .null => Iff.rfl
  | .scalar _ => Iff.rfl
  | .seq items => mapFreeItems_respellItems g items
  | .map _ => Iff.rfl

theorem mapFreeItems_respellItems (g : Char → Char) :
    ∀ items : List Node, MapFreeItems (respellItems g items) ↔ MapFreeItems items
  | [] => Iff.rfl
  | node :: items =>
      and_congr (mapFree_respellKeys g node) (mapFreeItems_respellItems g items)

end

/-- Without maps there is nothing that can be spelled otherwise. -/
theorem MapFree.eq_of_respellKeys {g : Char → Char} {m m' : Node} (hm : m.MapFree)
    (h : m'.respellKeys g = m.respellKeys g) : m' = m := by
  have hm' : m'.MapFree := (mapFree_respellKeys g m').1 (h ▸ (mapFree_respellKeys g m).2 hm)
  rw [← hm'.respellKeys_eq g, h, hm.respellKeys_eq g]

theorem sameButCase_respellKeys {g : Char → Char} (hg : ∀ c, (g c).toLower = c.toLower)
    (d : Node) : SameButCase d (d.respellKeys g) := by
  unfold SameButCase
  rw [respellKeys_respellKeys]
  exact congrArg (d.respellKeys ·) (funext fun c => (hg c).symm)

end Node

/-! ## All members, listed or not -/

mutual

/-- The nodes below `node` with their path names, in pre-order. -/
def members (pfx : String) (node : Node) : List (String × Node) :=
  match node with
  | .map pairs => (pfx, .map pairs) :: membersOf pfx pairs
  | _ => [(pfx, node)]

/-- Those below the pairs of a map. -/
def membersOf (pfx : String) : List (String × Node) → List (String × Node)
  | [] => []
  | (key, node) :: pairs => members (joinName pfx key) node ++ membersOf pfx pairs

end

theorem members_of_not_map (pfx : String) {node : Node} (hnode : ∀ pairs, node ≠ .map pairs) :
    members pfx node = [(pfx, node)] := by
  unfold members
  cases node with
  | map pairs => exact absurd rfl (hnode pairs)
  | _ => rfl

mutual

/-- A name begins with the names above it. -/
theorem subset_members (pfx : String) :
    ∀ node : Node, ∀ m ∈ members pfx node, pfx.toList ⊆ m.1.toList
  | .map pairs => by
      rw [members]
      exact List.forall_mem_cons.2 ⟨List.Subset.refl _, subset_membersOf pfx pairs⟩
  | .null | .scalar _ | .seq _ => by
      rw [members_of_not_map pfx (by simp)]
      exact List.forall_mem_singleton.2 (List.Subset.refl _)

theorem subset_membersOf (pfx : String) :
    ∀ pairs, ∀ m ∈ membersOf pfx pairs, pfx.toList ⊆ m.1.toList
  | [] => fun m hm => absurd hm List.not_mem_nil
  | (key, node) :: pairs => by
      rw [membersOf, List.forall_mem_append]
      refine ⟨fun m hm => ?_, subset_membersOf pfx pairs⟩
      exact List.Subset.trans (toList_joinName_subset pfx key)
        (subset_members (joinName pfx key) node m hm)

end

/-- No member is valid below a node that is not. -/
theorem filter_members_of_not_validName {pfx : String} (h : ¬ ValidName pfx) (node : Node) :
    (members pfx node).filter (fun m => ValidName m.1) = [] := by
  refine List.filter_eq_nil_iff.2 fun m hm hvalid => h ?_
  refine findFirstNotOf_eq_none.2 fun c hc => ?_
  exact findFirstNotOf_eq_none.1 (of_decide_eq_true hvalid) c (subset_members pfx node m hm hc)

mutual

/-- The members with a valid name are listed. -/
theorem listAllMember_eq_filter (pfx : String) (node : Node) (output : List (String × Node)) :
    listAllMember pfx node output = output ++ (members pfx node).filter fun m => ValidName m.1 := by
  by_cases h : ValidName pfx
  · match node with
    | .map pairs =>
        rw [listAllMember_map h, listPairs_eq_filter, members, List.filter_cons_of_pos (by simpa),
          List.append_assoc, List.singleton_append]
    | .null | .scalar _ | .seq _ =>
        rw [listAllMember_of_not_map h (by simp), members_of_not_map pfx (by simp),
          List.filter_cons_of_pos (by simpa), List.filter_nil]
  · rw [listAllMember_of_not_validName h, filter_members_of_not_validName h, List.append_nil]

theorem listPairs_eq_filter (pfx : String) :
    ∀ pairs output, listPairs pfx pairs output =
      output ++ (membersOf pfx pairs).filter fun m => ValidName m.1
  | [], output => by rw [listPairs, membersOf, List.filter_nil, List.append_nil]
  | (key, node) :: pairs, output => by
      rw [listPairs, listAllMember_eq_filter (joinName pfx key) node output,
        listPairs_eq_filter pfx pairs, membersOf, List.filter_append, List.append_assoc]

end

mutual

/-- Spelling the keys otherwise spells the names otherwise. -/
theorem members_respell {g : Char → Char} (hdot : g '.' = '.') (pfx : String) :
    ∀ node : Node, members (respell g pfx) (node.respellKeys g) =
      (members pfx node).map fun m => (respell g m.1, m.2.respellKeys g)
  | .null | .scalar _ | .seq _ => by
      rw [members_of_not_map pfx (by simp), Node.respellKeys, members_of_not_map _ (by simp)]
      rfl
  | .map pairs => by
      rw [members, List.map_cons, ← membersOf_respell hdot pfx pairs, Node.respellKeys, members]

theorem membersOf_respell {g : Char → Char} (hdot : g '.' = '.') (pfx : String) :
    ∀ pairs, membersOf (respell g pfx) (Node.respellPairs g pairs) =
      (membersOf pfx pairs).map fun m => (respell g m.1, m.2.respellKeys g)
  | [] => rfl
  | (key, node) :: pairs => by
      rw [membersOf, List.map_append, ← membersOf_respell hdot pfx pairs,
        ← members_respell hdot (joinName pfx key) node, respell_joinName hdot, Node.respellPairs,
        membersOf]

end

/-! ## The members a variable is addressed by -/

/-- The member has the name of the variable, up to letter case. -/
def Addresses (name : String) (m : String × Node) : Prop := m.1 ≠ "" ∧ tolower m.1 = name

/-- Of two documents, the same texts are passed to the variable, and it ends up the same. -/
def LoadedAlike {K : ConfigTypes} (Y : YamlCpp) (r : Registry K) (name : String) (d d' : Node) :
    Prop :=
  (loadFromYaml Y r d').passedTo name = (loadFromYaml Y r d).passedTo name ∧
    (loadFromYaml Y r d').registry.lookupBase name = (loadFromYaml Y r d).registry.lookupBase name

/-- The member with its name and its keys in lower case. -/
def lowered (m : String × Node) : String × Node := (tolower m.1, m.2.respellKeys Char.toLower)

theorem members_lowered (d : Node) :
    members "" (d.respellKeys Char.toLower) = (members "" d).map lowered :=
  members_respell (by decide) "" d

theorem addresses_lowered {name : String} {m : String × Node} :
    Addresses name (lowered m) ↔ Addresses name m := by
  have htwice : tolower (tolower m.1) = tolower m.1 := by
    simp [tolower_eq_respell, respell_respell]
  unfold Addresses lowered
  rw [htwice, tolower_eq_respell, ne_eq, respell_eq_empty]

/-- A name without letters is spelled in one way only. -/
theorem eq_of_addresses {name : String} (hupper : respell Char.toUpper name = name)
    {m : String × Node} (h : Addresses name m) : m.1 = name := by
  obtain ⟨-, rfl⟩ := h
  rw [← String.toList_inj, tolower_eq_respell, toList_respell]
  rw [← String.toList_inj, toList_respell, tolower_eq_respell, toList_respell,
    List.map_map] at hupper
  refine (map_eq_self_iff.2 fun c hc => Char.toLower_eq_self ?_).symm
  exact List.map_inj_left.1 hupper c hc

/-- The texts of a document's members are those of the document in lower case. -/
theorem textsFor_lowered (Y : YamlCpp) {name : String} (hname : tolower name = name)
    (hupper : respell Char.toUpper name = name) {ms : List (String × Node)}
    (hfree : ∀ m ∈ ms, Addresses name m → m.2.MapFree) :
    textsFor Y name (ms.map lowered) = textsFor Y name ms := by
  induction ms with
  | nil => rfl
  | cons m ms ih =>
      have hrest := ih fun m' hm' => hfree m' (List.mem_cons_of_mem m hm')
      have hone : textsFor Y name [lowered m] = textsFor Y name [m] := by
        by_cases h : Addresses name m
        · have hkeys := (hfree m List.mem_cons_self h).respellKeys_eq Char.toLower
          have hspelled : tolower m.1 = m.1 := by rw [eq_of_addresses hupper h, hname]
          rw [lowered, hspelled, hkeys]
        · have hnot : ∀ m', ¬ Addresses name m' → textsFor Y name [m'] = [] := by
            intro m' hm'
            refine textsFor_eq_nil (List.forall_mem_singleton.2 fun hroot heq => hm' ?_)
            exact ⟨hroot, heq ▸ hname⟩
          rw [hnot m h, hnot _ (mt addresses_lowered.1 h)]
      rw [List.map_cons, textsFor_cons, textsFor_cons name m ms, hone, hrest]

/-- A member of the one document is a member of the other in another spelling. -/
theorem exists_member_of_sameButCase {d d' : Node} (hd : d.SameButCase d') {m' : String × Node}
    (hm' : m' ∈ members "" d') : ∃ m ∈ members "" d, lowered m = lowered m' := by
  have hmem : lowered m' ∈ (members "" d').map lowered := List.mem_map_of_mem hm'
  rw [← members_lowered, ← hd, members_lowered] at hmem
  exact List.mem_map.1 hmem

/-- Documents that differ in letter case have the same texts for a name without letters. -/
theorem textsFor_sameButCase (Y : YamlCpp) {name : String} (hname : tolower name = name)
    (hupper : respell Char.toUpper name = name) {d d' : Node} (hd : d.SameButCase d')
    (hfree : ∀ m ∈ members "" d, Addresses name m → m.2.MapFree) :
    textsFor Y name (members "" d') = textsFor Y name (members "" d) := by
  have heq : (members "" d').map lowered = (members "" d).map lowered := by
    rw [← members_lowered, ← members_lowered, hd]
  rw [← textsFor_lowered Y hname hupper hfree, ← heq]
  refine (textsFor_lowered Y hname hupper fun m' hm' haddr => ?_).symm
  obtain ⟨m, hm, hlow⟩ := exists_member_of_sameButCase hd hm'
  have hmfree : m.2.MapFree :=
    hfree m hm (addresses_lowered.1 (hlow ▸ addresses_lowered.2 haddr))
  exact (hmfree.eq_of_respellKeys (congrArg Prod.snd hlow).symm) ▸ hmfree

/-- What is not addressed is not addressed in another spelling. -/
theorem textsFor_not_addressed (Y : YamlCpp) {name : String} (hname : tolower name = name)
    {d d' : Node} (hd : d.SameButCase d') (hnone : ∀ m ∈ members "" d, ¬ Addresses name m) :
    textsFor Y name (members "" d') = [] := by
  refine textsFor_eq_nil fun m' hm' hroot heq => ?_
  obtain ⟨m, hm, hlow⟩ := exists_member_of_sameButCase hd hm'
  refine hnone m hm (addresses_lowered.1 (hlow ▸ addresses_lowered.2 ⟨hroot, ?_⟩))
  rw [heq, hname]

/-! ## Loading a document in another spelling -/

theorem passedTo_loadFromYaml {K : ConfigTypes} (Y : YamlCpp) {r : Registry K} {name : String}
    (hreg : (r.lookupBase name).isSome) (d : Node) :
    (loadFromYaml Y r d).passedTo name =
      if ValidName name then textsFor Y name (members "" d) else [] := by
  rw [passedTo_listed Y hreg]
  split_ifs with h
  · rw [listAllMember_eq_filter, List.nil_append, textsFor, textsFor, List.filter_filter]
    refine congrArg _ (List.filter_congr fun m _ => ?_)
    by_cases hm : m.1 = name <;> simp [hm, h]
  · exact textsFor_eq_nil fun m hm _ heq => h (heq ▸ validName_of_mem hm)

/-- The value follows from the texts. -/
theorem loadedAlike_iff {K : ConfigTypes} (Y : YamlCpp) {r : Registry K} {name : String}
    (hreg : (r.lookupBase name).isSome) {d d' : Node} :
    LoadedAlike Y r name d d' ↔
      (loadFromYaml Y r d').passedTo name = (loadFromYaml Y r d).passedTo name := by
  have hset : ∀ d : Node, (loadFromYaml Y r d).registry.lookupBase name =
      (r.lookupBase name).map fun v => v.fromStrings ((loadFromYaml Y r d).passedTo name) := by
    intro d
    rw [passedTo_listed Y hreg, lookupBase_loadFromYaml]
  refine and_iff_left_of_imp fun h => ?_
  rw [hset, hset, h]

/-- In capitals no member has a name with a letter. -/
theorem textsFor_upper {Y : YamlCpp} {name : String} (hletter : respell Char.toUpper name ≠ name)
    (d : Node) : textsFor Y name (members "" (d.respellKeys Char.toUpper)) = [] := by
  have hmembers : members "" (d.respellKeys Char.toUpper) =
      (members "" d).map fun m => (respell Char.toUpper m.1, m.2.respellKeys Char.toUpper) :=
    members_respell (by decide) "" d
  refine textsFor_eq_nil fun m hm _ heq => hletter ?_
  rw [hmembers] at hm
  obtain ⟨m', -, rfl⟩ := List.mem_map.1 hm
  rw [← heq, respell_respell]
  simp

/-- In lower case every member that addresses the variable has its name. -/
theorem textsFor_lower_ne_nil {Y : YamlCpp} {name : String} {d : Node} {m : String × Node}
    (hm : m ∈ members "" d) (haddr : Addresses name m) :
    textsFor Y name (members "" (d.respellKeys Char.toLower)) ≠ [] := by
  rw [members_lowered]
  refine List.ne_nil_of_mem (List.mem_map.2 ⟨lowered m, List.mem_filter.2 ⟨?_, ?_⟩, rfl⟩)
  · exact List.mem_map_of_mem hm
  · simpa [lowered, haddr.2] using haddr.2 ▸ (mt respell_eq_empty.1 haddr.1)

/-- **Letter case.** Let a variable be addressed in `d` by nodes without maps. A document that
differs from `d` in letter case only is loaded alike exactly if the name of the variable is not
valid, or the texts under the very name are the same. All such documents are loaded alike exactly if
the name is not valid, has no letter, or is not addressed. -/
theorem loadFromYaml_anyCase_iff {K : ConfigTypes} (Y : YamlCpp) {r : Registry K} {name : String}
    (hreg : (r.lookupBase name).isSome) {d : Node}
    (hfree : ∀ m ∈ members "" d, Addresses name m → m.2.MapFree) :
    (∀ d', d.SameButCase d' → (LoadedAlike Y r name d d' ↔ ¬ ValidName name ∨
      textsFor Y name (members "" d') = textsFor Y name (members "" d))) ∧
    ((∀ d', d.SameButCase d' → LoadedAlike Y r name d d') ↔ ¬ ValidName name ∨
      respell Char.toUpper name = name ∨ ∀ m ∈ members "" d, ¬ Addresses name m) := by
  have halike : ∀ d', LoadedAlike Y r name d d' ↔ ¬ ValidName name ∨
      textsFor Y name (members "" d') = textsFor Y name (members "" d) := by
    intro d'
    rw [loadedAlike_iff Y hreg, passedTo_loadFromYaml Y hreg, passedTo_loadFromYaml Y hreg]
    by_cases h : ValidName name <;> simp [h]
  refine ⟨fun d' _ => halike d', ?_⟩
  constructor
  · intro hall
    by_contra hnot
    obtain ⟨hvalid, hletter, haddr⟩ : ValidName name ∧ respell Char.toUpper name ≠ name ∧
        ∃ m ∈ members "" d, Addresses name m := by
      simpa [not_or] using hnot
    obtain ⟨m, hm, haddr⟩ := haddr
    have hsame : ∀ {g : Char → Char}, (∀ c, (g c).toLower = c.toLower) →
        textsFor Y name (members "" (d.respellKeys g)) = textsFor Y name (members "" d) := by
      intro g hg
      have hor := (halike _).1 (hall _ (Node.sameButCase_respellKeys hg d))
      exact hor.resolve_left (not_not.2 hvalid)
    -- in lower case the variable is passed something, in capitals it is not
    refine textsFor_lower_ne_nil (Y := Y) hm haddr ?_
    rw [hsame Char.toLower_toLower_eq_toLower, ← hsame Char.toLower_toUpper_eq_toLower,
      textsFor_upper hletter]
  · rintro hor d' hd
    refine (halike d').2 ?_
    by_cases hvalid : ValidName name
    · refine Or.inr ?_
      rcases hor with h | hupper | hnone
      · exact absurd hvalid h
      · exact textsFor_sameButCase Y hvalid.tolower_eq hupper hd hfree
      · rw [textsFor_not_addressed Y hvalid.tolower_eq hd hnone,
          textsFor_not_addressed Y hvalid.tolower_eq rfl hnone]
    · exact Or.inl hvalid

/-- A registry with one variable of texts. -/
theorem exists_registered {name : String} (h : findFirstNotOf name lookupChars = none) :
    ∃ r : Registry textTypes, (r.lookupBase name).isSome := by
  obtain ⟨r, hlookup⟩ := noVariables_lookup h
  exact ⟨r, (Registry.lookup_ok hlookup).1⟩

theorem mapFree_of_scalar {key text name : String} :
    ∀ m ∈ members "" (.map [(key, .scalar text)]), Addresses name m → m.2.MapFree := by
  simp only [members, membersOf, List.append_nil, List.forall_mem_cons]
  exact ⟨fun h => absurd rfl h.1, fun _ => trivial, fun m hm => absurd hm List.not_mem_nil⟩

theorem loadFromYaml_anyCase_iff_sample :
    ∃ r : Registry textTypes, (r.lookupBase "a").isSome ∧
      ¬ ∀ d', (Node.map [("a", .scalar "1")]).SameButCase d' →
        LoadedAlike scalarsOnly r "a" (.map [("a", .scalar "1")]) d' := by
  obtain ⟨r, hreg⟩ := exists_registered (show findFirstNotOf "a" _ = none by decide)
  have hiff := (loadFromYaml_anyCase_iff scalarsOnly hreg
    (mapFree_of_scalar : ∀ m ∈ members "" (.map [("a", .scalar "1")]), _)).2
  refine ⟨r, hreg, fun hall => ?_⟩
  rcases hiff.1 hall with h | h | h
  · exact h (by decide)
  · exact absurd h (by decide)
  · exact h ("a", .scalar "1") (List.mem_cons_of_mem _ List.mem_cons_self) ⟨by decide, by decide⟩

/-- A capital letter in the document hides the variable. -/
theorem loadFromYaml_capital : ∃ r : Registry textTypes, (r.lookupBase "a").isSome ∧
    (Node.map [("a", .scalar "1")]).SameButCase (.map [("A", .scalar "1")]) ∧
    (∀ m ∈ members "" (.map [("a", .scalar "1")]), Addresses "a" m → m.2.MapFree) ∧
    (loadFromYaml scalarsOnly r (.map [("a", .scalar "1")])).passedTo "a" = ["1"] ∧
    (loadFromYaml scalarsOnly r (.map [("A", .scalar "1")])).passedTo "a" = [] := by
  obtain ⟨r, hreg⟩ := exists_registered (show findFirstNotOf "a" _ = none by decide)
  refine ⟨r, hreg, rfl, mapFree_of_scalar, ?_, ?_⟩
  · rw [passedTo_loadFromYaml scalarsOnly hreg]
    decide
  · rw [passedTo_loadFromYaml scalarsOnly hreg]
    decide

end Ipmsg
