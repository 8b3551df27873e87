import Ipmsg.Config.ContainersSpec
import Ipmsg.Config.Lookup

set_option autoImplicit false

/-! # Nodes of another kind than the container

The decoders never ask a node for its kind. A scalar or null has no elements, so it is read as an
empty container; a map read as a sequence is searched for the indices. What `LoadFromYaml` does with
a container of `int`s is therefore decided by the elements that are found in the node its text is
loaded as. The conversion of an `int` is the library's; a missing element is printed as the empty
text, which it refuses. -/

namespace Ipmsg

/-! ## Containers of `int` -/

/-- `int`, with the conversions of `boost::lexical_cast`. -/
def intType (casts : LexicalCasts ℤ) : ConfigType where
  T := ℤ
  Content := ℤ
  content := id
  decEq := inferInstance
  casts := casts

/-- The containers `ConfigVar` is specialised for, with `int` elements. -/
inductive IntContainer
  | vector
  | list
  | set
  | unorderedSet (H : HashOrder ℤ)
  | map
  | unorderedMap (H : HashOrder (String × ℤ))

def IntContainer.type (Y : YamlCpp) (casts : LexicalCasts ℤ) : IntContainer → ConfigType
  | vector => (intType casts).vector Y
  | list => (intType casts).list Y
  | set => (intType casts).set Y (id : ℤ → ℤ)
  | unorderedSet H => (intType casts).unorderedSet Y H
  | map => (intType casts).map Y
  | unorderedMap H => (intType casts).unorderedMap Y H

/-- Variables of these containers beside variables of other types. -/
def ConfigTypes.withContainers (K : ConfigTypes) (Y : YamlCpp) (casts : LexicalCasts ℤ) :
    ConfigTypes where
  Ty := K.Ty ⊕ IntContainer
  El := Sum.elim K.El fun C => (C.type Y casts).T
  beq
    | .inl t => K.beq t
    | .inr C => inferInstanceAs (BEq (C.type Y casts).T)
  fromStr
    | .inl t => K.fromStr t
    | .inr C => (C.type Y casts).casts.fromStr

/-! ## What is found in a node -/

section
variable (Y : YamlCpp) (casts : LexicalCasts ℤ)

/-- The node has an element under each index below its size, and they convert to `is`. -/
def Node.Elements (n : Node) (is : List ℤ) : Prop :=
  is.length = n.size ∧ ∀ i x, is[i]? = some x →
    ∃ item, Node.getIdx Y (some n) i = .ok (some item) ∧ casts.fromStr (Y.emit item) = .ok x

/-- The members of the node have the names in `ps` and convert to the numbers in it; a node that is
    not a collection has none. -/
def Node.Members (n : Node) (ps : List (String × ℤ)) : Prop :=
  match n with
  | .map pairs =>
      List.Forall₂ (fun m p => m.1 = p.1 ∧ casts.fromStr (Y.emit m.2) = .ok p.2) pairs ps
  | .seq (_ :: _) => False
  | _ => ps = []

/-- The value is made of just what is found in the node, if the node can be read at all. -/
def IntContainer.Agrees : (C : IntContainer) → (C.type Y casts).T → Node → Prop
  | vector, v, n | list, v, n => ∀ is : List ℤ, n.Elements Y casts is → v = is
  | set, v, n => ∀ is : List ℤ, n.Elements Y casts is → ∀ i : ℤ, i ∈ KeyedSet.elems v ↔ i ∈ is
  | unorderedSet _, v, n =>
      ∀ is : List ℤ, n.Elements Y casts is → ∀ i : ℤ, i ∈ Unordered.elems v ↔ i ∈ is
  | map, v, n => ∀ ps : List (String × ℤ), n.Members Y casts ps →
      ∀ p : String × ℤ, p ∈ KeyedSet.elems v ↔ ps.find? (fun q => q.1 = p.1) = some p
  | unorderedMap _, v, n => ∀ ps : List (String × ℤ), n.Members Y casts ps →
      ∀ p : String × ℤ, p ∈ Unordered.elems v ↔ ps.find? (fun q => q.1 = p.1) = some p

end

/-! ## What the decoders read -/

/-- What the loops over the indices do with one of them. -/
def readIndex (Y : YamlCpp) (casts : LexicalCasts ℤ) (n : Node) (i : ℕ) :
    Except StdException ℤ := do
  let item ← Node.getIdx Y (some n) i
  casts.fromStr (Y.printItem item)

section
variable {Y : YamlCpp} {casts : LexicalCasts ℤ}

section
variable (hmissing : ∃ e, casts.fromStr "" = .error e)
include hmissing

theorem readIndex_iff {n : Node} {i : ℕ} {x : ℤ} :
    readIndex Y casts n i = .ok x ↔
      ∃ item, Node.getIdx Y (some n) i = .ok (some item) ∧ casts.fromStr (Y.emit item) = .ok x := by
  unfold readIndex
  rw [bind_eq_ok]
  constructor
  · rintro ⟨item, hitem, hread⟩
    cases item with
    | none =>
        -- a missing element has the empty text, which is no `int`
        obtain ⟨e, he⟩ := hmissing
        exact absurd (he.symm.trans hread) (by simp)
    | some item => exact ⟨item, hitem, hread⟩
  · rintro ⟨item, hitem, hread⟩
    exact ⟨some item, hitem, hread⟩

/-- The elements are what every index of the loop reads. -/
theorem elements_iff {n : Node} {is : List ℤ} :
    List.Forall₂ (fun i x => readIndex Y casts n i = .ok x) (List.range n.size) is ↔
      n.Elements Y casts is := by
  have hlen : (List.range n.size).length = is.length ↔ is.length = n.size := by
    rw [List.length_range, eq_comm]
  rw [List.forall₂_iff_get, Node.Elements, hlen]
  refine and_congr_right fun hsize => ?_
  constructor
  · intro h i x hx
    obtain ⟨hi, rfl⟩ := List.getElem?_eq_some_iff.1 hx
    have hread := h i (by simpa [← hsize] using hi) hi
    simp only [List.get_eq_getElem, List.getElem_range] at hread
    exact (readIndex_iff hmissing).1 hread
  · intro h i _ hi
    simp only [List.get_eq_getElem, List.getElem_range]
    exact (readIndex_iff hmissing).2 (h i _ (List.getElem?_eq_getElem hi))

theorem itemsOfString_iff {C : Type} (insert : C → ℤ → C) (empty : C) {text : String} {v : C} :
    itemsOfString Y casts.fromStr insert empty text = .ok v ↔
      ∃ n is, Y.load text = .ok n ∧ n.Elements Y casts is ∧ is.foldl insert empty = v := by
  have hpass : ∀ n : Node, (fun vec i => do
        let item ← Node.getIdx Y (some n) i
        return insert vec (← casts.fromStr (Y.printItem item)) : C → ℕ → Except StdException C) =
      fun vec i => (do return insert vec (← readIndex Y casts n i)) := by
    intro n
    funext vec i
    exact (bind_assoc _ _ _).symm
  unfold itemsOfString
  simp only [bind_eq_ok, hpass, foldlM_insert_iff, elements_iff hmissing, exists_and_left]

end

theorem pairsOfString_iff {C : Type} (insert : C → String × ℤ → C) (empty : C) {text : String}
    {v : C} :
    pairsOfString Y casts.fromStr insert empty text = .ok v ↔
      ∃ n ps, Y.load text = .ok n ∧ n.Members Y casts ps ∧ ps.foldl insert empty = v := by
  unfold pairsOfString
  rw [bind_eq_ok]
  refine exists_congr fun n => ?_
  rw [exists_and_left]
  refine and_congr_right fun _ => ?_
  match n with
  | .map pairs =>
      have hpass : (fun vec it => do return insert vec (it.1, ← casts.fromStr (Y.emit it.2)) :
            C → String × Node → Except StdException C) =
          fun vec it =>
            (do return insert vec (← (casts.fromStr (Y.emit it.2)).map (Prod.mk it.1))) := by
        funext vec it
        cases casts.fromStr (Y.emit it.2) <;> rfl
      have hread : ∀ (it : String × Node) (p : String × ℤ),
          (casts.fromStr (Y.emit it.2)).map (Prod.mk it.1) = .ok p ↔
            it.1 = p.1 ∧ casts.fromStr (Y.emit it.2) = .ok p.2 := by
        rintro ⟨name, item⟩ ⟨name', i⟩
        cases casts.fromStr (Y.emit item) <;> simp [Except.map]
      show List.foldlM _ _ _ = _ ↔ _
      rw [hpass, foldlM_insert_iff]
      simp only [hread, Node.Members]
  -- the iterator of a sequence has no `first`
  | .seq (_ :: _) => exact ⟨nofun, fun ⟨_, h, _⟩ => h.elim⟩
  | .seq [] | .null | .scalar _ =>
      show Except.ok empty = Except.ok v ↔ _
      simp [Node.Members]

end

/-! ## When what is read is the value -/

theorem find?_eq_self_iff {l : List ℤ} {i : ℤ} : l.find? (fun j => j = i) = some i ↔ i ∈ l := by
  constructor
  · exact List.mem_of_find?_eq_some
  · intro hi
    cases hf : l.find? fun j => j = i with
    | none => exact absurd (decide_eq_true rfl) (List.find?_eq_none.1 hf i hi)
    | some j =>
        have hj : j = i := by simpa using List.find?_some hf
        rw [hj]

theorem pushed_same {v is : List ℤ} :
    (is.foldl (fun vec i => vec ++ [i]) []).map id = v.map id ↔ v = is := by
  rw [foldl_push, List.map_id, List.map_id]
  exact eq_comm

theorem set_same {v : KeyedSet fun i : ℤ => i} {is : List ℤ} :
    (is.foldl KeyedSet.insert (∅ : KeyedSet fun i : ℤ => i)).elems.map id = v.elems.map id ↔
      ∀ i : ℤ, i ∈ v.elems ↔ i ∈ is := by
  rw [List.map_id, List.map_id]
  refine (Iff.trans ⟨KeyedSet.ext, congrArg _⟩ KeyedSet.foldl_insert_eq_iff).trans ?_
  exact forall_congr' fun i => iff_congr Iff.rfl find?_eq_self_iff

theorem unorderedSet_same {H : HashOrder ℤ} {v : Unordered fun i : ℤ => i} {is : List ℤ} :
    (((is.foldl (Unordered.insert H) (∅ : Unordered fun i : ℤ => i)).elems.map id : List ℤ) :
        Multiset ℤ) = (v.elems.map id : List ℤ) ↔ ∀ i : ℤ, i ∈ v.elems ↔ i ∈ is := by
  rw [List.map_id, List.map_id, Multiset.coe_eq_coe, Unordered.foldl_insert_perm_iff]
  exact forall_congr' fun i => iff_congr Iff.rfl find?_eq_self_iff

theorem map_same {v : OrdMap String ℤ} {ps : List (String × ℤ)} :
    (ps.foldl KeyedSet.insert (∅ : OrdMap String ℤ)).elems.map (Prod.map id id) =
        v.elems.map (Prod.map id id) ↔
      ∀ p : String × ℤ, p ∈ v.elems ↔ ps.find? (fun q => q.1 = p.1) = some p := by
  rw [Prod.map_id, List.map_id, List.map_id]
  exact Iff.trans ⟨KeyedSet.ext, congrArg _⟩ KeyedSet.foldl_insert_eq_iff

theorem unorderedMap_same {H : HashOrder (String × ℤ)}
    {v : Unordered (Prod.fst : String × ℤ → String)} {ps : List (String × ℤ)} :
    (((ps.foldl (Unordered.insert H) (∅ : Unordered (Prod.fst : String × ℤ → String))).elems.map
          (Prod.map id id) : List (String × ℤ)) : Multiset (String × ℤ)) =
        (v.elems.map (Prod.map id id) : List (String × ℤ)) ↔
      ∀ p : String × ℤ, p ∈ v.elems ↔ ps.find? (fun q => q.1 = p.1) = some p := by
  rw [Prod.map_id, List.map_id, List.map_id, Multiset.coe_eq_coe]
  exact Unordered.foldl_insert_perm_iff

section
variable {Y : YamlCpp} {casts : LexicalCasts ℤ} (hmissing : ∃ e, casts.fromStr "" = .error e)
include hmissing

theorem items_agree {C : Type} {insert : C → ℤ → C} {empty : C} {Same : C → Prop}
    {P : List ℤ → Prop} (hP : ∀ is : List ℤ, Same (is.foldl insert empty) ↔ P is) (text : String) :
    (∀ w, itemsOfString Y casts.fromStr insert empty text = .ok w → Same w) ↔
      ∀ n, Y.load text = .ok n → ∀ is : List ℤ, n.Elements Y casts is → P is := by
  simp only [itemsOfString_iff hmissing, ← hP]
  constructor
  · exact fun h n hn is his => h _ ⟨n, is, hn, his, rfl⟩
  · rintro h _ ⟨n, is, hn, his, rfl⟩
    exact h n hn is his

omit hmissing in
theorem pairs_agree {C : Type} {insert : C → String × ℤ → C} {empty : C} {Same : C → Prop}
    {P : List (String × ℤ) → Prop}
    (hP : ∀ ps : List (String × ℤ), Same (ps.foldl insert empty) ↔ P ps) (text : String) :
    (∀ w, pairsOfString Y casts.fromStr insert empty text = .ok w → Same w) ↔
      ∀ n, Y.load text = .ok n → ∀ ps : List (String × ℤ), n.Members Y casts ps → P ps := by
  simp only [pairsOfString_iff, ← hP]
  constructor
  · exact fun h n hn ps hps => h _ ⟨n, ps, hn, hps, rfl⟩
  · rintro h _ ⟨n, ps, hn, hps, rfl⟩
    exact h n hn ps hps

/-- Whatever a container is read as is its value exactly if the value agrees with the node. -/
theorem IntContainer.agrees_iff (C : IntContainer) (v : (C.type Y casts).T) (text : String) :
    (∀ w, (C.type Y casts).casts.fromStr text = .ok w → (w == v) = true) ↔
      ∀ n, Y.load text = .ok n → C.Agrees Y casts v n := by
  cases C with
  | vector => exact items_agree hmissing (fun is => decide_eq_true_iff.trans pushed_same) text
  | list => exact items_agree hmissing (fun is => decide_eq_true_iff.trans pushed_same) text
  | set => exact items_agree hmissing (fun is => decide_eq_true_iff.trans set_same) text
  | unorderedSet H =>
      exact items_agree hmissing (fun is => decide_eq_true_iff.trans unorderedSet_same) text
  | map => exact pairs_agree (fun ps => decide_eq_true_iff.trans map_same) text
  | unorderedMap H => exact pairs_agree (fun ps => decide_eq_true_iff.trans unorderedMap_same) text

end

/-! ## Loading -/

section
variable {K : ConfigTypes} {Y : YamlCpp}

/-- `Config::LoadFromYaml` after the first `k` rounds of its loop. -/
def loadRounds (Y : YamlCpp) (r : Registry K) (root : Node) (k : ℕ) : Loading K :=
  ((listAllMember "" root []).take k).foldl (loadEntry Y)
    { registry := r, passed := [], calls := [] }

theorem loadRounds_length (r : Registry K) (root : Node) :
    loadRounds Y r root (listAllMember "" root []).length = loadFromYaml Y r root := by
  rw [loadRounds, List.take_length]
  rfl

theorem loadRounds_succ {r : Registry K} {root : Node} {k : ℕ} {m : String × Node}
    (h : (listAllMember "" root [])[k]? = some m) :
    loadRounds Y r root (k + 1) = loadEntry Y (loadRounds Y r root k) m := by
  rw [loadRounds, List.take_add_one, h, List.foldl_append]
  rfl

/-- A round leaves the variable of its node alone and calls no listener exactly if `fromString`
    does. -/
theorem loadRounds_idle_iff {r : Registry K} {root node : Node} {k : ℕ} {name : String}
    (hm : (listAllMember "" root [])[k]? = some (name, node)) (hname : name ≠ "")
    {v : ConfigVarBase K} (hv : (loadRounds Y r root k).registry.lookupBase name = some v) :
    (loadRounds Y r root (k + 1)).registry.lookupBase name = some v ∧
        (loadRounds Y r root (k + 1)).calls = (loadRounds Y r root k).calls ↔
      v.fromString (nodeText Y node) = (v, []) := by
  have hvalid : ValidName name := validName_of_mem (List.mem_of_getElem? hm)
  rw [loadRounds_succ hm, loadEntry_known hvalid hname hv, Registry.lookupBase_setFromString,
    if_pos rfl, hv, Option.map_some, Option.some_inj, Prod.ext_iff]
  exact and_congr_right fun _ => List.append_right_eq_self

end

instance (c : ConfigType) : ReflBEq c.T := ⟨decide_eq_true rfl⟩

/-- **Nodes of another kind.** Whatever the kind of a listed node, its round of `LoadFromYaml`
leaves a container of `int`s exactly as it is and calls no listener if and only if the node its text
is loaded as, if it is loaded at all, cannot be read as such a container or holds just the value the
variable has. A node without elements is read as an empty container. -/
theorem loadFromYaml_idle_iff {Y : YamlCpp} {casts : LexicalCasts ℤ}
    (hmissing : ∃ e, casts.fromStr "" = .error e) {K : ConfigTypes} (C : IntContainer)
    {r : Registry (K.withContainers Y casts)} {root node : Node} {k : ℕ} {name : String}
    (hm : (listAllMember "" root [])[k]? = some (name, node)) (hname : name ≠ "")
    {x : ConfigVar (C.type Y casts).T}
    (hx : (loadRounds Y r root k).registry.lookupBase name = some ⟨.inr C, x⟩) :
    (loadRounds Y r root (k + 1)).registry.lookupBase name = some ⟨.inr C, x⟩ ∧
        (loadRounds Y r root (k + 1)).calls = (loadRounds Y r root k).calls ↔
      ∀ n, Y.load (nodeText Y node) = .ok n → C.Agrees Y casts x.m_val n := by
  rw [loadRounds_idle_iff hm hname hx, ← C.agrees_iff hmissing, ← ConfigVar.fromString_idle_iff,
    Prod.ext_iff]
  constructor
  · rintro ⟨hvar, hcalls⟩
    exact ⟨eq_of_heq (Sigma.mk.inj hvar).2, List.map_eq_nil_iff.1 hcalls⟩
  · rintro ⟨hvar, hcalls⟩
    exact ⟨congrArg (Sigma.mk _) hvar, List.map_eq_nil_iff.2 hcalls⟩

/-- `int` as far as the samples need it. -/
def oneCasts : LexicalCasts ℤ where
  toStr i := .ok (toString i)
  fromStr text := if text = "1" then .ok 1 else .error .badLexicalCast

/-- What the library makes of the texts `x`, `1` and `b: 1`. -/
def sampleYaml : YamlCpp where
  load text :=
    if text = "b: 1" then .ok (.map [("b", .scalar "1")])
    else if text = "x" ∨ text = "1" then .ok (.scalar text) else .error .parserException
  emit
    | .scalar text => text
    | _ => "b: 1"
  keyIndex _ := none
  nullText := some "null"

/-- Variables of the containers and no others. -/
abbrev sampleTypes : ConfigTypes :=
  { Ty := Empty, El := nofun, beq := nofun, fromStr := nofun : ConfigTypes }.withContainers
    sampleYaml oneCasts

/-- The registry with one variable. -/
def Registry.single {K : ConfigTypes} (v : ConfigVarBase K) : Registry K where
  datas := ⟨[(v.getName, v)], List.pairwise_singleton _ _⟩
  named := fun _ he => List.mem_singleton.1 he ▸ rfl

/-- A vector with the element 1 and a listener. -/
def onesVar : ConfigVar ((IntContainer.vector).type sampleYaml oneCasts).T where
  m_name := "a"
  m_val := [(1 : ℤ)]
  m_cbs := ⟨[(1, fun _ _ => .ok ())], List.pairwise_singleton _ _⟩

/-- The map `{b: 1}` has nothing under the index 0, so the vector does not take it. -/
theorem loadFromYaml_idle_iff_sample :
    let r : Registry sampleTypes := .single ⟨.inr .vector, onesVar⟩
    let root := Node.map [("a", .map [("b", .scalar "1")])]
    (loadRounds sampleYaml r root 2).registry.lookupBase "a" = some ⟨.inr .vector, onesVar⟩ ∧
      (loadRounds sampleYaml r root 2).calls = (loadRounds sampleYaml r root 1).calls := by
  intro r root
  have hm : (listAllMember "" root [])[1]? = some ("a", .map [("b", .scalar "1")]) := rfl
  refine (loadFromYaml_idle_iff ⟨_, rfl⟩ .vector hm (by decide) rfl).2 ?_
  rintro n hn is ⟨hlen, hall⟩
  obtain rfl : Node.map [("b", .scalar "1")] = n := Except.ok.inj hn
  obtain ⟨i, rfl⟩ := List.length_eq_one_iff.1 hlen
  obtain ⟨item, hitem, -⟩ := hall 0 i rfl
  exact absurd hitem (by simp [Node.getIdx, sampleYaml])

/-- The node is a collection of the other kind than the container, or a scalar. -/
def IntContainer.OtherKind : IntContainer → Node → Prop
  | _, .scalar _ => True
  | map, .seq _ | unorderedMap _, .seq _ => True
  | map, .map _ | unorderedMap _, .map _ => False
  | _, .map _ => True
  | _, _ => False

/-- The scalar `x` empties the vector, and its listener is told. -/
theorem not_rejected :
    ¬ ∀ (C : IntContainer) (x : ConfigVar (C.type sampleYaml oneCasts).T) (node : Node),
      C.OtherKind node →
        let r : Registry sampleTypes := .single ⟨.inr C, x⟩
        let loading := loadFromYaml sampleYaml r (.map [(x.m_name, node)])
        loading.registry.lookupBase x.m_name = some ⟨.inr C, x⟩ ∧ loading.calls = [] := by
  intro h
  have hcalls := (h .vector onesVar (.scalar "x") trivial).2
  have hone : (loadFromYaml sampleYaml (.single ⟨.inr .vector, onesVar⟩ : Registry sampleTypes)
      (.map [("a", .scalar "x")])).calls.length = 1 := rfl
  rw [show onesVar.m_name = "a" from rfl] at hcalls
  rw [hcalls] at hone
  exact absurd hone (by decide)

end Ipmsg
