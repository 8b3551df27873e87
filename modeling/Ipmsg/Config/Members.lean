import Mathlib.Order.Nat
import Mathlib.Data.List.Lex
import Ipmsg.Config.Load

set_option autoImplicit false

/-! # The members of a document

A chain of map keys is given by its positions: which pair is taken in the map at the root, which one
in the map below it, and so on. `ListAllMember` lists the chains all of whose beginnings have a
valid name, in the lexicographic order of their positions, which is the pre-order of the tree. -/

namespace Ipmsg

/-! ## Chains -/

/-- The keys along the positions `p`, and the node they lead to. -/
def Node.follow : Node → List ℕ → Option (List String × Node)
  | node, [] => some ([], node)
  | .map pairs, i :: p =>
      match pairs[i]? with
      | none => none
      | some (key, child) => (child.follow p).map fun m => (key :: m.1, m.2)
  | _, _ :: _ => none

theorem Node.follow_map_cons {pairs : List (String × Node)} {i : ℕ} {key : String} {child : Node}
    (h : pairs[i]? = some (key, child)) (p : List ℕ) :
    (Node.map pairs).follow (i :: p) = (child.follow p).map fun m => (key :: m.1, m.2) := by
  simp only [Node.follow, h]

theorem Node.follow_cons_eq_some {node m : Node} {i : ℕ} {p : List ℕ} {keys : List String} :
    node.follow (i :: p) = some (keys, m) ↔
      ∃ pairs key child keys', node = .map pairs ∧ pairs[i]? = some (key, child) ∧
        child.follow p = some (keys', m) ∧ keys = key :: keys' := by
  constructor
  · intro h
    cases node with
    | map pairs =>
        cases hi : pairs[i]? with
        | none => simp [Node.follow, hi] at h
        | some e =>
            rw [Node.follow_map_cons hi, Option.map_eq_some_iff] at h
            obtain ⟨⟨keys', m'⟩, hm, heq⟩ := h
            obtain ⟨rfl, rfl⟩ := Prod.mk.inj heq
            exact ⟨pairs, e.1, e.2, keys', rfl, hi, hm, rfl⟩
    | _ => simp [Node.follow] at h
  · rintro ⟨pairs, key, child, keys', rfl, hi, hm, rfl⟩
    rw [Node.follow_map_cons hi, hm, Option.map_some]

/-- The name of the chain of keys `keys` below the node named `pfx`. -/
def pathName (pfx : String) (keys : List String) : String := keys.foldl joinName pfx

theorem pathName_cons (pfx key : String) (keys : List String) :
    pathName pfx (key :: keys) = pathName (joinName pfx key) keys := rfl

/-- The name has only the characters of a member. -/
def ValidName (name : String) : Prop := findFirstNotOf name memberChars = none

instance (name : String) : Decidable (ValidName name) :=
  inferInstanceAs (Decidable (findFirstNotOf name memberChars = none))

/-- The positions `p` are those of a chain all of whose beginnings have a valid name. -/
def ValidChain (pfx : String) (node : Node) (p : List ℕ) : Prop :=
  ∃ keys m, node.follow p = some (keys, m) ∧
    ∀ keys', keys' <+: keys → ValidName (pathName pfx keys')

/-- The name and the node at the positions `p`. -/
def memberAt (pfx : String) (node : Node) (p : List ℕ) : Option (String × Node) :=
  (node.follow p).map fun m => (pathName pfx m.1, m.2)

theorem validChain_nil {pfx : String} {node : Node} : ValidChain pfx node [] ↔ ValidName pfx := by
  constructor
  · rintro ⟨keys, m, hm, hvalid⟩
    exact hvalid [] List.nil_prefix
  · intro h
    refine ⟨[], node, by rw [Node.follow], fun keys' hk => ?_⟩
    rw [List.prefix_nil.1 hk]
    exact h

theorem validChain_cons {pfx : String} {node : Node} {i : ℕ} {p : List ℕ} :
    ValidChain pfx node (i :: p) ↔ ValidName pfx ∧ ∃ pairs key child, node = .map pairs ∧
      pairs[i]? = some (key, child) ∧ ValidChain (joinName pfx key) child p := by
  constructor
  · rintro ⟨keys, m, hm, hvalid⟩
    obtain ⟨pairs, key, child, keys', rfl, hi, hchild, rfl⟩ := Node.follow_cons_eq_some.1 hm
    refine ⟨hvalid [] List.nil_prefix, pairs, key, child, rfl, hi, keys', m, hchild, ?_⟩
    intro ks hks
    rw [← pathName_cons]
    exact hvalid (key :: ks) (List.cons_prefix_cons.2 ⟨rfl, hks⟩)
  · rintro ⟨hpfx, pairs, key, child, rfl, hi, keys', m, hm, hvalid⟩
    refine ⟨key :: keys', m, Node.follow_cons_eq_some.2 ⟨pairs, key, child, keys', rfl, hi, hm, rfl⟩,
      fun ks hks => ?_⟩
    cases ks with
    | nil => exact hpfx
    | cons k ks =>
        obtain ⟨rfl, hpre⟩ := List.cons_prefix_cons.1 hks
        exact hvalid ks hpre

theorem memberAt_map_cons {pairs : List (String × Node)} {i : ℕ} {key : String} {child : Node}
    (h : pairs[i]? = some (key, child)) (pfx : String) (p : List ℕ) :
    memberAt pfx (.map pairs) (i :: p) = memberAt (joinName pfx key) child p := by
  unfold memberAt
  rw [Node.follow_map_cons h, Option.map_map]
  rfl

/-! ## Enumerating the valid chains -/

mutual

/-- The positions of the members listed below a node named `pfx`. -/
def chains (pfx : String) (node : Node) : List (List ℕ) :=
  if ¬ ValidName pfx then []
  else
    match node with
    | .map pairs => [] :: chainsFrom pfx 0 pairs
    | _ => [[]]

/-- Those below the pairs of a map from position `i` on. -/
def chainsFrom (pfx : String) (i : ℕ) : List (String × Node) → List (List ℕ)
  | [] => []
  | (key, node) :: pairs =>
      (chains (joinName pfx key) node).map (i :: ·) ++ chainsFrom pfx (i + 1) pairs

end

theorem chains_of_not_validName {pfx : String} (h : ¬ ValidName pfx) (node : Node) :
    chains pfx node = [] := by
  unfold chains
  exact if_pos h

theorem chains_map {pfx : String} (h : ValidName pfx) (pairs : List (String × Node)) :
    chains pfx (.map pairs) = [] :: chainsFrom pfx 0 pairs := by
  unfold chains
  exact if_neg (not_not.2 h)

theorem chains_of_not_map {pfx : String} (h : ValidName pfx) {node : Node}
    (hnode : ∀ pairs, node ≠ .map pairs) : chains pfx node = [[]] := by
  unfold chains
  cases node with
  | map pairs => exact absurd rfl (hnode pairs)
  | _ => exact if_neg (not_not.2 h)

/-- The chains below a map start with the position of one of its pairs. -/
theorem mem_chainsFrom {pfx : String} {i : ℕ} {pairs : List (String × Node)} {p : List ℕ} :
    p ∈ chainsFrom pfx i pairs ↔ ∃ j q key child, p = (i + j) :: q ∧
      pairs[j]? = some (key, child) ∧ q ∈ chains (joinName pfx key) child := by
  induction pairs generalizing i with
  | nil => simp [chainsFrom]
  | cons e pairs ih =>
      rw [chainsFrom, List.mem_append, List.mem_map, ih]
      constructor
      · rintro (⟨q, hq, rfl⟩ | ⟨j, q, key, child, rfl, hj, hq⟩)
        · exact ⟨0, q, e.1, e.2, rfl, rfl, hq⟩
        · exact ⟨j + 1, q, key, child, by rw [Nat.add_assoc, Nat.add_comm 1], hj, hq⟩
      · rintro ⟨j, q, key, child, rfl, hj, hq⟩
        cases j with
        | zero =>
            obtain rfl := Option.some.inj hj
            exact Or.inl ⟨q, hq, rfl⟩
        | succ j =>
            exact Or.inr ⟨j, q, key, child, by rw [Nat.add_assoc, Nat.add_comm 1], hj, hq⟩

/-- Exactly the valid chains are enumerated. -/
theorem mem_chains {pfx : String} {node : Node} {p : List ℕ} :
    p ∈ chains pfx node ↔ ValidChain pfx node p := by
  induction p generalizing pfx node with
  | nil =>
      rw [validChain_nil]
      by_cases h : ValidName pfx
      · cases node with
        | map pairs => simp [chains_map h, h]
        | _ => simp [chains_of_not_map h, h]
      · simp [chains_of_not_validName h, h]
  | cons i p ih =>
      rw [validChain_cons]
      by_cases h : ValidName pfx
      · cases node with
        | map pairs =>
            simp only [chains_map h, List.mem_cons, reduceCtorEq, false_or, mem_chainsFrom,
              Nat.zero_add, h, true_and, Node.map.injEq]
            constructor
            · rintro ⟨j, q, key, child, heq, hj, hq⟩
              obtain ⟨rfl, rfl⟩ := List.cons.inj heq
              exact ⟨pairs, key, child, rfl, hj, ih.1 hq⟩
            · rintro ⟨_, key, child, rfl, hi, hp⟩
              exact ⟨i, p, key, child, rfl, hi, ih.2 hp⟩
        | _ => simp [chains_of_not_map h]
      · simp [chains_of_not_validName h, h]

mutual

/-- They come in pre-order, none twice. -/
theorem chains_sorted (pfx : String) (node : Node) : (chains pfx node).Pairwise (· < ·) := by
  by_cases h : ValidName pfx
  · match node with
    | .map pairs =>
        rw [chains_map h]
        refine List.pairwise_cons.2 ⟨fun p hp => ?_, chainsFrom_sorted pfx 0 pairs⟩
        obtain ⟨j, q, key, child, rfl, -, -⟩ := mem_chainsFrom.1 hp
        exact List.nil_lt_cons _ _
    | .null | .scalar _ | .seq _ =>
        rw [chains_of_not_map h (by simp)]
        exact List.pairwise_singleton _ _
  · rw [chains_of_not_validName h]
    exact List.Pairwise.nil

theorem chainsFrom_sorted (pfx : String) (i : ℕ) :
    ∀ pairs, (chainsFrom pfx i pairs).Pairwise (· < ·)
  | [] => List.Pairwise.nil
  | (key, node) :: pairs => by
      rw [chainsFrom]
      refine List.pairwise_append.2 ⟨?_, chainsFrom_sorted pfx (i + 1) pairs, ?_⟩
      · rw [List.pairwise_map]
        exact (chains_sorted (joinName pfx key) node).imp fun hlt => List.cons_lt_cons_self.2 hlt
      · intro p hp q hq
        obtain ⟨p, -, rfl⟩ := List.mem_map.1 hp
        obtain ⟨j, q, key, child, rfl, -, -⟩ := mem_chainsFrom.1 hq
        exact List.Lex.rel (by omega)

end

/-! ## What is listed -/

theorem listAllMember_of_not_validName {pfx : String} (h : ¬ ValidName pfx) (node : Node)
    (output : List (String × Node)) : listAllMember pfx node output = output := by
  unfold listAllMember
  exact if_pos h

theorem listAllMember_map {pfx : String} (h : ValidName pfx) (pairs output : List (String × Node)) :
    listAllMember pfx (.map pairs) output = listPairs pfx pairs (output ++ [(pfx, .map pairs)]) := by
  unfold listAllMember
  exact if_neg (not_not.2 h)

theorem listAllMember_of_not_map {pfx : String} (h : ValidName pfx) {node : Node}
    (hnode : ∀ pairs, node ≠ .map pairs) (output : List (String × Node)) :
    listAllMember pfx node output = output ++ [(pfx, node)] := by
  unfold listAllMember
  cases node with
  | map pairs => exact absurd rfl (hnode pairs)
  | _ => exact if_neg (not_not.2 h)

@[simp] theorem memberAt_nil (pfx : String) (node : Node) : memberAt pfx node [] = some (pfx, node) := by
  simp [memberAt, Node.follow, pathName]

mutual

/-- The members at the valid chains are appended to `output`. -/
theorem listAllMember_eq (pfx : String) (node : Node) (output : List (String × Node)) :
    listAllMember pfx node output = output ++ (chains pfx node).filterMap (memberAt pfx node) := by
  by_cases h : ValidName pfx
  · match node with
    | .map pairs =>
        rw [listAllMember_map h, chains_map h, listPairs_eq pfx pairs 0 pairs List.drop_zero,
          List.filterMap_cons_some (memberAt_nil pfx _), List.append_assoc, List.singleton_append]
    | .null | .scalar _ | .seq _ =>
        rw [listAllMember_of_not_map h (by simp), chains_of_not_map h (by simp),
          List.filterMap_cons_some (memberAt_nil pfx _), List.filterMap_nil]
  · rw [listAllMember_of_not_validName h, chains_of_not_validName h, List.filterMap_nil,
      List.append_nil]

theorem listPairs_eq (pfx : String) (all : List (String × Node)) (i : ℕ) :
    ∀ (pairs : List (String × Node)), all.drop i = pairs → ∀ (output : List (String × Node)),
      listPairs pfx pairs output =
        output ++ (chainsFrom pfx i pairs).filterMap (memberAt pfx (.map all))
  | [], _, output => by rw [listPairs, chainsFrom, List.filterMap_nil, List.append_nil]
  | (key, node) :: pairs, hdrop, output => by
      have hi : all[i]? = some (key, node) := by
        rw [← List.head?_drop, hdrop, List.head?_cons]
      have hrest : all.drop (i + 1) = pairs := by
        rw [← List.tail_drop, hdrop, List.tail_cons]
      have hmember : ∀ q, memberAt pfx (.map all) (i :: q) = memberAt (joinName pfx key) node q :=
        memberAt_map_cons hi pfx
      rw [listPairs, listAllMember_eq (joinName pfx key) node output,
        listPairs_eq pfx all (i + 1) pairs hrest, chainsFrom, List.filterMap_append,
        List.filterMap_map, List.append_assoc]
      simp only [Function.comp_def, hmember]

end

/-- The listed members are those at the valid chains, one for each. -/
theorem listAllMember_chains (pfx : String) (node : Node) :
    (listAllMember pfx node []).map some = (chains pfx node).map (memberAt pfx node) := by
  rw [listAllMember_eq, List.nil_append]
  have hsome : ∀ p ∈ chains pfx node, (memberAt pfx node p).isSome := by
    intro p hp
    obtain ⟨keys, m, hm, -⟩ := mem_chains.1 hp
    simp [memberAt, hm]
  generalize chains pfx node = ps at hsome
  induction ps with
  | nil => rfl
  | cons p ps ih =>
      obtain ⟨m, hm⟩ := Option.isSome_iff_exists.1 (hsome p List.mem_cons_self)
      rw [List.filterMap_cons_some hm, List.map_cons, List.map_cons, hm,
        ih fun q hq => hsome q (List.mem_cons_of_mem p hq)]

/-- Every listed name is valid. -/
theorem validName_of_mem {pfx : String} {node : Node} {m : String × Node}
    (h : m ∈ listAllMember pfx node []) : ValidName m.1 := by
  rw [listAllMember_eq, List.nil_append, List.mem_filterMap] at h
  obtain ⟨p, hp, hm⟩ := h
  obtain ⟨keys, n, hn, hvalid⟩ := mem_chains.1 hp
  rw [memberAt, hn, Option.map_some, Option.some.injEq] at hm
  rw [← hm]
  exact hvalid keys (List.prefix_refl keys)

end Ipmsg
