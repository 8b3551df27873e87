import Ipmsg.Basic

set_option autoImplicit false

/-! # The part of yaml-cpp the code uses

`Node` is a loaded YAML tree: null, scalars, sequences and string-keyed maps. An undefined node
(what indexing yields when there is nothing at the index) is `none : Option Node`.

The library itself is not part of the repository. Its parser and emitter, the conversion that
compares a map key with a numeric index, and the text of null are the parameters collected in
`YamlCpp`; what a result needs of them is a hypothesis of that result. Reading and building trees is
modelled here. -/

namespace Ipmsg

/-- `YAML::Node`, as a tree. -/
inductive Node
  | null
  | scalar (text : String)
  | seq (items : List Node)
  | map (pairs : List (String × Node))
  deriving Repr

structure YamlCpp where
  /-- `YAML::Load`. -/
  load : String → Except StdException Node
  /-- `ss << node`, the text that ends up in the stream. -/
  emit : Node → String
  /-- The number a map key converts to when the map is indexed with a `size_t`. -/
  keyIndex : String → Option ℕ
  /-- The text a null node converts to; in some versions it does not convert. -/
  nullText : Option String

/-- Loading an emitted node gives back the same tree. -/
def YamlCpp.LoadEmit (Y : YamlCpp) : Prop := ∀ n, Y.load (Y.emit n) = .ok n

/-- `ss << node` for a node declared in the function: it prints nothing while nothing was put into
    it. -/
def YamlCpp.printLocal (Y : YamlCpp) : Node → String
  | .null => ""
  | node => Y.emit node

/-- Loading what is printed of such a node gives back the same tree. -/
def YamlCpp.LoadPrint (Y : YamlCpp) : Prop := ∀ n, Y.load (Y.printLocal n) = .ok n

theorem YamlCpp.LoadEmit.loadPrint {Y : YamlCpp} (hY : Y.LoadEmit)
    (hempty : Y.load "" = .ok .null) : Y.LoadPrint := by
  intro node
  cases node with
  | null => exact hempty
  | _ => exact hY _

namespace Node

/-! ## Reading -/

def isScalar : Node → Bool
  | .scalar _ => true
  | _ => false

/-- `node.size()`: scalars and null have no elements. -/
def size : Node → ℕ
  | .seq items => items.length
  | .map pairs => pairs.length
  | _ => 0

/-- `node.Scalar()`, the empty string for anything but a scalar. -/
def scalarText : Node → String
  | .scalar text => text
  | _ => ""

/-- `node[key]` read with a string key. Indexing a scalar throws; every other node without the key
    yields an undefined node. -/
def get (n : Option Node) (key : String) : Except StdException (Option Node) :=
  match n with
  | some (.scalar _) => .error .badSubscript
  | some (.map pairs) => .ok ((pairs.find? (fun p => p.1 = key)).map Prod.snd)
  | _ => .ok none

/-- `node[i]` read with a `size_t`. A map is searched for a key that converts to `i`. -/
def getIdx (Y : YamlCpp) (n : Option Node) (i : ℕ) : Except StdException (Option Node) :=
  match n with
  | some (.scalar _) => .error .badSubscript
  | some (.seq items) => .ok items[i]?
  | some (.map pairs) => .ok ((pairs.find? (fun p => Y.keyIndex p.1 = some i)).map Prod.snd)
  | _ => .ok none

/-- `node.as<std::string>()`; whether null converts depends on the version. -/
def asString (Y : YamlCpp) : Option Node → Except StdException String
  | some (.scalar text) => .ok text
  | some .null => Y.nullText.elim (.error .badConversion) .ok
  | _ => .error .badConversion

/-! ## Building -/

/-- `node[key] = v`. A null node becomes a map, a sequence a map from its indices. -/
def set (n : Node) (key : String) (v : Node) : Except StdException Node :=
  let put (pairs : List (String × Node)) : Node :=
    if pairs.any (fun p => p.1 = key) then
      .map (pairs.map fun p => if p.1 = key then (key, v) else p)
    else .map (pairs ++ [(key, v)])
  match n with
  | .null => .ok (put [])
  | .scalar _ => .error .badSubscript
  | .seq items => .ok (put (items.zipIdx.map fun p => (toString p.2, p.1)))
  | .map pairs => .ok (put pairs)

/-- `node.push_back(v)`. A null node becomes a sequence. -/
def pushBack (n v : Node) : Except StdException Node :=
  match n with
  | .null => .ok (.seq [v])
  | .seq items => .ok (.seq (items ++ [v]))
  | _ => .error .badPushback

/-- Setting a key the map does not have appends it. -/
theorem set_map_of_notMem {pairs : List (String × Node)} {key : String} (v : Node)
    (h : ∀ p ∈ pairs, p.1 ≠ key) :
    (Node.map pairs).set key v = .ok (.map (pairs ++ [(key, v)])) := by
  have hany : pairs.any (fun p => p.1 = key) = false := by simpa using h
  simp [set, hany]

/-- Setting the last key of a map again replaces its node. -/
theorem set_map_last {pairs : List (String × Node)} {key : String} (u v : Node)
    (h : ∀ p ∈ pairs, p.1 ≠ key) :
    (Node.map (pairs ++ [(key, u)])).set key v = .ok (.map (pairs ++ [(key, v)])) := by
  have hmap : pairs.map (fun p => if p.1 = key then (key, v) else p) = pairs :=
    (List.map_congr_left fun p hp => if_neg (h p hp)).trans (List.map_id' pairs)
  simp [set, hmap]

theorem get_map (pairs : List (String × Node)) (key : String) :
    get (some (.map pairs)) key = .ok ((pairs.find? (fun p => p.1 = key)).map Prod.snd) := rfl

end Node

/-- A loop over the indices of a sequence that reads each element is a loop over its elements. -/
theorem foldlM_range_getElem? {m : Type → Type} [Monad m] [LawfulMonad m] {α β : Type}
    (f : β → Option α → m β) (l : List α) (init : β) :
    (List.range l.length).foldlM (fun acc i => f acc l[i]?) init =
      l.foldlM (fun acc a => f acc (some a)) init := by
  have hmap : (List.range l.length).map (fun i => l[i]?) = l.map some :=
    List.ext_getElem (by simp) (by simp)
  calc (List.range l.length).foldlM (fun acc i => f acc l[i]?) init
      = ((List.range l.length).map fun i => l[i]?).foldlM f init := List.foldlM_map.symm
    _ = l.foldlM (fun acc a => f acc (some a)) init := by rw [hmap, List.foldlM_map]

/-! ## Sequences built by `push_back` -/

/-- The node that `push_back` makes of a new node: null if nothing was pushed. -/
def Node.ofItems (items : List Node) : Node := if items = [] then .null else .seq items

theorem Node.pushBack_ofItems (items : List Node) (v : Node) :
    (Node.ofItems items).pushBack v = .ok (Node.ofItems (items ++ [v])) := by
  by_cases h : items = [] <;> simp [Node.ofItems, h, Node.pushBack]

/-- A loop that pushes one node for each element. -/
theorem foldlM_pushBack {α : Type} {g : α → Except StdException Node} {node : α → Node} {l : List α}
    (hg : ∀ a ∈ l, g a = .ok (node a)) (items : List Node) :
    l.foldlM (fun n a => do n.pushBack (← g a)) (Node.ofItems items) =
      .ok (Node.ofItems (items ++ l.map node)) := by
  induction l generalizing items with
  | nil => simp [pure, Except.pure]
  | cons a l ih =>
      have hrest := ih (fun b hb => hg b (List.mem_cons_of_mem a hb)) (items ++ [node a])
      rw [← List.append_cons] at hrest
      rw [List.foldlM_cons, hg a List.mem_cons_self]
      show (Node.ofItems items).pushBack (node a) >>= _ = _
      rw [Node.pushBack_ofItems]
      exact hrest

/-- A loop over the indices of such a node that reads each item is a loop over the items. -/
theorem foldlM_range_ofItems (Y : YamlCpp) {α : Type}
    (f : α → Option Node → Except StdException α) (items : List Node) (init : α) :
    (List.range (Node.ofItems items).size).foldlM
        (fun acc i => do f acc (← Node.getIdx Y (some (Node.ofItems items)) i)) init =
      items.foldlM (fun acc n => f acc (some n)) init := by
  by_cases h : items = []
  · simp [h, Node.ofItems, Node.size]
  · rw [Node.ofItems, if_neg h]
    exact foldlM_range_getElem? f items init

/-! ## Maps built by assignment -/

/-- The node that assigning members makes of a new node: null if nothing was assigned. -/
def Node.ofPairs (pairs : List (String × Node)) : Node := if pairs = [] then .null else .map pairs

theorem Node.set_ofPairs {pairs : List (String × Node)} {key : String} (v : Node)
    (h : key ∉ pairs.map Prod.fst) :
    (Node.ofPairs pairs).set key v = .ok (Node.ofPairs (pairs ++ [(key, v)])) := by
  by_cases hnil : pairs = []
  · simp [Node.ofPairs, hnil, Node.set]
  · have hne : ∀ p ∈ pairs, p.1 ≠ key := fun p hp heq => h (heq ▸ List.mem_map_of_mem hp)
    simp [Node.ofPairs, hnil, Node.set_map_of_notMem v hne]

/-- A loop that assigns one member for each element, all with different keys. -/
theorem foldlM_set {α : Type} {key : α → String} {g : α → Except StdException Node}
    {node : α → Node} {l : List α} (hg : ∀ a ∈ l, g a = .ok (node a)) :
    ∀ {pairs : List (String × Node)}, (pairs.map Prod.fst ++ l.map key).Nodup →
      l.foldlM (fun n a => do n.set (key a) (← g a)) (Node.ofPairs pairs) =
        .ok (Node.ofPairs (pairs ++ l.map fun a => (key a, node a))) := by
  induction l with
  | nil => exact fun {pairs} _ => by simp [pure, Except.pure]
  | cons a l ih =>
      intro pairs hnodup
      have hnew : key a ∉ pairs.map Prod.fst := by
        rw [List.nodup_append] at hnodup
        exact fun hin => hnodup.2.2 _ hin _ List.mem_cons_self rfl
      have hkeys : ((pairs ++ [(key a, node a)]).map Prod.fst ++ l.map key).Nodup := by
        simpa using hnodup
      have hrest := ih (fun b hb => hg b (List.mem_cons_of_mem a hb)) hkeys
      rw [← List.append_cons] at hrest
      rw [List.foldlM_cons, hg a List.mem_cons_self]
      show (Node.ofPairs pairs).set (key a) (node a) >>= _ = _
      rw [Node.set_ofPairs (node a) hnew]
      exact hrest

end Ipmsg
