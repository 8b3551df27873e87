import Mathlib.Data.Multiset.MapFold
import Mathlib.Data.Multiset.Filter
import Ipmsg.Config.Containers
import Ipmsg.YamlFlow

set_option autoImplicit false

/-! # Round trips of containers

What a container prints is loaded as the sequence or the map of the nodes its elements load as, or
as null if there are none, on every level of nesting. So a container comes back if its elements do,
where coming back is up to `operator==`: an unordered container may visit its elements in another
order afterwards. -/

namespace Ipmsg

/-- A type with what its `operator==` compares, and its conversions. -/
structure ConfigType where
  T : Type
  Content : Type
  content : T → Content
  decEq : DecidableEq Content
  casts : LexicalCasts T

namespace ConfigType

instance (c : ConfigType) : DecidableEq c.Content := c.decEq

instance (c : ConfigType) : BEq c.T := ⟨fun a b => decide (c.content a = c.content b)⟩

/-- Every value comes back from the text of the node its own text is loaded as. -/
def RoundTrips (Y : YamlCpp) (c : ConfigType) : Prop :=
  ∀ x, ∃ text node y, c.casts.toStr x = .ok text ∧ Y.load text = .ok node ∧
    c.casts.fromStr (Y.emit node) = .ok y ∧ c.content y = c.content x

/-- Every value comes back from its own text. -/
def ReadsBack (c : ConfigType) : Prop :=
  ∀ x, ∃ text y, c.casts.toStr x = .ok text ∧ c.casts.fromStr text = .ok y ∧
    c.content y = c.content x

/-- Every value is printed as a node, and comes back from any text that is loaded as this node. -/
def PrintsNodes (Y : YamlCpp) (c : ConfigType) : Prop :=
  ∀ x, ∃ node y, c.casts.toStr x = .ok (Y.printLocal node) ∧
    (∀ text, Y.load text = .ok node → c.casts.fromStr text = .ok y) ∧ c.content y = c.content x

end ConfigType

section
variable {Y : YamlCpp} (hY : Y.LoadEmit) (hempty : Y.load "" = .ok .null)
include hY hempty

theorem ConfigType.PrintsNodes.roundTrips {c : ConfigType} (h : c.PrintsNodes Y) :
    c.RoundTrips Y := by
  intro x
  obtain ⟨node, y, htext, hread, hy⟩ := h x
  exact ⟨_, node, y, htext, hY.loadPrint hempty node, hread _ (hY node), hy⟩

theorem ConfigType.PrintsNodes.readsBack {c : ConfigType} (h : c.PrintsNodes Y) : c.ReadsBack := by
  intro x
  obtain ⟨node, y, htext, hread, hy⟩ := h x
  exact ⟨_, y, htext, hread _ (hY.loadPrint hempty node), hy⟩

end

/-! ## The loops -/

section
variable {Y : YamlCpp} {T : Type}

/-- Elements whose texts are loaded as nodes are printed as the sequence of these nodes. -/
theorem itemsToString_eq {toStr : T → Except StdException String} {node : T → Node} {items : List T}
    (h : ∀ i ∈ items, (do Y.load (← toStr i)) = .ok (node i)) :
    itemsToString Y toStr items = .ok (Y.printLocal (Node.ofItems (items.map node))) := by
  have hpass : (fun (n : Node) (i : T) =>
        (do n.pushBack (← Y.load (← toStr i)) : Except StdException Node)) =
      fun n i => (do n.pushBack (← (do Y.load (← toStr i)))) := by
    funext n i
    exact (bind_assoc _ _ _).symm
  have hloop := foldlM_pushBack h []
  rw [Node.ofItems, if_pos rfl] at hloop
  unfold itemsToString
  rw [hpass, hloop]
  rfl

/-- A sequence is read element by element. -/
theorem itemsOfString_eq {C : Type} {fromStr : String → Except StdException T} {node : T → Node}
    {back : T → T} {items : List T} (h : ∀ i ∈ items, fromStr (Y.emit (node i)) = .ok (back i))
    (insert : C → T → C) (empty : C) {text : String}
    (htext : Y.load text = .ok (Node.ofItems (items.map node))) :
    itemsOfString Y fromStr insert empty text = .ok ((items.map back).foldl insert empty) := by
  have hloop := foldlM_range_ofItems Y
    (fun (vec : C) item => (do return insert vec (← fromStr (Y.printItem item))))
    (items.map node) empty
  unfold itemsOfString
  rw [htext]
  refine hloop.trans ?_
  rw [List.foldlM_map, List.foldl_map]
  refine foldlM_ok (fun vec i hi => ?_) empty
  rw [YamlCpp.printItem, h i hi]
  rfl

/-- The same for maps, whose keys are stored as scalars. -/
theorem pairsToString_eq {toStr : T → Except StdException String} {node : T → Node}
    {pairs : List (String × T)}
    (h : ∀ i ∈ pairs, (do Y.load (← toStr i.2)) = .ok (node i.2))
    (hkeys : (pairs.map Prod.fst).Nodup) :
    pairsToString Y toStr pairs =
      .ok (Y.printLocal (Node.ofPairs (pairs.map fun i => (i.1, node i.2)))) := by
  have hpass : (fun (n : Node) (i : String × T) =>
        (do n.set i.1 (← Y.load (← toStr i.2)) : Except StdException Node)) =
      fun n i => (do n.set i.1 (← (do Y.load (← toStr i.2)))) := by
    funext n i
    exact (bind_assoc _ _ _).symm
  have hloop : pairs.foldlM (fun n i => (do n.set i.1 (← (do Y.load (← toStr i.2)))))
      (Node.ofPairs []) = .ok (Node.ofPairs ([] ++ pairs.map fun i => (i.1, node i.2))) :=
    foldlM_set h hkeys
  rw [Node.ofPairs, if_pos rfl] at hloop
  unfold pairsToString
  rw [hpass, hloop]
  rfl

/-- A map is read pair by pair. -/
theorem pairsOfString_eq {C : Type} {fromStr : String → Except StdException T} {node : T → Node}
    {back : T → T} {pairs : List (String × T)}
    (h : ∀ i ∈ pairs, fromStr (Y.emit (node i.2)) = .ok (back i.2))
    (insert : C → String × T → C) (empty : C) {text : String}
    (htext : Y.load text = .ok (Node.ofPairs (pairs.map fun i => (i.1, node i.2)))) :
    pairsOfString Y fromStr insert empty text =
      .ok ((pairs.map fun i => (i.1, back i.2)).foldl insert empty) := by
  unfold pairsOfString
  rw [htext]
  by_cases hnil : pairs = []
  · simp [hnil, Node.ofPairs, bind, Except.bind, pure, Except.pure]
  · have hne : pairs.map (fun i => (i.1, node i.2)) ≠ [] := by simpa using hnil
    rw [Node.ofPairs, if_neg hne]
    show (pairs.map fun i => (i.1, node i.2)).foldlM _ empty = _
    rw [List.foldlM_map, List.foldl_map]
    refine foldlM_ok (fun vec i hi => ?_) empty
    rw [h i hi]
    rfl

end

/-- The elements that come back are pairwise as the ones that were printed. -/
theorem items_printed {Y : YamlCpp} {c : ConfigType} (hc : c.RoundTrips Y) (items : List c.T) :
    ∃ (node : Node) (ys : List c.T), itemsToString Y c.casts.toStr items =
        .ok (Y.printLocal node) ∧
      ys.map c.content = items.map c.content ∧
      ∀ {C : Type} (insert : C → c.T → C) (empty : C) (text : String), Y.load text = .ok node →
        itemsOfString Y c.casts.fromStr insert empty text = .ok (ys.foldl insert empty) := by
  choose text node back htext hnode hback hcontent using hc
  have hload : ∀ i ∈ items, (do Y.load (← c.casts.toStr i)) = .ok (node i) := by
    intro i _
    rw [htext]
    exact hnode i
  refine ⟨Node.ofItems (items.map node), items.map back, itemsToString_eq hload, ?_, ?_⟩
  · rw [List.map_map]
    exact List.map_congr_left fun i _ => hcontent i
  · exact fun insert empty t ht => itemsOfString_eq (fun i _ => hback i) insert empty ht

/-- The same for maps; the keys come back as they were. -/
theorem pairs_printed {Y : YamlCpp} {c : ConfigType} (hc : c.RoundTrips Y)
    {pairs : List (String × c.T)} (hkeys : (pairs.map Prod.fst).Nodup) :
    ∃ (node : Node) (ys : List (String × c.T)),
      pairsToString Y c.casts.toStr pairs = .ok (Y.printLocal node) ∧
      ys.map (Prod.map id c.content) = pairs.map (Prod.map id c.content) ∧
      ∀ {C : Type} (insert : C → String × c.T → C) (empty : C) (text : String),
        Y.load text = .ok node →
        pairsOfString Y c.casts.fromStr insert empty text = .ok (ys.foldl insert empty) := by
  choose text node back htext hnode hback hcontent using hc
  have hload : ∀ i ∈ pairs, (do Y.load (← c.casts.toStr i.2)) = .ok (node i.2) := by
    intro i _
    rw [htext]
    exact hnode i.2
  refine ⟨Node.ofPairs (pairs.map fun i => (i.1, node i.2)), pairs.map fun i => (i.1, back i.2),
    pairsToString_eq hload hkeys, ?_, ?_⟩
  · rw [List.map_map]
    exact List.map_congr_left fun i _ => Prod.ext rfl (hcontent i.2)
  · exact fun insert empty t ht => pairsOfString_eq (fun i _ => hback i.2) insert empty ht

/-! ## The containers as types -/

namespace ConfigType

variable (Y : YamlCpp) (c : ConfigType)

/-- `std::vector<T>`. -/
def vector : ConfigType where
  T := List c.T
  Content := List c.Content
  content := List.map c.content
  decEq := inferInstance
  casts := vectorCasts Y c.casts

/-- `std::list<T>`. -/
def list : ConfigType where
  T := List c.T
  Content := List c.Content
  content := List.map c.content
  decEq := inferInstance
  casts := listCasts Y c.casts

/-- `std::set<T>`, whose `operator<` compares a part of what `operator==` compares. -/
def set {κ : Type} [LinearOrder κ] (key : c.Content → κ) : ConfigType where
  T := KeyedSet fun a => key (c.content a)
  Content := List c.Content
  content s := s.elems.map c.content
  decEq := inferInstance
  casts := setCasts Y (fun a => key (c.content a)) c.casts

/-- `std::unordered_set<T>`. -/
def unorderedSet (H : HashOrder c.T) : ConfigType where
  T := Unordered c.content
  Content := Multiset c.Content
  content s := s.elems.map c.content
  decEq := inferInstance
  casts := unorderedSetCasts Y c.content H c.casts

/-- `std::map<std::string, T>`. -/
def map : ConfigType where
  T := OrdMap String c.T
  Content := List (String × c.Content)
  content m := m.elems.map (Prod.map id c.content)
  decEq := inferInstance
  casts := mapCasts Y c.casts

/-- `std::unordered_map<std::string, T>`. -/
def unorderedMap (H : HashOrder (String × c.T)) : ConfigType where
  T := Unordered (Prod.fst : String × c.T → String)
  Content := Multiset (String × c.Content)
  content m := m.elems.map (Prod.map id c.content)
  decEq := inferInstance
  casts := unorderedMapCasts Y H c.casts

/-- The containers of values of the type `c`. -/
inductive ContainerOf : ConfigType → Prop
  | vector : ContainerOf (c.vector Y)
  | list : ContainerOf (c.list Y)
  | set {κ : Type} [LinearOrder κ] (key : c.Content → κ) : ContainerOf (c.set Y key)
  | unorderedSet (H : HashOrder c.T) : ContainerOf (c.unorderedSet Y H)
  | map : ContainerOf (c.map Y)
  | unorderedMap (H : HashOrder (String × c.T)) : ContainerOf (c.unorderedMap Y H)

/-- The type `c` and all nestings of containers over it. -/
inductive Nesting : ConfigType → Prop
  | base : Nesting c
  | container {d e : ConfigType} : Nesting d → d.ContainerOf Y e → Nesting e

end ConfigType

/-! ## What the decoders build -/

theorem foldl_push {α : Type} (l : List α) : l.foldl (fun vec i => vec ++ [i]) [] = l := by
  have hflat : (l.map fun i => [i]).flatten = l := List.flatMap_singleton' l
  rw [List.foldl_append_eq_append, hflat, List.nil_append]

theorem keys_of_printed {α β : Type} {f : α → β} {ys pairs : List (String × α)}
    (h : ys.map (Prod.map id f) = pairs.map (Prod.map id f)) :
    ys.map Prod.fst = pairs.map Prod.fst := by
  have hfst := congrArg (List.map Prod.fst) h
  rwa [List.map_map, List.map_map] at hfst

section
variable {Y : YamlCpp} {c : ConfigType} (hc : c.RoundTrips Y)
include hc

theorem vector_printsNodes : (c.vector Y).PrintsNodes Y := by
  intro v
  obtain ⟨node, ys, htext, hys, hread⟩ := items_printed hc v
  refine ⟨node, ys, htext, fun text ht => ?_, hys⟩
  have hbuilt := hread (fun vec i => vec ++ [i]) [] text ht
  rwa [foldl_push] at hbuilt

/-- A list is printed and read like a vector. -/
theorem list_printsNodes : (c.list Y).PrintsNodes Y := vector_printsNodes hc

theorem set_printsNodes {κ : Type} [LinearOrder κ] (key : c.Content → κ) :
    (c.set Y key).PrintsNodes Y := by
  intro v
  obtain ⟨node, ys, htext, hys, hread⟩ := items_printed hc v.elems
  -- what comes back is in the same order
  have hsorted : ys.Pairwise fun a b => key (c.content a) < key (c.content b) := by
    have hv : (v.elems.map c.content).Pairwise fun a b => key a < key b :=
      List.pairwise_map.2 v.sorted
    rwa [← hys, List.pairwise_map] at hv
  have hbuilt : (ys.foldl KeyedSet.insert (∅ : KeyedSet fun a => key (c.content a))).elems = ys :=
    KeyedSet.elems_foldl_insert hsorted ∅ (by simp)
  refine ⟨node, ys.foldl KeyedSet.insert (∅ : KeyedSet fun a => key (c.content a)), htext,
    hread KeyedSet.insert ∅, ?_⟩
  exact (congrArg (List.map c.content) hbuilt).trans hys

theorem unorderedSet_printsNodes (H : HashOrder c.T) : (c.unorderedSet Y H).PrintsNodes Y := by
  intro v
  obtain ⟨node, ys, htext, hys, hread⟩ := items_printed hc v.elems
  have hnodup : (((∅ : Unordered c.content).elems ++ ys).map c.content).Nodup := by
    rw [Unordered.elems_empty, List.nil_append, hys]
    exact v.nodup
  have hbuilt := (Unordered.elems_foldl_insert H hnodup).map c.content
  rw [Unordered.elems_empty, List.nil_append, hys] at hbuilt
  refine ⟨node, ys.foldl (Unordered.insert H) (∅ : Unordered c.content), htext,
    hread (Unordered.insert H) ∅, ?_⟩
  exact Multiset.coe_eq_coe.2 hbuilt

theorem map_printsNodes : (c.map Y).PrintsNodes Y := by
  intro v
  have hkeys : (v.elems.map Prod.fst).Nodup := List.pairwise_map.2 (v.sorted.imp ne_of_lt)
  obtain ⟨node, ys, htext, hys, hread⟩ := pairs_printed hc hkeys
  have hsorted : ys.Pairwise fun a b => a.1 < b.1 := by
    have hv : (v.elems.map Prod.fst).Pairwise fun a b => a < b := List.pairwise_map.2 v.sorted
    rwa [← keys_of_printed hys, List.pairwise_map] at hv
  have hbuilt : (ys.foldl KeyedSet.insert (∅ : OrdMap String c.T)).elems = ys :=
    KeyedSet.elems_foldl_insert hsorted ∅ (by simp)
  refine ⟨node, ys.foldl KeyedSet.insert (∅ : OrdMap String c.T), htext,
    hread KeyedSet.insert ∅, ?_⟩
  exact (congrArg (List.map (Prod.map id c.content)) hbuilt).trans hys

theorem unorderedMap_printsNodes (H : HashOrder (String × c.T)) :
    (c.unorderedMap Y H).PrintsNodes Y := by
  intro v
  obtain ⟨node, ys, htext, hys, hread⟩ := pairs_printed hc v.nodup
  have hnodup : (((∅ : Unordered (Prod.fst : String × c.T → String)).elems ++ ys).map
      Prod.fst).Nodup := by
    rw [Unordered.elems_empty, List.nil_append, keys_of_printed hys]
    exact v.nodup
  have hbuilt := (Unordered.elems_foldl_insert H hnodup).map (Prod.map id c.content)
  rw [Unordered.elems_empty, List.nil_append, hys] at hbuilt
  refine ⟨node, ys.foldl (Unordered.insert H) (∅ : Unordered (Prod.fst : String × c.T → String)),
    htext, hread (Unordered.insert H) ∅, ?_⟩
  exact Multiset.coe_eq_coe.2 hbuilt

/-- A container prints nodes if its elements come back. -/
theorem ConfigType.ContainerOf.printsNodes {d : ConfigType} (h : c.ContainerOf Y d) :
    d.PrintsNodes Y := by
  cases h with
  | vector => exact vector_printsNodes hc
  | list => exact list_printsNodes hc
  | set key => exact set_printsNodes hc key
  | unorderedSet H => exact unorderedSet_printsNodes hc H
  | map => exact map_printsNodes hc
  | unorderedMap H => exact unorderedMap_printsNodes hc H

end

/-! ## Nestings -/

/-- A value that comes back equal is not set again: no listener is called. -/
theorem ConfigType.ReadsBack.fromString_toString {c : ConfigType} (h : c.ReadsBack)
    (x : ConfigVar c.T) :
    x.fromString c.casts.fromStr (x.toString c.casts.toStr) = (x, [], false) := by
  obtain ⟨text, y, htext, hread, hy⟩ := h x.m_val
  have hsame : (y == x.m_val) = true := decide_eq_true hy
  unfold ConfigVar.toString
  rw [htext, ConfigVar.fromString_setValue hread, ConfigVar.setValue_same hsame]

/-- **Containers compose.** Let loading undo printing, and let the empty text load as null. If every
value of a type comes back from the text of the node its text is loaded as, then so does every value
of the six containers over it, and also from its own text. So on every nesting of containers over
such a type, `fromString(toString())` leaves a variable as it is. -/
theorem containers_roundTrip {Y : YamlCpp} (hY : Y.LoadEmit) (hempty : Y.load "" = .ok .null)
    {c : ConfigType} (hc : c.RoundTrips Y) :
    (∀ d, c.ContainerOf Y d → d.RoundTrips Y ∧ d.ReadsBack) ∧
    ∀ d e, c.Nesting Y d → d.ContainerOf Y e → e.RoundTrips Y ∧ e.ReadsBack ∧
      ∀ x : ConfigVar e.T,
        x.fromString e.casts.fromStr (x.toString e.casts.toStr) = (x, [], false) := by
  have hstep : ∀ d e : ConfigType, d.RoundTrips Y → d.ContainerOf Y e →
      e.RoundTrips Y ∧ e.ReadsBack := by
    intro d e hd he
    have hprints := ConfigType.ContainerOf.printsNodes hd he
    exact ⟨hprints.roundTrips hY hempty, hprints.readsBack hY hempty⟩
  have hnesting : ∀ d, c.Nesting Y d → d.RoundTrips Y := by
    intro d hd
    induction hd with
    | base => exact hc
    | container _ he ih => exact (hstep _ _ ih he).1
  constructor
  · exact fun d hd => hstep c d hc hd
  · intro d e hd he
    obtain ⟨hround, hreads⟩ := hstep d e (hnesting d hd) he
    exact ⟨hround, hreads, hreads.fromString_toString⟩

/-- `bool`, as `boost::lexical_cast` converts it. -/
def boolType : ConfigType where
  T := Bool
  Content := Bool
  content := id
  decEq := inferInstance
  casts :=
    { toStr := fun b => .ok (if b then "1" else "0")
      fromStr := fun s =>
        if s = "1" then .ok true else if s = "0" then .ok false else .error .badLexicalCast }

/-- What the library prints for the map `{a: [1, 0], b: []}` and its parts, and the empty text. -/
noncomputable def boolYaml : YamlCpp :=
  let a := Node.seq [.scalar "1", .scalar "0"]
  .withTexts [(.scalar "1", "1"), (.scalar "0", "0"), (a, "- 1\n- 0"),
      (.map [("a", a), ("b", .null)], "a:\n  - 1\n  - 0\nb: ~")]
    [("", .null)]

theorem boolYaml_loadEmit : boolYaml.LoadEmit :=
  YamlCpp.withTexts_loadEmit (by simp; decide) (by decide)

theorem boolYaml_load_empty : boolYaml.load "" = .ok .null :=
  YamlCpp.withTexts_load rfl (by decide) rfl

theorem boolType_roundTrips : boolType.RoundTrips boolYaml := by
  intro (b : Bool)
  have hemit : boolYaml.emit (.scalar (if b then "1" else "0")) = if b then "1" else "0" := by
    cases b <;> decide
  have hload := boolYaml_loadEmit (.scalar (if b then "1" else "0"))
  rw [hemit] at hload
  refine ⟨_, _, b, rfl, hload, ?_, rfl⟩
  rw [hemit]
  cases b <;> rfl

/-- A `std::map<std::string, std::vector<bool>>` with an empty vector. -/
theorem containers_roundTrip_sample :
    let e := (boolType.vector boolYaml).map boolYaml
    let x : ConfigVar e.T :=
      { m_name := "flags", m_val := ⟨[("a", [true, false]), ("b", [])], by decide⟩, m_cbs := ∅ }
    x.fromString e.casts.fromStr (x.toString e.casts.toStr) = (x, [], false) := by
  have hall := containers_roundTrip boolYaml_loadEmit boolYaml_load_empty boolType_roundTrips
  exact (hall.2 _ _ (.container .base .vector) .map).2.2 _

end Ipmsg
