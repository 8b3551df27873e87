import Mathlib.Order.Basic
import Mathlib.Data.List.Basic
import Mathlib.Data.List.Pairwise
import Mathlib.Data.List.Sort
import Mathlib.Order.Defs.LinearOrder

set_option autoImplicit false

/-! # Ordered containers with unique keys

`KeyedSet key` holds elements in strictly increasing order of `key`, so it has at most one element
for each key and iterates in key order. With the identity as key it is an ordered set, with
`Prod.fst` an ordered map (`OrdMap`), and with a field of a record a set of records compared by
that field. Order and uniqueness are carried by the `sorted` field. -/

structure KeyedSet {α κ : Type} [LinearOrder κ] (key : α → κ) where
  elems : List α
  sorted : elems.Pairwise (fun a b => key a < key b)

/-- An ordered map: pairs kept in the order of their first component. -/
abbrev OrdMap (κ β : Type) [LinearOrder κ] := KeyedSet (Prod.fst : κ × β → κ)

namespace KeyedSet

variable {α κ : Type} [LinearOrder κ] {key : α → κ}

/-! ## The list operations -/

/-- Put `a` at its place in a list sorted by `key`; an element with the same key is replaced if
    `overwrite`, and otherwise kept in place of `a`. -/
def upsertList (key : α → κ) (overwrite : Bool) (a : α) : List α → List α
  | [] => [a]
  | b :: l =>
      if key a < key b then a :: b :: l
      else if key b < key a then b :: upsertList key overwrite a l
      else (if overwrite then a else b) :: l

section upsertList
variable {o : Bool} {a b : α} {l : List α}

theorem upsertList_of_lt (h : key a < key b) :
    upsertList key o a (b :: l) = a :: b :: l := by
  simp [upsertList, h]

theorem upsertList_of_gt (h : key b < key a) :
    upsertList key o a (b :: l) = b :: upsertList key o a l := by
  simp [upsertList, h, h.not_gt]

theorem upsertList_of_eq (h : key a = key b) :
    upsertList key o a (b :: l) = (if o then a else b) :: l := by
  simp [upsertList, h]

theorem eq_or_mem_of_mem_upsertList {c : α} (h : c ∈ upsertList key o a l) : c = a ∨ c ∈ l := by
  induction l with
  | nil => simpa [upsertList] using h
  | cons b l ih =>
      rcases lt_trichotomy (key a) (key b) with hab | hab | hab
      · simpa [upsertList_of_lt hab] using h
      · rw [upsertList_of_eq hab, List.mem_cons] at h
        cases o <;> simp only [List.mem_cons] <;> tauto
      · rw [upsertList_of_gt hab, List.mem_cons] at h
        rcases h with rfl | h
        · exact Or.inr (List.mem_cons_self ..)
        · exact (ih h).imp_right (List.mem_cons_of_mem _)

theorem upsertList_sorted (h : l.Pairwise fun a b => key a < key b) :
    (upsertList key o a l).Pairwise fun a b => key a < key b := by
  induction l with
  | nil => simp [upsertList]
  | cons b l ih =>
      obtain ⟨hb, hl⟩ := List.pairwise_cons.1 h
      rcases lt_trichotomy (key a) (key b) with hab | hab | hab
      · rw [upsertList_of_lt hab]
        refine List.pairwise_cons.2 ⟨fun c hc => ?_, h⟩
        rcases List.mem_cons.1 hc with rfl | hc
        · exact hab
        · exact hab.trans (hb c hc)
      · rw [upsertList_of_eq hab]
        refine List.pairwise_cons.2 ⟨fun c hc => ?_, hl⟩
        cases o
        · exact hb c hc
        · exact hab ▸ hb c hc
      · rw [upsertList_of_gt hab]
        refine List.pairwise_cons.2 ⟨fun c hc => ?_, ih hl⟩
        rcases eq_or_mem_of_mem_upsertList hc with rfl | hc
        · exact hab
        · exact hb c hc

theorem find?_upsertList_self (h : l.Pairwise fun a b => key a < key b) :
    (upsertList key o a l).find? (fun b => key b = key a) =
      some (if o then a else (l.find? (fun b => key b = key a)).getD a) := by
  induction l with
  | nil => simp [upsertList]
  | cons b l ih =>
      obtain ⟨hb, hl⟩ := List.pairwise_cons.1 h
      rcases lt_trichotomy (key a) (key b) with hab | hab | hab
      · -- every key of the list is larger, so the list holds none equal to `key a`
        have hnone : (b :: l).find? (fun b => key b = key a) = none := by
          rw [List.find?_eq_none]
          intro c hc
          rcases List.mem_cons.1 hc with rfl | hc
          · simpa using hab.ne'
          · simpa using (hab.trans (hb c hc)).ne'
        simp [upsertList_of_lt hab, hnone]
      · cases o <;> simp [upsertList_of_eq hab, hab]
      · simp [upsertList_of_gt hab, hab.ne, ih hl]

theorem find?_upsertList_of_ne {k : κ} (hk : key a ≠ k) :
    (upsertList key o a l).find? (fun b => key b = k) = l.find? (fun b => key b = k) := by
  induction l with
  | nil => simp [upsertList, hk]
  | cons b l ih =>
      rcases lt_trichotomy (key a) (key b) with hab | hab | hab
      · simp [upsertList_of_lt hab, hk]
      · cases o <;> simp [upsertList_of_eq hab, hk, hab ▸ hk]
      · simp [upsertList_of_gt hab, List.find?_cons, ih]

end upsertList

/-! ## The operations on sets -/

@[ext] theorem ext {s t : KeyedSet key} (h : s.elems = t.elems) : s = t := by
  cases s; cases t; cases h; rfl

instance [DecidableEq α] : DecidableEq (KeyedSet key) := fun s t =>
  decidable_of_iff (s.elems = t.elems) ⟨ext, fun h => h ▸ rfl⟩

instance : EmptyCollection (KeyedSet key) := ⟨⟨[], List.Pairwise.nil⟩⟩

instance : Membership α (KeyedSet key) := ⟨fun s a => a ∈ s.elems⟩

instance [DecidableEq α] (s : KeyedSet key) (a : α) : Decidable (a ∈ s) :=
  inferInstanceAs (Decidable (a ∈ s.elems))

/-- The element with key `k`. -/
def find? (s : KeyedSet key) (k : κ) : Option α := s.elems.find? (fun a => key a = k)

/-- Add `a` unless its key is taken (`std::set::insert`, `std::map::insert`). -/
def insert (s : KeyedSet key) (a : α) : KeyedSet key :=
  ⟨upsertList key false a s.elems, upsertList_sorted s.sorted⟩

/-- Make `a` the element of its key (`m[k] = v` on a `std::map`). -/
def assign (s : KeyedSet key) (a : α) : KeyedSet key :=
  ⟨upsertList key true a s.elems, upsertList_sorted s.sorted⟩

/-- Remove the element with key `k`, if there is one. -/
def erase (s : KeyedSet key) (k : κ) : KeyedSet key :=
  ⟨s.elems.filter (fun a => key a ≠ k), s.sorted.filter _⟩

/-- The elements that satisfy `p`. -/
def filter (s : KeyedSet key) (p : α → Bool) : KeyedSet key := ⟨s.elems.filter p, s.sorted.filter p⟩

theorem mem_def {s : KeyedSet key} {a : α} : a ∈ s ↔ a ∈ s.elems := Iff.rfl

@[simp] theorem elems_empty : (∅ : KeyedSet key).elems = [] := rfl

@[simp] theorem notMem_empty (a : α) : a ∉ (∅ : KeyedSet key) := List.not_mem_nil

theorem mem_filter {s : KeyedSet key} {p : α → Bool} {a : α} : a ∈ s.filter p ↔ a ∈ s ∧ p a :=
  List.mem_filter

/-- Two sets with the same elements are the same. -/
theorem ext_mem {s t : KeyedSet key} (h : ∀ a, a ∈ s ↔ a ∈ t) : s = t := by
  have hirrefl : Std.Irrefl fun a b : α => key a < key b := ⟨fun a => lt_irrefl (key a)⟩
  have hantisymm : Std.Antisymm fun a b : α => key a < key b :=
    ⟨fun a b hab hba => absurd hba hab.asymm⟩
  exact ext (s.sorted.eq_of_mem_iff t.sorted h)

theorem eq_of_key_eq {s : KeyedSet key} {a b : α} (ha : a ∈ s) (hb : b ∈ s)
    (h : key a = key b) : a = b := by
  have hpw : s.elems.Pairwise fun a b => key a ≠ key b := s.sorted.imp ne_of_lt
  have hsymm : Std.Symm fun a b : α => key a ≠ key b := ⟨fun _ _ => Ne.symm⟩
  by_contra hne
  exact hpw.forall ha hb hne h

theorem find?_eq_some {s : KeyedSet key} {k : κ} {a : α} :
    s.find? k = some a ↔ a ∈ s ∧ key a = k := by
  constructor
  · intro h
    exact ⟨List.mem_of_find?_eq_some h, by simpa using List.find?_some h⟩
  · rintro ⟨ha, rfl⟩
    cases hf : s.find? (key a) with
    | none => exact absurd (List.find?_eq_none.1 hf a ha) (by simp)
    | some b =>
        have hb : b ∈ s := List.mem_of_find?_eq_some hf
        have hk : key b = key a := by simpa using List.find?_some hf
        rw [eq_of_key_eq hb ha hk]

theorem find?_eq_none {s : KeyedSet key} {k : κ} :
    s.find? k = none ↔ ∀ a ∈ s, key a ≠ k := by
  simp [find?, mem_def]

theorem find?_of_mem {s : KeyedSet key} {a : α} (h : a ∈ s) : s.find? (key a) = some a :=
  find?_eq_some.2 ⟨h, rfl⟩

/-- At most one element has a given key. -/
theorem filter_key_eq (s : KeyedSet key) (k : κ) :
    s.elems.filter (fun a => key a = k) = (s.find? k).toList := by
  obtain ⟨l, hl⟩ := s
  show l.filter (fun a => key a = k) = (l.find? fun a => key a = k).toList
  induction l with
  | nil => rfl
  | cons a l ih =>
      obtain ⟨ha, hl⟩ := List.pairwise_cons.1 hl
      by_cases hk : key a = k
      · have hnil : l.filter (fun b => key b = k) = [] := by
          refine List.filter_eq_nil_iff.2 fun b hb => ?_
          simpa using (hk ▸ ha b hb).ne'
        simp [hk, hnil]
      · simpa [hk] using ih hl

theorem find?_insert (s : KeyedSet key) (a : α) (k : κ) :
    (s.insert a).find? k = if key a = k then some ((s.find? k).getD a) else s.find? k := by
  split_ifs with h
  · subst h
    exact find?_upsertList_self s.sorted
  · exact find?_upsertList_of_ne h

theorem find?_assign (s : KeyedSet key) (a : α) (k : κ) :
    (s.assign a).find? k = if key a = k then some a else s.find? k := by
  split_ifs with h
  · subst h
    exact find?_upsertList_self s.sorted
  · exact find?_upsertList_of_ne h

/-- Of several elements with one key the first is inserted, unless the key is taken before. -/
theorem find?_foldl_insert (k : κ) {l : List α} : ∀ s : KeyedSet key,
    (l.foldl insert s).find? k = (s.find? k).or (l.find? fun a => key a = k) := by
  induction l with
  | nil => exact fun s => (Option.or_none).symm
  | cons a l ih =>
      intro s
      rw [List.foldl_cons, ih, find?_insert]
      by_cases hk : key a = k
      · cases s.find? k <;> simp [hk]
      · simp [hk]

/-- What a set built from a list is: the first elements of their keys. -/
theorem foldl_insert_eq_iff {l : List α} {s : KeyedSet key} :
    l.foldl insert (∅ : KeyedSet key) = s ↔
      ∀ a, a ∈ s ↔ l.find? (fun b => key b = key a) = some a := by
  have hmem : ∀ a, a ∈ l.foldl insert (∅ : KeyedSet key) ↔
      l.find? (fun b => key b = key a) = some a := by
    intro a
    have hfind := find?_foldl_insert (key a) (l := l) (∅ : KeyedSet key)
    rw [find?_eq_none.2 fun b hb => absurd hb (notMem_empty b), Option.none_or] at hfind
    rw [← hfind, find?_eq_some]
    exact (and_iff_left rfl).symm
  constructor
  · rintro rfl
    exact hmem
  · exact fun h => ext_mem fun a => (hmem a).trans (h a).symm

theorem mem_insert_self_or {s : KeyedSet key} {a b : α} (h : b ∈ s.insert a) : b = a ∨ b ∈ s :=
  eq_or_mem_of_mem_upsertList h

theorem mem_insert_of_find?_eq_none {s : KeyedSet key} {a b : α} (h : s.find? (key a) = none) :
    b ∈ s.insert a ↔ b = a ∨ b ∈ s := by
  refine ⟨mem_insert_self_or, ?_⟩
  rintro (rfl | hb)
  · have hf := find?_insert s b (key b)
    rw [if_pos rfl, h] at hf
    exact (find?_eq_some.1 hf).1
  · have hk : key a ≠ key b := fun hk => find?_eq_none.1 h b hb hk.symm
    have hf := find?_insert s a (key b)
    rw [if_neg hk, find?_of_mem hb] at hf
    exact (find?_eq_some.1 hf).1

theorem mem_assign {s : KeyedSet key} {a b : α} :
    b ∈ s.assign a ↔ b = a ∨ (b ∈ s ∧ key b ≠ key a) := by
  have h := find?_assign s a (key b)
  constructor
  · intro hb
    rw [find?_of_mem hb] at h
    split_ifs at h with hk
    · exact Or.inl (Option.some.inj h)
    · exact Or.inr ⟨(find?_eq_some.1 h.symm).1, Ne.symm hk⟩
  · rintro (rfl | ⟨hb, hk⟩)
    · exact (find?_eq_some.1 (h.trans (if_pos rfl))).1
    · rw [if_neg (Ne.symm hk), find?_of_mem hb] at h
      exact (find?_eq_some.1 h).1

theorem mem_erase {s : KeyedSet key} {k : κ} {a : α} : a ∈ s.erase k ↔ a ∈ s ∧ key a ≠ k := by
  simp [erase, mem_def]

theorem upsertList_of_forall_lt {o : Bool} {a : α} {l : List α} (h : ∀ b ∈ l, key b < key a) :
    upsertList key o a l = l ++ [a] := by
  induction l with
  | nil => rfl
  | cons b l ih =>
      rw [upsertList_of_gt (h b (List.mem_cons_self ..)),
        ih fun c hc => h c (List.mem_cons_of_mem _ hc), List.cons_append]

theorem upsertList_perm {o : Bool} {a : α} {l : List α} (h : ∀ b ∈ l, key b ≠ key a) :
    (upsertList key o a l).Perm (a :: l) := by
  induction l with
  | nil => exact .refl [a]
  | cons b l ih =>
      obtain ⟨hb, hl⟩ := List.forall_mem_cons.1 h
      rcases hb.lt_or_gt with hba | hab
      · rw [upsertList_of_gt hba]
        exact ((ih hl).cons b).trans (.swap a b l)
      · rw [upsertList_of_lt hab]

/-- Assigning to a new key adds one element. -/
theorem assign_perm {s : KeyedSet key} {a : α} (h : ∀ b ∈ s.elems, key b ≠ key a) :
    (s.assign a).elems.Perm (a :: s.elems) := upsertList_perm h

/-- Inserting a sorted list, all of whose keys lie above the set, appends it. -/
theorem elems_foldl_insert {l : List α} (hl : l.Pairwise fun a b => key a < key b) :
    ∀ s : KeyedSet key, (∀ a ∈ s.elems, ∀ b ∈ l, key a < key b) →
      (l.foldl insert s).elems = s.elems ++ l := by
  induction l with
  | nil => intro s _; simp
  | cons b l ih =>
      intro s hs
      obtain ⟨hb, hl⟩ := List.pairwise_cons.1 hl
      have hins : (s.insert b).elems = s.elems ++ [b] :=
        upsertList_of_forall_lt fun a ha => hs a ha b (List.mem_cons_self ..)
      rw [List.foldl_cons, ih hl (s.insert b) ?_, hins, List.append_assoc, List.singleton_append]
      intro a ha c hc
      rw [hins, List.mem_append, List.mem_singleton] at ha
      rcases ha with ha | rfl
      · exact hs a ha c (List.mem_cons_of_mem _ hc)
      · exact hb c hc

end KeyedSet
