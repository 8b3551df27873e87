import Mathlib.Data.List.Nodup
import Mathlib.Data.List.Perm.Basic

set_option autoImplicit false

/-! # Unordered containers with unique keys

The counterpart of `KeyedSet` for hash tables: the elements are visited in an order of the
implementation's own, which may change with every insertion. With the identity as key this is an
unordered set, with `Prod.fst` an unordered map. -/

/-- How an implementation arranges the elements of a table. -/
structure HashOrder (α : Type) where
  arrange : List α → List α
  perm : ∀ l, (arrange l).Perm l

structure Unordered {α κ : Type} (key : α → κ) where
  elems : List α
  nodup : (elems.map key).Nodup

namespace Unordered

variable {α κ : Type} {key : α → κ}

instance : EmptyCollection (Unordered key) := ⟨⟨[], List.nodup_nil⟩⟩

@[simp] theorem elems_empty : (∅ : Unordered key).elems = [] := rfl

variable [DecidableEq κ]

/-- Add `a` unless its key is taken. -/
def insert (H : HashOrder α) (s : Unordered key) (a : α) : Unordered key :=
  if h : key a ∈ s.elems.map key then s
  else ⟨H.arrange (a :: s.elems), by
    have hperm := (H.perm (a :: s.elems)).map key
    exact hperm.nodup_iff.2 (List.nodup_cons.2 ⟨h, s.nodup⟩)⟩

/-- A new key adds one element. -/
theorem elems_insert (H : HashOrder α) {s : Unordered key} {a : α}
    (h : key a ∉ s.elems.map key) : (s.insert H a).elems.Perm (a :: s.elems) := by
  rw [insert, dif_neg h]
  exact H.perm _

/-- An element is there after an insertion if it was before, or was inserted under a new key. -/
theorem mem_insert {H : HashOrder α} {s : Unordered key} {a b : α} :
    b ∈ (s.insert H a).elems ↔ b ∈ s.elems ∨ (key b ∉ s.elems.map key ∧ b = a) := by
  by_cases hin : key a ∈ s.elems.map key
  · rw [insert, dif_pos hin]
    refine ⟨Or.inl, ?_⟩
    rintro (hb | ⟨hnew, rfl⟩)
    · exact hb
    · exact absurd hin hnew
  · rw [(elems_insert H hin).mem_iff, List.mem_cons, or_comm]
    refine or_congr_right ⟨?_, And.right⟩
    rintro rfl
    exact ⟨hin, rfl⟩

theorem mem_keys_insert {H : HashOrder α} {s : Unordered key} {a : α} {k : κ} :
    k ∈ (s.insert H a).elems.map key ↔ k ∈ s.elems.map key ∨ key a = k := by
  by_cases hin : key a ∈ s.elems.map key
  · rw [insert, dif_pos hin]
    refine ⟨Or.inl, ?_⟩
    rintro (hk | rfl)
    · exact hk
    · exact hin
  · rw [((elems_insert H hin).map key).mem_iff, List.map_cons, List.mem_cons, or_comm]
    exact or_congr_right eq_comm

/-- Of several elements with one key the first is inserted, unless the key is taken before. -/
theorem mem_foldl_insert {H : HashOrder α} {b : α} {l : List α} : ∀ {s : Unordered key},
    b ∈ (l.foldl (insert H) s).elems ↔ b ∈ s.elems ∨
      (key b ∉ s.elems.map key ∧ l.find? (fun a => key a = key b) = some b) := by
  induction l with
  | nil => exact fun {s} => by simp
  | cons a l ih =>
      intro s
      rw [List.foldl_cons, ih, mem_insert, mem_keys_insert]
      by_cases hk : key a = key b
      · simp [hk, eq_comm]
      · have hne : b ≠ a := fun heq => hk (congrArg key heq).symm
        simp [hk, hne]

/-- What a container built from a list holds: the first elements of their keys. -/
theorem foldl_insert_perm_iff {H : HashOrder α} {l : List α} {s : Unordered key} :
    (l.foldl (insert H) (∅ : Unordered key)).elems.Perm s.elems ↔
      ∀ a, a ∈ s.elems ↔ l.find? (fun b => key b = key a) = some a := by
  have hmem : ∀ a, a ∈ (l.foldl (insert H) (∅ : Unordered key)).elems ↔
      l.find? (fun b => key b = key a) = some a := by
    intro a
    rw [mem_foldl_insert]
    simp
  have hnodup : ∀ t : Unordered key, t.elems.Nodup := fun t => t.nodup.of_map key
  rw [List.perm_ext_iff_of_nodup (hnodup _) (hnodup s)]
  exact forall_congr' fun a => (iff_congr (hmem a) Iff.rfl).trans iff_comm

/-- Inserting elements with new and different keys adds all of them. -/
theorem elems_foldl_insert (H : HashOrder α) {l : List α} : ∀ {s : Unordered key},
    ((s.elems ++ l).map key).Nodup → (l.foldl (insert H) s).elems.Perm (s.elems ++ l) := by
  induction l with
  | nil => exact fun {s} _ => by simp
  | cons a l ih =>
      intro s hs
      have hnew : key a ∉ s.elems.map key := by
        rw [List.map_append, List.map_cons, List.nodup_append] at hs
        exact fun hin => hs.2.2 _ hin _ List.mem_cons_self rfl
      have hins : ((s.insert H a).elems ++ l).Perm (s.elems ++ a :: l) :=
        ((elems_insert H hnew).append_right l).trans List.perm_middle.symm
      have hrest := ih ((hins.map key).nodup_iff.2 hs)
      exact hrest.trans hins

end Unordered
