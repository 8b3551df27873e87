import Mathlib.Data.List.Basic
import Mathlib.Data.List.Forall2

set_option autoImplicit false

/-! # Records with terminated fields

A record is written as its fields, each followed by a terminator of its own. Where no field contains
its terminator, the text of any number of records can be cut in one way only; so two texts that
agree were made of the same records, and if one only starts like the other, its records are the
first ones of the other. -/

variable {α : Type}

/-- The text of a record whose fields end with the terminators `ts`. -/
def recordText (ts : List α) (fields : List (List α)) : List α :=
  (List.zipWith (fun t field => field ++ [t]) ts fields).flatten

/-- There is a field for each terminator, which does not contain it. -/
def Delimited (ts : List α) (fields : List (List α)) : Prop :=
  List.Forall₂ (fun t field => t ∉ field) ts fields

section
variable {ts : List α}

/-- The first occurrence of a letter cuts a text in one way. -/
theorem eq_of_append_cons {t : α} {a b u v : List α} (ha : t ∉ a) (hb : t ∉ b)
    (heq : a ++ t :: u = b ++ t :: v) : a = b ∧ u = v := by
  rcases List.append_eq_append_iff.1 heq with ⟨c, rfl, hc⟩ | ⟨c, rfl, hc⟩
  · cases c with
    | nil => simpa using hc
    | cons d c =>
        obtain ⟨rfl, -⟩ := List.cons.inj hc
        exact absurd (by simp) hb
  · cases c with
    | nil => simpa [eq_comm] using hc
    | cons d c =>
        obtain ⟨rfl, -⟩ := List.cons.inj hc
        exact absurd (by simp) ha

/-- So does the last one. -/
theorem eq_of_append_cons_last {t : α} {a b u v : List α} (hu : t ∉ u) (hv : t ∉ v)
    (heq : a ++ t :: u = b ++ t :: v) : a = b ∧ u = v := by
  have hrev := congrArg List.reverse heq
  simp only [List.reverse_append, List.reverse_cons, List.append_assoc, List.singleton_append]
    at hrev
  obtain ⟨htail, hhead⟩ := eq_of_append_cons (fun h => hu (List.mem_reverse.1 h))
    (fun h => hv (List.mem_reverse.1 h)) hrev
  exact ⟨List.reverse_injective hhead, List.reverse_injective htail⟩

theorem recordText_cons (t : α) (ts : List α) (field : List α) (fields : List (List α)) :
    recordText (t :: ts) (field :: fields) = field ++ t :: recordText ts fields := by
  simp [recordText]

/-- A record is cut off in one way only. -/
theorem Delimited.append_inj {r r' : List (List α)} (hr : Delimited ts r) :
    ∀ {x y : List α}, Delimited ts r' → recordText ts r ++ x = recordText ts r' ++ y →
      r = r' ∧ x = y := by
  induction hr generalizing r' with
  | nil =>
      rintro x y ⟨⟩ heq
      exact ⟨rfl, heq⟩
  | @cons t field ts fields ht _ ih =>
      intro x y hr' heq
      cases hr' with
      | @cons _ field' _ fields' ht' hrest =>
          rw [recordText_cons, recordText_cons, List.append_assoc, List.append_assoc,
            List.cons_append, List.cons_append] at heq
          obtain ⟨hfield, htail⟩ := eq_of_append_cons ht ht' heq
          obtain ⟨hfields, hxy⟩ := ih hrest htail
          exact ⟨by rw [hfield, hfields], hxy⟩

theorem recordText_ne_nil (hts : ts ≠ []) {r : List (List α)} (hr : Delimited ts r) :
    recordText ts r ≠ [] := by
  cases hr with
  | nil => exact absurd rfl hts
  | cons _ _ =>
      rw [recordText_cons]
      simp

/-- A text of records that starts like another is made of its first records. -/
theorem prefix_of_recordText_prefix (hts : ts ≠ []) {rs : List (List (List α))}
    (hrs : ∀ r ∈ rs, Delimited ts r) : ∀ {rs' : List (List (List α))},
    (∀ r ∈ rs', Delimited ts r) →
      rs.flatMap (recordText ts) <+: rs'.flatMap (recordText ts) → rs <+: rs' := by
  induction rs with
  | nil => exact fun _ _ => List.nil_prefix
  | cons r rs ih =>
      rintro (_ | ⟨r', rs'⟩) hrs' ⟨rest, heq⟩
      · have hnil := recordText_ne_nil hts (hrs r List.mem_cons_self)
        exact absurd heq (by simp [hnil])
      · rw [List.flatMap_cons, List.flatMap_cons, List.append_assoc] at heq
        obtain ⟨rfl, htail⟩ := (hrs r List.mem_cons_self).append_inj
          (hrs' r' List.mem_cons_self) heq
        exact List.cons_prefix_cons.2 ⟨rfl, ih (fun r hr => hrs r (List.mem_cons_of_mem _ hr))
          (fun r hr => hrs' r (List.mem_cons_of_mem _ hr)) ⟨rest, htail⟩⟩

/-- **Unique reading.** Texts of records that agree are made of the same records. -/
theorem recordText_inj (hts : ts ≠ []) {rs rs' : List (List (List α))}
    (hrs : ∀ r ∈ rs, Delimited ts r) (hrs' : ∀ r ∈ rs', Delimited ts r)
    (heq : rs.flatMap (recordText ts) = rs'.flatMap (recordText ts)) : rs = rs' := by
  have hpre := prefix_of_recordText_prefix hts hrs hrs' (heq ▸ List.prefix_rfl)
  have hpre' := prefix_of_recordText_prefix hts hrs' hrs (heq ▸ List.prefix_rfl)
  exact hpre.eq_of_length (Nat.le_antisymm hpre.length_le hpre'.length_le)

end
