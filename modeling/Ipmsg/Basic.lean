import Mathlib.Data.List.Basic

set_option autoImplicit false

/-! # What the code takes from the C++ standard library

Exceptions derived from `std::exception` are values of `StdException`, thrown as the error of an
`Except`. A `std::string` is a `String`; the character functions are those of the "C" locale, which
leave everything outside ASCII alone. -/

namespace Ipmsg

/-- The exceptions the modelled code throws or lets through; all derive from `std::exception`. -/
inductive StdException
  | invalidArgument (what : String)
  | badLexicalCast
  | badFunctionCall
  | parserException
  | badSubscript
  | badConversion
  | badPushback
  | other (what : String)
  deriving DecidableEq, Repr

/-- The bytes of a `std::string`. -/
def bytes (s : String) : List UInt8 := s.toByteArray.data.toList

/-- `std::transform(.., ::tolower)` over a whole string. -/
def tolower (s : String) : String := String.ofList (s.toList.map Char.toLower)

/-- `s.find_first_not_of(set)`, with `none` for `npos`. -/
def findFirstNotOf (s set : String) : Option ℕ := s.toList.findIdx? fun c => !set.toList.contains c

theorem findFirstNotOf_eq_none {s set : String} :
    findFirstNotOf s set = none ↔ ∀ c ∈ s.toList, c ∈ set.toList := by
  simp [findFirstNotOf]

/-! ## Lists -/

/-- Mapping fixes a list exactly when it fixes every element. -/
theorem map_eq_self_iff {α : Type} {f : α → α} {l : List α} :
    l.map f = l ↔ ∀ a ∈ l, f a = a := by
  have h : l.map f = l.map id ↔ ∀ a ∈ l, f a = id a := List.map_inj_left
  rwa [List.map_id] at h

/-- A list with one more element, as a table. -/
theorem getElem?_concat {α : Type} (l : List α) (a : α) (i : ℕ) :
    (l ++ [a])[i]? = if i = l.length then some a else l[i]? := by
  split_ifs with h
  · rw [h, List.getElem?_concat_length]
  · rcases Nat.lt_or_gt_of_ne h with hlt | hgt
    · exact List.getElem?_append_left hlt
    · have hle : (l ++ [a]).length ≤ i := by
        rw [List.length_append, List.length_singleton]
        omega
      rw [List.getElem?_eq_none hle, List.getElem?_eq_none (Nat.le_of_lt hgt)]

/-! ## Computations that can throw -/

theorem bind_eq_ok {ε α β : Type} {x : Except ε α} {f : α → Except ε β} {b : β} :
    x >>= f = .ok b ↔ ∃ a, x = .ok a ∧ f a = .ok b := by
  cases x <;> simp [bind, Except.bind]

/-- What every pass of a loop preserves holds at its end. -/
theorem foldlM_invariant {ε α β : Type} {P : β → Prop} {f : β → α → Except ε β} {l : List α}
    (hstep : ∀ acc acc' a, a ∈ l → P acc → f acc a = .ok acc' → P acc') :
    ∀ {init r : β}, P init → l.foldlM f init = .ok r → P r := by
  induction l with
  | nil =>
      intro init r hinit h
      exact Except.ok.inj h ▸ hinit
  | cons a l ih =>
      intro init r hinit h
      rw [List.foldlM_cons, bind_eq_ok] at h
      obtain ⟨acc, hacc, h⟩ := h
      exact ih (fun acc acc' b hb => hstep acc acc' b (List.mem_cons_of_mem a hb))
        (hstep init acc a List.mem_cons_self hinit hacc) h

/-- A loop that completes did so in each of its passes. -/
theorem foldlM_passes {ε α β : Type} {f : β → α → Except ε β} {l : List α} :
    ∀ {init r : β}, l.foldlM f init = .ok r → ∀ a ∈ l, ∃ acc acc', f acc a = .ok acc' := by
  induction l with
  | nil => exact fun _ a ha => absurd ha List.not_mem_nil
  | cons b l ih =>
      intro init r h a ha
      rw [List.foldlM_cons, bind_eq_ok] at h
      obtain ⟨acc, hacc, h⟩ := h
      rcases List.mem_cons.1 ha with rfl | ha
      · exact ⟨init, acc, hacc⟩
      · exact ih h a ha

/-- A loop that inserts what each element converts to completes exactly when all of them convert. -/
theorem foldlM_insert_iff {ε α β γ : Type} {f : α → Except ε β} {insert : γ → β → γ} {l : List α} :
    ∀ {init r : γ}, l.foldlM (fun acc a => do return insert acc (← f a)) init = .ok r ↔
      ∃ bs, List.Forall₂ (fun a b => f a = .ok b) l bs ∧ bs.foldl insert init = r := by
  induction l with
  | nil =>
      intro init r
      constructor
      · exact fun h => ⟨[], .nil, Except.ok.inj h⟩
      · rintro ⟨_, ⟨⟩, rfl⟩
        rfl
  | cons a l ih =>
      intro init r
      have hpass : ∀ acc : γ, (do return insert init (← f a)) = Except.ok acc ↔
          ∃ b, f a = .ok b ∧ insert init b = acc := by
        intro acc
        rw [bind_eq_ok]
        simp [pure, Except.pure]
      rw [List.foldlM_cons, bind_eq_ok]
      constructor
      · rintro ⟨acc, hacc, hrest⟩
        obtain ⟨b, hb, rfl⟩ := (hpass acc).1 hacc
        obtain ⟨bs, hbs, hfold⟩ := ih.1 hrest
        exact ⟨b :: bs, .cons hb hbs, hfold⟩
      · rintro ⟨_, hall, hfold⟩
        cases hall with
        | cons hb hbs => exact ⟨_, (hpass _).2 ⟨_, hb, rfl⟩, ih.2 ⟨_, hbs, hfold⟩⟩

/-! ## Loops that do not throw -/

/-- A loop none of whose passes throws is a plain fold. -/
theorem foldlM_ok {α β : Type} {f : β → α → Except StdException β} {g : β → α → β} {l : List α}
    (h : ∀ acc, ∀ a ∈ l, f acc a = .ok (g acc a)) (init : β) :
    l.foldlM f init = .ok (l.foldl g init) := by
  induction l generalizing init with
  | nil => rfl
  | cons a l ih =>
      rw [List.foldlM_cons, h init a (List.mem_cons_self ..)]
      exact ih (fun acc b hb => h acc b (List.mem_cons_of_mem _ hb)) (g init a)

/-- A loop each of whose passes appends one element. -/
theorem foldlM_concat {α β : Type} {f : List β → α → Except StdException (List β)} {g : α → β}
    {l : List α} (h : ∀ acc, ∀ a ∈ l, f acc a = .ok (acc ++ [g a])) (init : List β) :
    l.foldlM f init = .ok (init ++ l.map g) := by
  have hmap : l.map g = (l.map fun a => [g a]).flatten := List.map_eq_flatMap
  rw [foldlM_ok h, List.foldl_append_eq_append, hmap]

end Ipmsg
