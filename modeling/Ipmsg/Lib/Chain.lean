import Mathlib.Data.List.Basic

set_option autoImplicit false

/-! # Chains of changes

A change is a pair (old value, new value). `Chain a cs b` says that the changes `cs` lead from `a`
to `b` without a gap: the first old value is `a`, each later old value is the new value before it,
and `b` is the last new value (or `a` when there was no change). -/

variable {T : Type}

def Chain : T → List (T × T) → T → Prop
  | a, [], b => a = b
  | a, c :: cs, b => c.1 = a ∧ Chain c.2 cs b

@[simp] theorem chain_nil {a b : T} : Chain a [] b ↔ a = b := Iff.rfl

@[simp] theorem chain_cons {a b : T} {c : T × T} {cs : List (T × T)} :
    Chain a (c :: cs) b ↔ c.1 = a ∧ Chain c.2 cs b := Iff.rfl

theorem chain_append {a b : T} {cs ds : List (T × T)} :
    Chain a (cs ++ ds) b ↔ ∃ m, Chain a cs m ∧ Chain m ds b := by
  induction cs generalizing a with
  | nil => simp
  | cons c cs ih => simp [ih, and_assoc]

/-- A chain is extended by a change exactly when that change starts where the chain ends. -/
theorem chain_concat {a b : T} {cs : List (T × T)} {c : T × T} :
    Chain a (cs ++ [c]) b ↔ Chain a cs c.1 ∧ c.2 = b := by
  simp only [chain_append, chain_cons, chain_nil]
  constructor
  · rintro ⟨m, hm, rfl, rfl⟩
    exact ⟨hm, rfl⟩
  · rintro ⟨h, rfl⟩
    exact ⟨_, h, rfl, rfl⟩

/-- The start and the changes determine where a chain ends. -/
theorem Chain.end_unique {a b b' : T} {cs : List (T × T)} (h : Chain a cs b)
    (h' : Chain a cs b') : b = b' := by
  induction cs generalizing a with
  | nil => exact h.symm.trans h'
  | cons c cs ih => exact ih h.2 h'.2
