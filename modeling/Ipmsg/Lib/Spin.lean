import Ipmsg.Lib.Rely

set_option autoImplicit false

/-! # Spin locks

A lock as a flag that is set while the lock is held. A thread that wants the lock sets the flag and
looks at what it was before; if it was set, the thread tries again. To give the lock back it clears
the flag, whoever has set it. Programs that give back only the locks they hold cannot tell these
locks from those of a `Pool`: whatever a run with flags leads to, a run with locks leads to. -/

/-- The shared state, the flags of the locks, and what each thread has left to do. -/
structure SpinPool (θ L σ : Type) where
  shared : σ
  flag : L → Bool
  prog : θ → Prog L σ Unit

namespace SpinPool

variable {θ L σ : Type}

/-- No thread has started, and no flag is set. -/
def idle (s : σ) : SpinPool θ L σ where
  shared := s
  flag _ := false
  prog _ := .pure ()

section
variable [DecidableEq θ] [DecidableEq L]

/-- A step of one thread. -/
inductive Step (ops : Set (Prog L σ Unit)) : SpinPool θ L σ → SpinPool θ L σ → Prop
  | start {c : SpinPool θ L σ} (t : θ) {p : Prog L σ Unit} :
      c.prog t = .pure () → p ∈ ops →
      Step ops c { c with prog := Function.update c.prog t p }
  | testAndSet {c : SpinPool θ L σ} (t : θ) {l : L} {m : LockMode} {k : Prog L σ Unit} :
      c.prog t = .acquire l m k →
      Step ops c { c with
        flag := Function.update c.flag l true
        prog := Function.update c.prog t (if c.flag l then .acquire l m k else k) }
  | clear {c : SpinPool θ L σ} (t : θ) {l : L} {m : LockMode} {k : Prog L σ Unit} :
      c.prog t = .release l m k →
      Step ops c { c with
        flag := Function.update c.flag l false
        prog := Function.update c.prog t k }
  | access {c : SpinPool θ L σ} (t : θ) {f : σ → σ} {k : σ → Prog L σ Unit} :
      c.prog t = .access f k →
      Step ops c { c with
        shared := f c.shared
        prog := Function.update c.prog t (k c.shared) }

/-- What any number of steps lead to. -/
abbrev Reachable (ops : Set (Prog L σ Unit)) : SpinPool θ L σ → SpinPool θ L σ → Prop :=
  Relation.ReflTransGen (Step ops)

end

/-! ## The simulation -/

/-- The flags that are set are those of the locks that are held, each by one thread and once. -/
structure Refines (c : SpinPool θ L σ) (d : Pool θ L σ) : Prop where
  shared : d.shared = c.shared
  prog : d.prog = c.prog
  flag : ∀ l, c.flag l = true ↔ ∃ t, l ∈ (d.held t).map Prod.fst
  once : ∀ t, ((d.held t).map Prod.fst).Nodup
  apart : ∀ t t', t ≠ t' → ∀ l ∈ (d.held t).map Prod.fst, l ∉ (d.held t').map Prod.fst

variable {c c' : SpinPool θ L σ} {d : Pool θ L σ}

theorem refines_idle (s : σ) : (idle s : SpinPool θ L σ).Refines (Pool.idle s) where
  shared := rfl
  prog := rfl
  flag _ := iff_of_false Bool.false_ne_true fun ⟨_, h⟩ => List.not_mem_nil h
  once _ := List.nodup_nil
  apart _ _ _ _ h := absurd h List.not_mem_nil

variable [DecidableEq θ]

/-- The locks of one thread change. -/
theorem Refines.update (h : c.Refines d) (t : θ) {s : σ} {flag : L → Bool} {p : Prog L σ Unit}
    {held : List (L × LockMode)} (hnodup : (held.map Prod.fst).Nodup)
    (hflag : ∀ l, flag l = true ↔
      l ∈ held.map Prod.fst ∨ ∃ t', t' ≠ t ∧ l ∈ (d.held t').map Prod.fst)
    (hapart : ∀ t', t' ≠ t → ∀ l ∈ held.map Prod.fst, l ∉ (d.held t').map Prod.fst) :
    Refines { shared := s, flag, prog := Function.update c.prog t p }
      { shared := s, prog := Function.update d.prog t p
        held := Function.update d.held t held } where
  shared := rfl
  prog := by rw [h.prog]
  flag l := by
    rw [hflag]
    constructor
    · rintro (hl | ⟨t', hne, hl⟩)
      · exact ⟨t, by simpa using hl⟩
      · exact ⟨t', by simpa [Function.update_of_ne hne] using hl⟩
    · rintro ⟨t', hl⟩
      by_cases hne : t' = t
      · subst hne
        exact Or.inl (by simpa using hl)
      · exact Or.inr ⟨t', hne, by simpa [Function.update_of_ne hne] using hl⟩
  once t' := by
    by_cases hne : t' = t
    · subst hne
      simpa using hnodup
    · simpa [Function.update_of_ne hne] using h.once t'
  apart t₁ t₂ hne l hl := by
    dsimp only at hl ⊢
    by_cases h₁ : t₁ = t
    · subst h₁
      rw [Function.update_self] at hl
      rw [Function.update_of_ne hne.symm]
      exact hapart t₂ hne.symm l hl
    · rw [Function.update_of_ne h₁] at hl
      by_cases h₂ : t₂ = t
      · subst h₂
        rw [Function.update_self]
        exact fun hl' => hapart t₁ h₁ l hl' hl
      · rw [Function.update_of_ne h₂]
        exact h.apart t₁ t₂ hne l hl

variable [DecidableEq L] {ops : Set (Prog L σ Unit)}

/-- A step with flags is a step with locks, or an attempt that fails. -/
theorem Refines.step (h : c.Refines d)
    (hrelease : ∀ t l m k, d.prog t = .release l m k → (l, m) ∈ d.held t) (hstep : Step ops c c') :
    ∃ d', (d' = d ∨ Pool.Step ops d d') ∧ c'.Refines d' := by
  have hfree : ∀ l, c.flag l = false → ∀ t, l ∉ (d.held t).map Prod.fst := by
    intro l hl t hmem
    exact absurd ((h.flag l).2 ⟨t, hmem⟩) (by simp [hl])
  cases hstep with
  | start t hdone hp =>
      have hstart := Pool.Step.start (c := d) t (by rw [h.prog]; exact hdone) hp
      refine ⟨_, Or.inr hstart, ?_⟩
      exact ⟨h.shared, by rw [h.prog], h.flag, h.once, h.apart⟩
  | @testAndSet t l m k hprog =>
      cases hl : c.flag l with
      | true =>
          -- another round of the loop
          have hflag : Function.update c.flag l true = c.flag := by
            rw [← hl, Function.update_eq_self]
          have hsame : Function.update c.prog t (.acquire l m k) = c.prog := by
            rw [← hprog, Function.update_eq_self]
          refine ⟨d, Or.inl rfl, ?_⟩
          rw [if_pos rfl, hflag, hsame]
          exact h
      | false =>
          have hlock : d.Free l m := by
            intro t' e he heq
            exact absurd (heq ▸ List.mem_map_of_mem he) (hfree l hl t')
          refine ⟨_, Or.inr (Pool.Step.acquire t (by rw [h.prog]; exact hprog) hlock), ?_⟩
          rw [if_neg Bool.false_ne_true, h.shared]
          refine h.update t ?_ (fun l' => ?_) fun t' hne l' hl' => ?_
          · exact List.nodup_cons.2 ⟨hfree l hl t, h.once t⟩
          · rw [Function.update_apply, List.map_cons, List.mem_cons]
            split
            · next heq => exact iff_of_true rfl (Or.inl (Or.inl heq))
            · next hne =>
                rw [h.flag, or_iff_right hne]
                constructor
                · rintro ⟨t', ht'⟩
                  by_cases ht : t' = t
                  · exact Or.inl (ht ▸ ht')
                  · exact Or.inr ⟨t', ht, ht'⟩
                · exact fun hor => hor.elim (fun ht => ⟨t, ht⟩) fun ⟨t', _, ht'⟩ => ⟨t', ht'⟩
          · rcases List.mem_cons.1 hl' with rfl | hl'
            · exact hfree _ hl t'
            · exact h.apart t t' hne.symm l' hl'
  | @clear t l m k hprog =>
      have hheld := hrelease t l m k (by rw [h.prog]; exact hprog)
      have hmem : ∀ l', l' ∈ ((d.held t).erase (l, m)).map Prod.fst ↔
          l' ≠ l ∧ l' ∈ (d.held t).map Prod.fst := by
        intro l'
        have hperm := (List.perm_cons_erase hheld).map Prod.fst
        have hnodup := hperm.nodup_iff.1 (h.once t)
        rw [hperm.mem_iff, List.map_cons, List.mem_cons]
        constructor
        · intro hl'
          exact ⟨fun heq => (List.nodup_cons.1 hnodup).1 (heq ▸ hl'), Or.inr hl'⟩
        · exact fun hl' => hl'.2.resolve_left hl'.1
      refine ⟨_, Or.inr (Pool.Step.release t (by rw [h.prog]; exact hprog)), ?_⟩
      rw [h.shared]
      refine h.update t ?_ (fun l' => ?_) fun t' hne l' hl' => ?_
      · exact ((List.erase_sublist).map Prod.fst).nodup (h.once t)
      · rw [Function.update_apply, hmem]
        split
        · next heq =>
            -- nobody else holds it
            refine iff_of_false Bool.false_ne_true ?_
            rintro (⟨hne, -⟩ | ⟨t', hne, ht'⟩)
            · exact hne heq
            · exact h.apart t t' hne.symm l (List.mem_map_of_mem hheld) (heq ▸ ht')
        · next hne =>
            rw [h.flag, and_iff_right hne]
            constructor
            · rintro ⟨t', ht'⟩
              by_cases ht : t' = t
              · exact Or.inl (ht ▸ ht')
              · exact Or.inr ⟨t', ht, ht'⟩
            · exact fun hor => hor.elim (fun ht => ⟨t, ht⟩) fun ⟨t', _, ht'⟩ => ⟨t', ht'⟩
      · exact h.apart t t' hne.symm l' ((hmem l').1 hl').2
  | access t hprog =>
      refine ⟨_, Or.inr (Pool.Step.access t (by rw [h.prog]; exact hprog)), ?_⟩
      rw [h.shared]
      exact ⟨rfl, by rw [h.prog], h.flag, h.once, h.apart⟩

/-- **Flags are locks.** If every program gives back only what it holds, whatever threads that spin
    on flags lead to, threads with locks lead to, and a flag is set while one thread holds the
    lock. -/
theorem refines {D : Discipline L σ} {s : σ} (hinv : ∀ l, D.inv l s)
    (hops : ∀ p ∈ ops, ∀ s', D.guar s s' → p.Obeys D (fun _ h _ => h = []) [] s')
    (hc : Reachable ops (idle s) c) :
    ∃ d, Pool.Reachable ops (Pool.idle s) d ∧ c.Refines d := by
  induction hc with
  | refl => exact ⟨_, .refl, refines_idle s⟩
  | tail _ hstep ih =>
      obtain ⟨d, hd, hrefines⟩ := ih
      have hobeying := Pool.obeying hops hinv hd
      obtain ⟨d', hd', hrefines'⟩ := hrefines.step (fun t l m k hprog => by
        have hobeys := hobeying.obeys t
        rw [hprog] at hobeys
        exact hobeys.1) hstep
      rcases hd' with rfl | hd'
      · exact ⟨d', hd, hrefines'⟩
      · exact ⟨d', hd.tail hd', hrefines'⟩

end SpinPool
