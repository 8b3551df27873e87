import Ipmsg.Lib.Locks

set_option autoImplicit false

/-! # Programs under interference

What one thread can rely on while others run: every access of theirs changes the shared state only
in the way all threads agree on, and leaves alone what is protected by a lock the thread holds. In
return the accesses of the thread itself do the same, and what it says of a protected part when it
gives the lock back is what the next thread finds. A program that obeys is checked on its own, one
access at a time; `Pool.obeying` then holds of any number of threads in any interleaving. -/

/-- What the threads agree on. -/
structure Discipline (L σ : Type) where
  /-- What an access may do to the state. -/
  guar : σ → σ → Prop
  /-- Two states, one after the other, agree on what the lock protects. -/
  same : L → σ → σ → Prop
  /-- What is true of it while no thread holds the lock exclusively. -/
  inv : L → σ → Prop
  guar_refl : ∀ s, guar s s
  guar_trans : ∀ {s s' s''}, guar s s' → guar s' s'' → guar s s''
  same_refl : ∀ l s, same l s s
  same_trans : ∀ {l s s' s''}, same l s s' → same l s' s'' → same l s s''
  inv_same : ∀ {l s s'}, same l s s' → inv l s → inv l s'

namespace Discipline

variable {L σ : Type} (D : Discipline L σ)

/-- What others may do while a thread holds the locks `h`. -/
def Env (h : List (L × LockMode)) (s s' : σ) : Prop := D.guar s s' ∧ ∀ e ∈ h, D.same e.1 s s'

variable {D} {h : List (L × LockMode)} {s s' s'' : σ}

theorem Env.refl (h : List (L × LockMode)) (s : σ) : D.Env h s s :=
  ⟨D.guar_refl s, fun e _ => D.same_refl e.1 s⟩

theorem Env.trans (h₁ : D.Env h s s') (h₂ : D.Env h s' s'') : D.Env h s s'' :=
  ⟨D.guar_trans h₁.1 h₂.1, fun e he => D.same_trans (h₁.2 e he) (h₂.2 e he)⟩

/-- A thread that holds fewer locks can rely on less. -/
theorem Env.tail {e : L × LockMode} (henv : D.Env (e :: h) s s') : D.Env h s s' :=
  ⟨henv.1, fun e' he' => henv.2 e' (List.mem_cons_of_mem e he')⟩

/-- Others do not make the assertion false. -/
def Stable (D : Discipline L σ) (h : List (L × LockMode)) (P : σ → Prop) : Prop :=
  ∀ s s', P s → D.Env h s s' → P s'

end Discipline

namespace Prog

variable {L σ α β : Type} [DecidableEq L]

/-- From the state `s` on, while others run, the program obeys: it accesses only what it holds the
    locks of, and leaves a part in good order when it gives its lock back. At the end `Q` holds of
    the result, the locks held and the state. -/
def Obeys (D : Discipline L σ) (Q : α → List (L × LockMode) → σ → Prop) :
    Prog L σ α → List (L × LockMode) → σ → Prop
  | pure a, h, s => ∀ s', D.Env h s s' → Q a h s'
  | acquire l m k, h, s => ∀ s', D.Env h s s' → D.inv l s' → k.Obeys D Q ((l, m) :: h) s'
  | release l m k, h, s => (l, m) ∈ h ∧ ∀ s', D.Env h s s' →
      (m = .exclusive → D.inv l s') ∧ k.Obeys D Q (h.erase (l, m)) s'
  | access f k, h, s => ∀ s', D.Env h s s' → D.guar s' (f s') ∧
      (∀ l, (l, .exclusive) ∉ h → D.same l s' (f s')) ∧ (k s').Obeys D Q h (f s')

variable {D : Discipline L σ}

/-- What others do first changes nothing. -/
theorem Obeys.env {Q : α → List (L × LockMode) → σ → Prop} {p : Prog L σ α}
    {h : List (L × LockMode)} {s s' : σ} (hp : p.Obeys D Q h s) (henv : D.Env h s s') :
    p.Obeys D Q h s' := by
  cases p with
  | pure a => exact fun s'' h' => hp s'' (henv.trans h')
  | acquire l m k => exact fun s'' h' => hp s'' (henv.trans h')
  | release l m k => exact ⟨hp.1, fun s'' h' => hp.2 s'' (henv.trans h')⟩
  | access f k => exact fun s'' h' => hp s'' (henv.trans h')

theorem Obeys.bind {Q : β → List (L × LockMode) → σ → Prop} {p : Prog L σ α} {g : α → Prog L σ β}
    {h : List (L × LockMode)} {s : σ} (hp : p.Obeys D (fun a h' s' => (g a).Obeys D Q h' s') h s) :
    (p.bind g).Obeys D Q h s := by
  induction p generalizing h s with
  | pure a => exact hp s (.refl h s)
  | acquire l m k ih => exact fun s' henv hinv => ih (hp s' henv hinv)
  | release l m k ih =>
      refine ⟨hp.1, fun s' henv => ?_⟩
      obtain ⟨hinv, hk⟩ := hp.2 s' henv
      exact ⟨hinv, ih hk⟩
  | access f k ih =>
      intro s' henv
      obtain ⟨hguar, hsame, hk⟩ := hp s' henv
      exact ⟨hguar, hsame, ih s' hk⟩

/-- A weaker end. -/
theorem Obeys.mono {Q Q' : α → List (L × LockMode) → σ → Prop}
    (hQ : ∀ a h s, Q a h s → Q' a h s) {p : Prog L σ α} {h : List (L × LockMode)} {s : σ}
    (hp : p.Obeys D Q h s) : p.Obeys D Q' h s := by
  induction p generalizing h s with
  | pure a => exact fun s' henv => hQ a h s' (hp s' henv)
  | acquire l m k ih => exact fun s' henv hinv => ih (hp s' henv hinv)
  | release l m k ih =>
      refine ⟨hp.1, fun s' henv => ?_⟩
      obtain ⟨hinv, hk⟩ := hp.2 s' henv
      exact ⟨hinv, ih hk⟩
  | access f k ih =>
      intro s' henv
      obtain ⟨hguar, hsame, hk⟩ := hp s' henv
      exact ⟨hguar, hsame, ih s' hk⟩

/-- What every access keeps is still true at the end. -/
theorem Obeys.frame {Q : α → List (L × LockMode) → σ → Prop} {F : σ → Prop}
    (hF : ∀ s s', F s → D.guar s s' → F s') {p : Prog L σ α} {h : List (L × LockMode)} {s : σ}
    (hp : p.Obeys D Q h s) (hs : F s) : p.Obeys D (fun a h' s' => Q a h' s' ∧ F s') h s := by
  induction p generalizing h s with
  | pure a => exact fun s' henv => ⟨hp s' henv, hF s s' hs henv.1⟩
  | acquire l m k ih => exact fun s' henv hinv => ih (hp s' henv hinv) (hF s s' hs henv.1)
  | release l m k ih =>
      refine ⟨hp.1, fun s' henv => ?_⟩
      obtain ⟨hinv, hk⟩ := hp.2 s' henv
      exact ⟨hinv, ih hk (hF s s' hs henv.1)⟩
  | access f k ih =>
      intro s' henv
      obtain ⟨hguar, hsame, hk⟩ := hp s' henv
      exact ⟨hguar, hsame, ih s' hk (hF s' (f s') (hF s s' hs henv.1) hguar)⟩

/-- A program that obeys on a part of the state obeys on all of it, if no lock protects more of the
    part than of the rest. -/
theorem Obeys.zoom {σ' : Type} {part : σ' → σ} {put : σ' → σ → σ'} {D' : Discipline L σ'}
    (hpart : ∀ s x, part (put s x) = x)
    (henv : ∀ {h s s'}, D'.Env h s s' → D.Env h (part s) (part s'))
    (hinv : ∀ {l s}, D'.inv l s → D.inv l (part s))
    (hput : ∀ {s x}, D.guar (part s) x → D'.guar s (put s x) ∧ ∀ l, D'.same l s (put s x))
    {Q : α → List (L × LockMode) → σ → Prop} {p : Prog L σ α} {h : List (L × LockMode)} {s : σ'}
    (hp : p.Obeys D Q h (part s)) (hheld : ∀ e ∈ h, D'.inv e.1 s) :
    (p.zoom part put).Obeys D' (fun a h' s' => Q a h' (part s') ∧ ∀ e ∈ h', D'.inv e.1 s') h s := by
  have hlater : ∀ {h s s'}, D'.Env h s s' → (∀ e ∈ h, D'.inv e.1 s) → ∀ e ∈ h, D'.inv e.1 s' :=
    fun h' hs e he => D'.inv_same (h'.2 e he) (hs e he)
  induction p generalizing h s with
  | pure a => exact fun s' h' => ⟨hp (part s') (henv h'), hlater h' hheld⟩
  | acquire l m k ih =>
      intro s' h' hl
      refine ih (hp (part s') (henv h') (hinv hl)) fun e he => ?_
      rcases List.mem_cons.1 he with rfl | he
      · exact hl
      · exact hlater h' hheld e he
  | release l m k ih =>
      refine ⟨hp.1, fun s' h' => ⟨fun _ => hlater h' hheld _ hp.1, ?_⟩⟩
      have hk := (hp.2 (part s') (henv h')).2
      exact ih hk fun e he => hlater h' hheld e (List.mem_of_mem_erase he)
  | access f k ih =>
      intro s' h'
      obtain ⟨hguar, -, hk⟩ := hp (part s') (henv h')
      obtain ⟨hguar', hsame⟩ := hput hguar
      refine ⟨hguar', fun l _ => hsame l, ih (part s') ?_ fun e he => ?_⟩
      · show (k (part s')).Obeys D Q h (part (put s' (f (part s'))))
        rwa [hpart]
      · exact D'.inv_same (hsame e.1) (hlater h' hheld e he)

/-- A program on a part of the state, where locks protect nothing of the rest. -/
theorem Obeys.part {σ' : Type} {part : σ' → σ} {put : σ' → σ → σ'} {D' : Discipline L σ'}
    (hpart : ∀ s x, part (put s x) = x)
    (henv : ∀ {h s s'}, D'.Env h s s' → D.Env h (part s) (part s'))
    (hinv : ∀ {l s}, D'.inv l s ↔ D.inv l (part s))
    (hguar : ∀ {s x}, D.guar (part s) x → D'.guar s (put s x))
    (hsame : ∀ {l s x}, D.same l (part s) x → D'.same l s (put s x))
    {Q : α → List (L × LockMode) → σ → Prop} {p : Prog L σ α} {h : List (L × LockMode)} {s : σ'}
    (hp : p.Obeys D Q h (part s)) :
    (p.zoom part put).Obeys D' (fun a h' s' => Q a h' (part s')) h s := by
  induction p generalizing h s with
  | pure a => exact fun s' h' => hp (part s') (henv h')
  | acquire l m k ih => exact fun s' h' hl => ih (hp (part s') (henv h') (hinv.1 hl))
  | release l m k ih =>
      refine ⟨hp.1, fun s' h' => ?_⟩
      obtain ⟨hl, hk⟩ := hp.2 (part s') (henv h')
      exact ⟨fun hm => hinv.2 (hl hm), ih hk⟩
  | access f k ih =>
      intro s' h'
      obtain ⟨hg, hs, hk⟩ := hp (part s') (henv h')
      refine ⟨hguar hg, fun l hl => hsame (hs l hl), ih (part s') ?_⟩
      rwa [hpart]

/-! ## Triples -/

/-- Started with the locks `h` where `P` holds, the program obeys and ends with the same locks and
    with `Q`. -/
def Triple (D : Discipline L σ) (h : List (L × LockMode)) (P : σ → Prop) (p : Prog L σ α)
    (Q : α → σ → Prop) : Prop :=
  ∀ s, P s → p.Obeys D (fun a h' s' => h' = h ∧ Q a s') h s

section
variable {h : List (L × LockMode)} {P P' : σ → Prop} {Q Q' : α → σ → Prop}

theorem triple_pure {a : α} (hQ : ∀ s s', P s → D.Env h s s' → Q a s') :
    Triple D h P (Pure.pure a) Q :=
  fun s hs s' henv => ⟨rfl, hQ s s' hs henv⟩

theorem Triple.bind {p : Prog L σ α} {g : α → Prog L σ β} {Q : β → σ → Prop} {R : α → σ → Prop}
    (hp : Triple D h P p R) (hg : ∀ a, Triple D h (R a) (g a) Q) : Triple D h P (p >>= g) Q := by
  refine fun s hs => Obeys.bind ((hp s hs).mono ?_)
  rintro a h' s' ⟨rfl, hR⟩
  exact hg a s' hR

theorem Triple.conseq {p : Prog L σ α} (hp : Triple D h P p Q) (hP : ∀ s, P' s → P s)
    (hQ : ∀ a s, Q a s → Q' a s) : Triple D h P' p Q' :=
  fun s hs => (hp s (hP s hs)).mono fun a _ s' hq => ⟨hq.1, hQ a s' hq.2⟩

/-- What every access keeps. -/
theorem Triple.frame {p : Prog L σ α} {F : σ → Prop} (hF : ∀ s s', F s → D.guar s s' → F s')
    (hp : Triple D h P p Q) :
    Triple D h (fun s => P s ∧ F s) p fun a s => Q a s ∧ F s :=
  fun s hs => ((hp s hs.1).frame hF hs.2).mono fun _ _ _ hq => ⟨hq.1.1, hq.1.2, hq.2⟩

/-- A program on a part of the state, while the locks held protect nothing of the rest. -/
theorem Triple.zoom {σ' : Type} {part : σ' → σ} {put : σ' → σ → σ'} {D' : Discipline L σ'}
    (hpart : ∀ s x, part (put s x) = x)
    (henv : ∀ {h s s'}, D'.Env h s s' → D.Env h (part s) (part s'))
    (hinv : ∀ {l s}, D'.inv l s → D.inv l (part s))
    (hput : ∀ {s x}, D.guar (part s) x → D'.guar s (put s x) ∧ ∀ l, D'.same l s (put s x))
    {p : Prog L σ α} (hheld : ∀ e ∈ h, ∀ s, D'.inv e.1 s) (hp : Triple D h P p Q) :
    Triple D' h (fun s => P (part s)) (p.zoom part put) fun a s => Q a (part s) := by
  intro s hs
  refine ((hp (part s) hs).zoom hpart henv hinv hput fun e he => hheld e he s).mono ?_
  exact fun a h' s' hq => hq.1

/-- A program on a part of the state, where locks protect nothing of the rest. -/
theorem Triple.part {σ' : Type} {part : σ' → σ} {put : σ' → σ → σ'} {D' : Discipline L σ'}
    (hpart : ∀ s x, part (put s x) = x)
    (henv : ∀ {h s s'}, D'.Env h s s' → D.Env h (part s) (part s'))
    (hinv : ∀ {l s}, D'.inv l s ↔ D.inv l (part s))
    (hguar : ∀ {s x}, D.guar (part s) x → D'.guar s (put s x))
    (hsame : ∀ {l s x}, D.same l (part s) x → D'.same l s (put s x)) {p : Prog L σ α}
    (hp : Triple D h P p Q) :
    Triple D' h (fun s => P (part s)) (p.zoom part put) fun a s => Q a (part s) :=
  fun s hs => (hp (part s) hs).part hpart henv hinv hguar hsame

/-- One access, after whatever others have done. -/
theorem triple_access {f : σ → σ} {k : σ → Prog L σ α} {R : σ → σ → Prop}
    (hf : ∀ s s', P s → D.Env h s s' → D.guar s' (f s') ∧
      (∀ l, (l, .exclusive) ∉ h → D.same l s' (f s')) ∧ R s' (f s'))
    (hk : ∀ s, Triple D h (R s) (k s) Q) : Triple D h P (access f k) Q := by
  intro s hs s' henv
  obtain ⟨hguar, hsame, hR⟩ := hf s s' hs henv
  exact ⟨hguar, hsame, hk s' (f s') hR⟩

theorem triple_modify {f : σ → σ} {Q : Unit → σ → Prop}
    (hf : ∀ s s', P s → D.Env h s s' → D.guar s' (f s') ∧
      (∀ l, (l, .exclusive) ∉ h → D.same l s' (f s')) ∧ ∀ s'', D.Env h (f s') s'' → Q () s'') :
    Triple D h P (modify f) Q :=
  triple_access (R := fun _ s => ∀ s'', D.Env h s s'' → Q () s'') hf fun _ =>
    triple_pure fun _ s' hs henv => hs s' henv

/-- A look at the state, where the assertion still holds. -/
theorem triple_get_bind {g : σ → Prog L σ α} (hP : D.Stable h P)
    (hg : ∀ s, P s → Triple D h (D.Env h s) (g s) Q) : Triple D h P (get >>= g) Q := by
  refine triple_access (R := fun s s' => P s ∧ D.Env h s s') (fun s s' hs henv => ?_) fun s => ?_
  · exact ⟨D.guar_refl s', fun l _ => D.same_refl l s', hP s s' hs henv, .refl h s'⟩
  · exact fun s' hs' => hg s hs'.1 s' hs'.2

/-- A scope: the part that the lock protects is found in good order and left so. -/
theorem triple_locked {l : L} {m : LockMode} {body : Prog L σ α} (hP : D.Stable h P)
    (hQ : ∀ a, D.Stable h (Q a))
    (hbody : Triple D ((l, m) :: h) (fun s => P s ∧ D.inv l s) body
      fun a s => (m = .exclusive → D.inv l s) ∧ Q a s) :
    Triple D h P (locked l m body) Q := by
  intro s hs s' henv hinv
  refine Obeys.bind ((hbody s' ⟨hP s s' hs henv, hinv⟩).mono ?_)
  rintro a h' s'' ⟨rfl, hend⟩
  have hmem : (l, m) ∈ (l, m) :: h := List.mem_cons_self
  refine ⟨hmem, fun s₃ h₃ => ⟨fun hm => ?_, fun s₄ h₄ => ?_⟩⟩
  · exact D.inv_same (h₃.2 (l, m) hmem) (hend.1 hm)
  · rw [List.erase_cons_head] at h₄ ⊢
    exact ⟨rfl, hQ a s'' s₄ hend.2 (h₃.tail.trans h₄)⟩

/-- A loop, with what holds after the elements that have been passed. -/
theorem triple_foldlM {γ : Type} {f : β → γ → Prog L σ β} {R : List γ → β → σ → Prop}
    (hR : ∀ before b, D.Stable h (R before b)) {l : List γ}
    (hf : ∀ before c after, l = before ++ c :: after → ∀ b,
      Triple D h (R before b) (f b c) (R (before ++ [c]))) (b : β) :
    Triple D h (R [] b) (l.foldlM f b) (R l) := by
  have hrest : ∀ after before, l = before ++ after → ∀ b,
      Triple D h (R before b) (after.foldlM f b) (R l) := by
    intro after
    induction after with
    | nil =>
        intro before hl b
        rw [List.append_nil] at hl
        exact triple_pure fun s s' hs henv => hR l b s s' (hl ▸ hs) henv
    | cons c after ih =>
        intro before hl b
        rw [List.foldlM_cons]
        exact (hf before c after hl b).bind fun b' => ih (before ++ [c]) (by simp [hl]) b'
  exact hrest l [] rfl b

/-- A loop that keeps an assertion. -/
theorem triple_foldlM_keeps {γ : Type} {f : β → γ → Prog L σ β} {R : β → σ → Prop}
    (hR : ∀ b, D.Stable h (R b)) {l : List γ} (hf : ∀ b, ∀ c ∈ l, Triple D h (R b) (f b c) R)
    (b : β) : Triple D h (R b) (l.foldlM f b) R := by
  refine triple_foldlM (R := fun _ => R) (fun _ => hR) (fun before c after hl b' => ?_) b
  exact hf b' c (hl ▸ List.mem_append_right before List.mem_cons_self)

end

/-! ## Programs that throw -/

section
variable {ε : Type} {h : List (L × LockMode)} {P : σ → Prop}

theorem Triple.bindT {p : ExceptT ε (Prog L σ) α} {g : α → ExceptT ε (Prog L σ) β}
    {R : Except ε α → σ → Prop} {Q : Except ε β → σ → Prop} (hp : Triple D h P p.run R)
    (hg : ∀ a, Triple D h (R (.ok a)) (g a).run Q)
    (herr : ∀ e s s', R (.error e) s → D.Env h s s' → Q (.error e) s') :
    Triple D h P (p >>= g).run Q := by
  refine hp.bind fun x => ?_
  cases x with
  | ok a => exact hg a
  | error e => exact triple_pure (herr e)

theorem triple_lift {p : Prog L σ α} {Q : Except ε α → σ → Prop} (hQ : ∀ x, D.Stable h (Q x))
    (hp : Triple D h P p fun a => Q (.ok a)) :
    Triple D h P (liftM p : ExceptT ε (Prog L σ) α).run Q :=
  hp.bind fun a => triple_pure (hQ (.ok a))

theorem triple_get_bindT {g : σ → ExceptT ε (Prog L σ) α} {Q : Except ε α → σ → Prop}
    (hP : D.Stable h P) (hg : ∀ s, P s → Triple D h (D.Env h s) (g s).run Q) :
    Triple D h P ((liftM (get : Prog L σ σ) : ExceptT ε (Prog L σ) σ) >>= g).run Q :=
  triple_get_bind hP hg

/-- What follows a program that does not throw. -/
theorem triple_lift_bindT {p : Prog L σ α} {g : α → ExceptT ε (Prog L σ) β} {R : α → σ → Prop}
    {Q : Except ε β → σ → Prop} (hR : ∀ a, D.Stable h (R a)) (hp : Triple D h P p R)
    (hg : ∀ a, Triple D h (R a) (g a).run Q) :
    Triple D h P ((liftM p : ExceptT ε (Prog L σ) α) >>= g).run Q := by
  refine Triple.bindT (R := fun x s => ∃ a, x = .ok a ∧ R a s) (triple_lift ?_ ?_) ?_ ?_
  · rintro x s s' ⟨a, hx, hs⟩ henv
    exact ⟨a, hx, hR a s s' hs henv⟩
  · exact hp.conseq (fun _ => id) fun a _ hs => ⟨a, rfl, hs⟩
  · intro a
    refine (hg a).conseq (fun s hs => ?_) fun _ _ => id
    obtain ⟨a', ha, hs⟩ := hs
    exact Except.ok.inj ha ▸ hs
  · rintro e s s' ⟨a, hx, -⟩ -
    exact absurd hx nofun

end

end Prog

/-! ## Threads -/

namespace Pool

variable {θ L σ : Type} [DecidableEq L] {D : Discipline L σ} {s₀ : σ}

/-- No two threads hold a lock in modes that exclude each other, every thread obeys, and what no one
    holds exclusively is in good order. -/
structure Obeying (D : Discipline L σ) (s₀ : σ) (c : Pool θ L σ) : Prop where
  guar : D.guar s₀ c.shared
  apart : ∀ t t', t' ≠ t → ∀ e ∈ c.held t, ∀ e' ∈ c.held t', e.1 = e'.1 → ¬ e.2.Excludes e'.2
  obeys : ∀ t, (c.prog t).Obeys D (fun _ h _ => h = []) (c.held t) c.shared
  inv : ∀ l, (∀ t, (l, .exclusive) ∉ c.held t) → D.inv l c.shared

theorem obeying_idle (hinv : ∀ l, D.inv l s₀) : Obeying D s₀ (idle s₀ : Pool θ L σ) where
  guar := D.guar_refl s₀
  apart _ _ _ _ he := absurd he List.not_mem_nil
  obeys _ _ _ := rfl
  inv l _ := hinv l

section
variable [DecidableEq θ] {c c' : Pool θ L σ}

omit [DecidableEq θ] in
/-- What a thread does is what the others rely on. -/
theorem Obeying.env (hc : c.Obeying D s₀) {t t' : θ} (ht : t' ≠ t) {s : σ}
    (hguar : D.guar c.shared s)
    (hsame : ∀ l, (l, .exclusive) ∉ c.held t → D.same l c.shared s) :
    D.Env (c.held t') c.shared s := by
  refine ⟨hguar, fun e he => hsame e.1 fun hmem => ?_⟩
  exact hc.apart t t' ht _ hmem e he rfl (Or.inl rfl)

omit [DecidableEq θ] in
/-- A lock that is free for a mode is in good order. -/
theorem Obeying.inv_of_free (hc : c.Obeying D s₀) {l : L} {m : LockMode} (hfree : c.Free l m) :
    D.inv l c.shared :=
  hc.inv l fun t hmem => hfree t _ hmem rfl (Or.inr rfl)

/-- Only one thread changes, and what the others hold stays. -/
theorem Obeying.update (hc : c.Obeying D s₀) (t : θ) {p : Prog L σ Unit}
    {h : List (L × LockMode)} (hp : p.Obeys D (fun _ h _ => h = []) h c.shared)
    (hapart : ∀ t' ≠ t, ∀ e ∈ h, ∀ e' ∈ c.held t', e.1 = e'.1 → ¬ e.2.Excludes e'.2)
    (hinv : ∀ l, (l, .exclusive) ∉ h → (∀ t' ≠ t, (l, .exclusive) ∉ c.held t') →
      D.inv l c.shared) :
    Obeying D s₀ { c with
      prog := Function.update c.prog t p
      held := Function.update c.held t h } := by
  refine ⟨hc.guar, fun t₁ t₂ hne e he e' he' => ?_, fun t' => ?_, fun l hl => ?_⟩
  · dsimp only at he he'
    by_cases h₁ : t₁ = t <;> by_cases h₂ : t₂ = t
    · exact absurd (h₂.trans h₁.symm) hne
    · subst h₁
      rw [Function.update_self] at he
      rw [Function.update_of_ne h₂] at he'
      exact hapart t₂ h₂ e he e' he'
    · subst h₂
      rw [Function.update_of_ne h₁] at he
      rw [Function.update_self] at he'
      exact fun heq hex => hapart t₁ h₁ e' he' e he heq.symm hex.symm
    · rw [Function.update_of_ne h₁] at he
      rw [Function.update_of_ne h₂] at he'
      exact hc.apart t₁ t₂ hne e he e' he'
  · dsimp only
    by_cases h' : t' = t
    · subst h'
      rw [Function.update_self, Function.update_self]
      exact hp
    · rw [Function.update_of_ne h', Function.update_of_ne h']
      exact hc.obeys t'
  · refine hinv l ?_ fun t' h' => ?_
    · simpa using hl t
    · simpa [Function.update_of_ne h'] using hl t'

variable {ops : Set (Prog L σ Unit)}
  (hops : ∀ p ∈ ops, ∀ s, D.guar s₀ s → p.Obeys D (fun _ h _ => h = []) [] s)
include hops

theorem Obeying.step (hc : c.Obeying D s₀) (hstep : Step ops c c') : c'.Obeying D s₀ := by
  cases hstep with
  | @start t p hdone hp =>
      have hnone := hc.obeys t
      rw [hdone] at hnone
      -- a finished program holds nothing
      have hheld : c.held t = [] := hnone c.shared (.refl _ _)
      have hnew := hc.update t (h := c.held t) (by rw [hheld]; exact hops p hp _ hc.guar)
        (hc.apart t) fun l hl hothers =>
          hc.inv l fun t' => if h : t' = t then h ▸ hl else hothers t' h
      rwa [Function.update_eq_self] at hnew
  | @acquire t l m k hprog hfree =>
      have hobeys := hc.obeys t
      rw [hprog] at hobeys
      refine hc.update t (hobeys _ (.refl _ _) (hc.inv_of_free hfree)) ?_ ?_
      · intro t' ht' e he e' he' heq hex
        rcases List.mem_cons.1 he with rfl | he
        · exact hfree t' e' he' heq.symm hex
        · exact hc.apart t t' ht' e he e' he' heq hex
      · intro l' hl hothers
        refine hc.inv l' fun t' => ?_
        by_cases h : t' = t
        · exact h ▸ fun hmem => hl (List.mem_cons_of_mem _ hmem)
        · exact hothers t' h
  | @release t l m k hprog =>
      have hobeys := hc.obeys t
      rw [hprog] at hobeys
      obtain ⟨hmem, hrest⟩ := hobeys
      obtain ⟨hinv, hk⟩ := hrest _ (.refl _ _)
      refine hc.update t hk ?_ ?_
      · exact fun t' ht' e he => hc.apart t t' ht' e (List.mem_of_mem_erase he)
      · intro l' hl hothers
        by_cases hlm : l' = l ∧ m = .exclusive
        · obtain ⟨rfl, rfl⟩ := hlm
          exact hinv rfl
        · -- the lock was not held exclusively before
          refine hc.inv l' fun t' => ?_
          by_cases h : t' = t
          · refine h ▸ fun hmem' => hl ((List.mem_erase_of_ne ?_).2 hmem')
            exact fun heq => hlm ⟨congrArg Prod.fst heq, (congrArg Prod.snd heq).symm⟩
          · exact hothers t' h
  | @access t f k hprog =>
      have hobeys := hc.obeys t
      rw [hprog] at hobeys
      obtain ⟨hguar, hsame, hk⟩ := hobeys _ (.refl _ _)
      refine ⟨D.guar_trans hc.guar hguar, hc.apart, fun t' => ?_, fun l hl => ?_⟩
      · show (Function.update c.prog t (k c.shared) t').Obeys D _ (c.held t') (f c.shared)
        by_cases h : t' = t
        · subst h
          rw [Function.update_self]
          exact hk
        · rw [Function.update_of_ne h]
          exact (hc.obeys t').env (hc.env h hguar hsame)
      · exact D.inv_same (hsame l (hl t)) (hc.inv l hl)

/-- **Interference.** If every program obeys, then however many threads run them, and however they
interleave, what no thread holds the lock of is in good order, and all that has happened to the
state is what an access may do. -/
theorem obeying (hinv : ∀ l, D.inv l s₀) (hc : Reachable ops (idle s₀) c) : c.Obeying D s₀ := by
  induction hc with
  | refl => exact obeying_idle hinv
  | tail _ hstep ih => exact ih.step hops hstep

end

end Pool
