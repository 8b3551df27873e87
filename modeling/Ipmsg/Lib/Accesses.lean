import Ipmsg.Lib.Rely

set_option autoImplicit false

/-! # What the accesses of a program do

Where every access of a program does to the state only what any thread may do at any time, and to
nothing that a lock protects, it is enough that the program takes its locks in order and gives them
back: then it also obeys. So a large program that does nothing of interest needs no reasoning about
interference. -/

namespace Prog

variable {L σ α β : Type}

/-- All accesses of the program do what `R` says, and all its results are in `Q`. -/
def Accesses (R : σ → σ → Prop) (Q : α → Prop) : Prog L σ α → Prop
  | pure a => Q a
  | acquire _ _ k | release _ _ k => k.Accesses R Q
  | access f k => ∀ s, R s (f s) ∧ (k s).Accesses R Q

section
variable {R : σ → σ → Prop} {Q : α → Prop}

theorem accesses_access {f : σ → σ} {k : σ → Prog L σ α} (hf : ∀ s, R s (f s))
    (hk : ∀ s, (k s).Accesses R Q) : (access f k).Accesses R Q :=
  fun s => ⟨hf s, hk s⟩

theorem Accesses.bind {Q' : β → Prop} {p : Prog L σ α} {g : α → Prog L σ β} (hp : p.Accesses R Q)
    (hg : ∀ a, Q a → (g a).Accesses R Q') : (p >>= g).Accesses R Q' := by
  show (p.bind g).Accesses R Q'
  induction p with
  | pure a => exact hg a hp
  | acquire l m k ih => exact ih hp
  | release l m k ih => exact ih hp
  | access f k ih => exact fun s => ⟨(hp s).1, ih s (hp s).2⟩

theorem Accesses.mono {Q' : α → Prop} {p : Prog L σ α} (hp : p.Accesses R Q)
    (hQ : ∀ a, Q a → Q' a) : p.Accesses R Q' := by
  induction p with
  | pure a => exact hQ a hp
  | acquire l m k ih => exact ih hp
  | release l m k ih => exact ih hp
  | access f k ih => exact fun s => ⟨(hp s).1, ih s (hp s).2⟩

theorem Accesses.dropped {p : Prog L σ α} (hp : p.Accesses R Q) :
    p.dropped.Accesses R fun _ => True :=
  hp.bind fun _ _ => trivial

theorem accesses_get_bind {g : σ → Prog L σ α} (hR : ∀ s, R s s) (hg : ∀ s, (g s).Accesses R Q) :
    ((get : Prog L σ σ) >>= g).Accesses R Q :=
  accesses_access hR hg

theorem accesses_locked {l : L} {m : LockMode} {body : Prog L σ α} (hbody : body.Accesses R Q) :
    (locked l m body).Accesses R Q :=
  hbody.bind fun _ ha => ha

/-- A program on a part of the state, which may become anything. -/
theorem accesses_zoom {σ' : Type} {part : σ' → σ} {put : σ' → σ → σ'} {R : σ' → σ' → Prop}
    (hput : ∀ s x, R s (put s x)) (p : Prog L σ α) :
    (p.zoom part put).Accesses R fun _ => True := by
  induction p with
  | pure a => exact trivial
  | acquire l m k ih => exact ih
  | release l m k ih => exact ih
  | access f k ih => exact fun s => ⟨hput s _, ih (part s)⟩

end

/-! ## Programs that throw -/

section
variable {R : σ → σ → Prop} {ε : Type} {E : ε → Prop}

/-- All exceptions are in `E`. -/
def AccessesT (R : σ → σ → Prop) (E : ε → Prop) (p : ExceptT ε (Prog L σ) α) : Prop :=
  Accesses R (fun x => ∀ e, x = .error e → E e) p.run

theorem AccessesT.bind {p : ExceptT ε (Prog L σ) α} {g : α → ExceptT ε (Prog L σ) β}
    (hp : AccessesT R E p) (hg : ∀ a, AccessesT R E (g a)) : AccessesT R E (p >>= g) := by
  refine Accesses.bind hp fun x hx => ?_
  cases x with
  | ok a => exact hg a
  | error e =>
      intro e' he
      exact hx e' (congrArg Except.error (Except.error.inj he))

theorem AccessesT.mono {E' : ε → Prop} {p : ExceptT ε (Prog L σ) α} (hp : AccessesT R E p)
    (hE : ∀ e, E e → E' e) : AccessesT R E' p :=
  Accesses.mono hp fun _ hx e he => hE e (hx e he)

theorem accessesT_pure (a : α) : AccessesT R E (Pure.pure a : ExceptT ε (Prog L σ) α) :=
  fun _ he => nomatch he

theorem accessesT_ofExcept {x : Except ε α} (hx : ∀ e, x = .error e → E e) :
    AccessesT R E (ofExcept x : ExceptT ε (Prog L σ) α) := hx

theorem accessesT_lift {Q : α → Prop} {p : Prog L σ α} (hp : p.Accesses R Q) :
    AccessesT R E (liftM p : ExceptT ε (Prog L σ) α) :=
  hp.bind fun _ _ => fun _ he => nomatch he

theorem accessesT_get_bind {g : σ → ExceptT ε (Prog L σ) α} (hR : ∀ s, R s s)
    (hg : ∀ s, AccessesT R E (g s)) :
    AccessesT R E ((liftM (get : Prog L σ σ) : ExceptT ε (Prog L σ) σ) >>= g) :=
  accesses_access hR hg

theorem accessesT_locked {l : L} {m : LockMode} {body : ExceptT ε (Prog L σ) α}
    (hbody : AccessesT R E body) : AccessesT R E (lockedT l m body) :=
  accesses_locked hbody

theorem accessesT_foldlM {γ : Type} {f : β → γ → ExceptT ε (Prog L σ) β}
    (hf : ∀ b c, AccessesT R E (f b c)) (l : List γ) : ∀ b, AccessesT R E (l.foldlM f b) := by
  induction l with
  | nil => exact fun b => accessesT_pure b
  | cons c l ih =>
      intro b
      rw [List.foldlM_cons]
      exact (hf b c).bind ih

end

/-! ## Obeying -/

section
variable [DecidableEq L] {D : Discipline L σ} {ι : Type} [Preorder ι] {rank : L → ι}
  {I P : σ → Prop} {R : σ → σ → Prop} {Q : α → Prop}

/-- **Programs in order obey.** A program that gives back the locks it takes, in order, and whose
accesses touch nothing that is protected, keeps what no thread makes false. -/
theorem triple_of_ordered {h : List (L × LockMode)} {p : Prog L σ α} (hp : p.Ordered rank I h h)
    (hacc : p.Accesses R Q) (hinv : ∀ l s, D.inv l s) (hI : ∀ s, P s → I s)
    (hP : ∀ s s', P s → D.guar s s' → P s')
    (hR : ∀ s s', P s → R s s' → I s' → D.guar s s' ∧ ∀ l, D.same l s s') :
    Triple D h P p fun a s => Q a ∧ P s := by
  have hobeys : ∀ {h h' : List (L × LockMode)} {s : σ}, p.Ordered rank I h h' → P s →
      p.Obeys D (fun a h'' s' => h'' = h' ∧ Q a ∧ P s') h s := by
    clear hp
    induction p with
    | pure a => exact fun hp hs s' henv => ⟨hp, hacc, hP _ s' hs henv.1⟩
    | acquire l m k ih => exact fun hp hs s' henv _ => ih hacc hp.2 (hP _ s' hs henv.1)
    | release l m k ih =>
        rintro h h' s ⟨rest, rfl, hk⟩ hs
        refine ⟨List.mem_cons_self, fun s' henv => ⟨fun _ => hinv l s', ?_⟩⟩
        rw [List.erase_cons_head]
        exact ih hacc hk (hP s s' hs henv.1)
    | access f k ih =>
        intro h h' s hp hs s' henv
        have hs' : P s' := hP s s' hs henv.1
        obtain ⟨hIf, hk⟩ := hp s' (hI s' hs')
        obtain ⟨hguar, hsame⟩ := hR s' (f s') hs' (hacc s').1 hIf
        exact ⟨hguar, fun l _ => hsame l, ih s' (hacc s').2 hk (hP s' (f s') hs' hguar)⟩
  exact fun s hs => hobeys hp hs

end

end Prog
