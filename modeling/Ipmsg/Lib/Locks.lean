import Mathlib.Logic.Relation
import Mathlib.Logic.Function.Basic
import Mathlib.Order.WellFounded
import Mathlib.Data.Set.Basic

set_option autoImplicit false

/-! # Programs with locks

A program takes and gives back locks and accesses a shared state in between, one atomic access at a
time. Any number of threads run programs in any interleaving. If every lock has a rank, and a
program takes a lock only while all the locks it holds have lower ranks, no threads ever wait for
each other in a circle. Which locks a program takes may depend on the shared state; what it relies
on there is an invariant `I` that every access keeps. -/

/-- How a lock is held. -/
inductive LockMode
  | shared
  | exclusive
  deriving DecidableEq, Repr

/-- Only readers hold a lock together. -/
def LockMode.Excludes (m m' : LockMode) : Prop := m = .exclusive ∨ m' = .exclusive

instance (m m' : LockMode) : Decidable (m.Excludes m') :=
  inferInstanceAs (Decidable (m = .exclusive ∨ m' = .exclusive))

section
variable {L : Type} {held : List (L × LockMode)}

/-- One of the locks held excludes the lock asked for. -/
def Excluded (held : List (L × LockMode)) (request : L × LockMode) : Prop :=
  ∃ e ∈ held, e.1 = request.1 ∧ request.2.Excludes e.2

instance [DecidableEq L] (request : L × LockMode) : Decidable (Excluded held request) :=
  inferInstanceAs (Decidable (∃ e ∈ held, e.1 = request.1 ∧ request.2.Excludes e.2))

theorem excluded_exclusive_iff {l : L} : Excluded held (l, .exclusive) ↔ ∃ m, (l, m) ∈ held := by
  constructor
  · rintro ⟨⟨l', m⟩, he, rfl, -⟩
    exact ⟨m, he⟩
  · rintro ⟨m, he⟩
    exact ⟨(l, m), he, rfl, Or.inl rfl⟩

theorem excluded_shared_iff {l : L} : Excluded held (l, .shared) ↔ (l, .exclusive) ∈ held := by
  constructor
  · rintro ⟨⟨l', m⟩, he, rfl, hm⟩
    rcases hm with hm | rfl
    · exact absurd hm LockMode.noConfusion
    · exact he
  · exact fun he => ⟨(l, .exclusive), he, rfl, Or.inr rfl⟩

end

/-! ## Programs -/

/-- A program over the locks `L` and the shared state `σ` with a result. `access f k` changes the
    state by `f` and goes on with `k` of the state it found. -/
inductive Prog (L σ α : Type) : Type
  | pure (a : α)
  | acquire (l : L) (m : LockMode) (k : Prog L σ α)
  | release (l : L) (m : LockMode) (k : Prog L σ α)
  | access (f : σ → σ) (k : σ → Prog L σ α)

namespace Prog

variable {L σ α β : Type}

protected def bind : Prog L σ α → (α → Prog L σ β) → Prog L σ β
  | pure a, g => g a
  | acquire l m k, g => acquire l m (k.bind g)
  | release l m k, g => release l m (k.bind g)
  | access f k, g => access f fun s => (k s).bind g

instance : Monad (Prog L σ) where
  pure := Prog.pure
  bind := Prog.bind

/-- The shared state as it is. -/
def get : Prog L σ σ := access id pure

/-- A change of the shared state. -/
def modify (f : σ → σ) : Prog L σ Unit := access f fun _ => pure ()

/-- A scoped lock. -/
def locked (l : L) (m : LockMode) (body : Prog L σ α) : Prog L σ α :=
  acquire l m (body.bind fun a => release l m (pure a))

/-- The program without its result. -/
def dropped (p : Prog L σ α) : Prog L σ Unit := p >>= fun _ => Pure.pure ()

/-- A program on a part of the state. -/
def zoom {σ' : Type} (part : σ' → σ) (put : σ' → σ → σ') : Prog L σ α → Prog L σ' α
  | pure a => pure a
  | acquire l m k => acquire l m (k.zoom part put)
  | release l m k => release l m (k.zoom part put)
  | access f k => access (fun s => put s (f (part s))) fun s => (k (part s)).zoom part put

protected theorem bind_assoc {γ : Type} (p : Prog L σ α) (g : α → Prog L σ β) (k : β → Prog L σ γ) :
    (p.bind g).bind k = p.bind fun a => (g a).bind k := by
  induction p with
  | pure a => rfl
  | acquire l m p ih => exact congrArg (acquire l m) ih
  | release l m p ih => exact congrArg (release l m) ih
  | access f p ih => exact congrArg (access f) (funext ih)

/-! ## Exceptions

A program that may throw is an `ExceptT ε (Prog L σ) α`; a scoped lock is given back either way. -/

/-- A computation without access to the shared state. -/
def ofExcept {ε : Type} (x : Except ε α) : ExceptT ε (Prog L σ) α := ExceptT.mk (pure x)

/-- A scoped lock around a program that may throw. -/
def lockedT {ε : Type} (l : L) (m : LockMode) (body : ExceptT ε (Prog L σ) α) :
    ExceptT ε (Prog L σ) α :=
  ExceptT.mk (locked l m body.run)

/-! ## Running alone -/

/-- The result of a program that no other thread interferes with, and the state it leaves. -/
def run : Prog L σ α → σ → α × σ
  | pure a, s => (a, s)
  | acquire _ _ k, s => k.run s
  | release _ _ k, s => k.run s
  | access f k, s => (k s).run (f s)

@[simp] theorem run_pure (a : α) (s : σ) : (Pure.pure a : Prog L σ α).run s = (a, s) := rfl

@[simp] theorem run_bind (p : Prog L σ α) (g : α → Prog L σ β) (s : σ) :
    (p >>= g).run s = (g (p.run s).1).run (p.run s).2 := by
  show (p.bind g).run s = _
  induction p generalizing s with
  | pure a => rfl
  | acquire l m k ih => exact ih s
  | release l m k ih => exact ih s
  | access f k ih => exact ih s (f s)

@[simp] theorem run_get (s : σ) : (get : Prog L σ σ).run s = (s, s) := rfl

@[simp] theorem run_modify (f : σ → σ) (s : σ) :
    (modify f : Prog L σ Unit).run s = ((), f s) := rfl

@[simp] theorem run_locked (l : L) (m : LockMode) (body : Prog L σ α) (s : σ) :
    (locked l m body).run s = body.run s :=
  run_bind body (fun a => release l m (pure a)) s

/-- A program on a part of the state leaves the rest. -/
theorem run_zoom {σ' : Type} {part : σ' → σ} {put : σ' → σ → σ'} (hpart : ∀ s a, part (put s a) = a)
    (hput : ∀ s, put s (part s) = s) (hputput : ∀ s a b, put (put s a) b = put s b)
    (p : Prog L σ α) (s : σ') :
    (p.zoom part put).run s = ((p.run (part s)).1, put s (p.run (part s)).2) := by
  induction p generalizing s with
  | pure a => exact congrArg (Prod.mk a) (hput s).symm
  | acquire l m k ih => exact ih s
  | release l m k ih => exact ih s
  | access f k ih =>
      show ((k (part s)).zoom part put).run (put s (f (part s))) = _
      rw [ih, hpart, hputput]
      rfl

theorem run_foldlM {γ : Type} (f : γ → Prog L σ Unit) (l : List γ) :
    ∀ s : σ, (l.foldlM (fun _ c => f c) ()).run s = ((), l.foldl (fun s c => ((f c).run s).2) s) := by
  induction l with
  | nil => exact fun s => rfl
  | cons c l ih =>
      intro s
      rw [List.foldlM_cons, run_bind, List.foldl_cons]
      exact ih ((f c).run s).2

section
variable {ε : Type}

/-- What a program that throws makes of the shared state when it runs alone. -/
def outcome (p : ExceptT ε (Prog L σ) Unit) (s : σ) : Except ε σ :=
  (Prog.run p.run s).1.map fun _ => (Prog.run p.run s).2

theorem run_bindT (p : ExceptT ε (Prog L σ) α) (g : α → ExceptT ε (Prog L σ) β) (s : σ) :
    Prog.run (p >>= g).run s = match Prog.run p.run s with
      | (.ok a, s') => Prog.run (g a).run s'
      | (.error e, s') => (.error e, s') := by
  have hrun : Prog.run (p >>= g).run s =
      Prog.run (ExceptT.bindCont g (Prog.run p.run s).1) (Prog.run p.run s).2 :=
    run_bind p.run (ExceptT.bindCont g) s
  rw [hrun]
  obtain ⟨x, s'⟩ := Prog.run p.run s
  cases x <;> rfl

theorem run_lift (p : Prog L σ α) (s : σ) :
    Prog.run (liftM p : ExceptT ε (Prog L σ) α).run s = (.ok (p.run s).1, (p.run s).2) :=
  run_bind p (fun a => Pure.pure (Except.ok a)) s

theorem run_lift_bindT (p : Prog L σ α) (g : α → ExceptT ε (Prog L σ) β) (s : σ) :
    Prog.run ((liftM p : ExceptT ε (Prog L σ) α) >>= g).run s =
      Prog.run (g (p.run s).1).run (p.run s).2 := by
  rw [run_bindT, run_lift]

/-- Programs that only read the state. -/
theorem run_bindT_reads {p : ExceptT ε (Prog L σ) α} {g : α → ExceptT ε (Prog L σ) β} {s : σ}
    {x : Except ε α} {y : α → Except ε β} (hp : Prog.run p.run s = (x, s))
    (hg : ∀ a, Prog.run (g a).run s = (y a, s)) : Prog.run (p >>= g).run s = (x >>= y, s) := by
  rw [run_bindT, hp]
  cases x with
  | ok a => exact hg a
  | error e => rfl

theorem run_foldlM_reads {γ : Type} {f : β → γ → ExceptT ε (Prog L σ) β} {g : β → γ → Except ε β}
    {s : σ} (hf : ∀ b c, Prog.run (f b c).run s = (g b c, s)) (l : List γ) :
    ∀ b, Prog.run (l.foldlM f b).run s = (l.foldlM g b, s) := by
  induction l with
  | nil => exact fun b => rfl
  | cons c l ih =>
      intro b
      rw [List.foldlM_cons, List.foldlM_cons]
      exact run_bindT_reads (hf b c) ih

/-- What follows a program that returns. -/
theorem outcome_bind_ok {p : ExceptT ε (Prog L σ) α} {g : α → ExceptT ε (Prog L σ) Unit} {s s' : σ}
    {a : α} (h : Prog.run p.run s = (.ok a, s')) : outcome (p >>= g) s = outcome (g a) s' := by
  unfold outcome
  rw [run_bindT, h]

theorem outcome_bind_error {p : ExceptT ε (Prog L σ) α} {g : α → ExceptT ε (Prog L σ) Unit}
    {s s' : σ} {e : ε} (h : Prog.run p.run s = (.error e, s')) :
    outcome (p >>= g) s = .error e := by
  unfold outcome
  rw [run_bindT, h]
  rfl

theorem outcome_lift_bind (p : Prog L σ α) (g : α → ExceptT ε (Prog L σ) Unit) (s : σ) :
    outcome ((liftM p : ExceptT ε (Prog L σ) α) >>= g) s = outcome (g (p.run s).1) (p.run s).2 :=
  outcome_bind_ok (run_lift p s)

theorem outcome_lift (p : Prog L σ Unit) (s : σ) :
    outcome (liftM p : ExceptT ε (Prog L σ) Unit) s = .ok (p.run s).2 := by
  unfold outcome
  rw [run_lift]
  rfl

theorem outcome_bind (p q : ExceptT ε (Prog L σ) Unit) (s : σ) :
    outcome (p >>= fun _ => q) s = outcome p s >>= outcome q := by
  unfold outcome
  rw [run_bindT]
  obtain ⟨x, s'⟩ := Prog.run p.run s
  cases x <;> rfl

theorem outcome_lockedT (l : L) (m : LockMode) (body : ExceptT ε (Prog L σ) Unit) (s : σ) :
    outcome (lockedT l m body) s = outcome body s := by
  have hrun : Prog.run (lockedT l m body).run s = Prog.run body.run s := run_locked l m body.run s
  unfold outcome
  rw [hrun]

theorem outcome_foldlM {γ : Type} (f : γ → ExceptT ε (Prog L σ) Unit) (l : List γ) :
    ∀ s : σ, outcome (l.foldlM (fun _ c => f c) ()) s = l.foldlM (fun s c => outcome (f c) s) s := by
  induction l with
  | nil => exact fun s => rfl
  | cons c l ih =>
      intro s
      rw [List.foldlM_cons, List.foldlM_cons]
      refine (outcome_bind (f c) (l.foldlM (fun _ c => f c) ()) s).trans ?_
      exact congrArg _ (funext ih)

end

/-! ## Ranks -/

section
variable {ι : Type} [Preorder ι] (rank : L → ι) (I : σ → Prop)

/-- Started with the locks `h` in a state with `I`, the program takes each lock while all it holds
    have lower ranks, gives back the one it took last, keeps `I` and ends with the locks `h'`. -/
def Ordered : Prog L σ α → List (L × LockMode) → List (L × LockMode) → Prop
  | pure _, h, h' => h = h'
  | acquire l m k, h, h' => (∀ e ∈ h, rank e.1 < rank l) ∧ k.Ordered ((l, m) :: h) h'
  | release l m k, h, h' => ∃ rest, h = (l, m) :: rest ∧ k.Ordered rest h'
  | access f k, h, h' => ∀ s, I s → I (f s) ∧ (k s).Ordered h h'

/-- The program takes only locks above `r`, in order, and gives them back. -/
def Above (r : ι) (p : Prog L σ α) : Prop :=
  ∀ h, (∀ e ∈ h, rank e.1 ≤ r) → p.Ordered rank I h h

variable {rank I}

theorem Ordered.bind {p : Prog L σ α} {g : α → Prog L σ β} {h h' h'' : List (L × LockMode)}
    (hp : p.Ordered rank I h h') (hg : ∀ a, (g a).Ordered rank I h' h'') :
    (p.bind g).Ordered rank I h h'' := by
  induction p generalizing h with
  | pure a => exact hp ▸ hg a
  | acquire l m k ih => exact ⟨hp.1, ih hp.2⟩
  | release l m k ih =>
      obtain ⟨rest, hh, hk⟩ := hp
      exact ⟨rest, hh, ih hk⟩
  | access f k ih => exact fun s hs => ⟨(hp s hs).1, ih s (hp s hs).2⟩

theorem above_pure (r : ι) (a : α) : (Pure.pure a : Prog L σ α).Above rank I r := fun _ _ => rfl

theorem Above.bind {r : ι} {p : Prog L σ α} {g : α → Prog L σ β} (hp : p.Above rank I r)
    (hg : ∀ a, (g a).Above rank I r) : (p >>= g).Above rank I r :=
  fun h hh => (hp h hh).bind fun a => hg a h hh

theorem Above.mono {r r' : ι} {p : Prog L σ α} (hr : r ≤ r') (hp : p.Above rank I r') :
    p.Above rank I r :=
  fun h hh => hp h fun e he => (hh e he).trans hr

theorem Above.dropped {r : ι} {p : Prog L σ α} (hp : p.Above rank I r) :
    p.dropped.Above rank I r :=
  hp.bind fun _ => above_pure r ()

/-- One access. -/
theorem above_access {r : ι} {f : σ → σ} {k : σ → Prog L σ α} (hf : ∀ s, I s → I (f s))
    (hk : ∀ s, I s → (k s).Above rank I r) : (access f k).Above rank I r :=
  fun h hh s hs => ⟨hf s hs, hk s hs h hh⟩

theorem above_modify {r : ι} {f : σ → σ} (hf : ∀ s, I s → I (f s)) :
    (modify f : Prog L σ Unit).Above rank I r :=
  above_access hf fun _ _ => above_pure r ()

/-- What follows a look at the state. -/
theorem above_get_bind {r : ι} {g : σ → Prog L σ α} (hg : ∀ s, I s → (g s).Above rank I r) :
    ((get : Prog L σ σ) >>= g).Above rank I r :=
  above_access (fun _ => id) hg

/-- A scope holds its lock while the body takes higher ones. -/
theorem above_locked {r : ι} {l : L} {m : LockMode} {body : Prog L σ α} (hl : r < rank l)
    (hbody : body.Above rank I (rank l)) : (locked l m body).Above rank I r := by
  intro h hh
  have hlower : ∀ e ∈ h, rank e.1 < rank l := fun e he => (hh e he).trans_lt hl
  refine ⟨hlower, (hbody ((l, m) :: h) ?_).bind fun a => ⟨h, rfl, rfl⟩⟩
  intro e he
  rcases List.mem_cons.1 he with rfl | he
  · exact le_refl _
  · exact (hlower e he).le

/-- A loop. -/
theorem above_foldlM {γ : Type} {r : ι} {f : β → γ → Prog L σ β} {l : List γ}
    (hf : ∀ b, ∀ c ∈ l, (f b c).Above rank I r) : ∀ b, (l.foldlM f b).Above rank I r := by
  induction l with
  | nil => exact fun b => above_pure r b
  | cons c l ih =>
      intro b
      rw [List.foldlM_cons]
      have hrest : ∀ b, ∀ c' ∈ l, (f b c').Above rank I r :=
        fun b c' hc' => hf b c' (List.mem_cons_of_mem c hc')
      exact (hf b c List.mem_cons_self).bind fun b' => ih hrest b'

/-! ## Ranks of programs that throw -/

section
variable {ε : Type} {r : ι}

theorem Above.bindT {p : ExceptT ε (Prog L σ) α} {g : α → ExceptT ε (Prog L σ) β}
    (hp : Above rank I r p.run) (hg : ∀ a, Above rank I r (g a).run) :
    Above rank I r (p >>= g).run := by
  refine hp.bind fun x => ?_
  cases x with
  | ok a => exact hg a
  | error e => exact above_pure r _

theorem above_pureT (a : α) : Above rank I r (Pure.pure a : ExceptT ε (Prog L σ) α).run :=
  above_pure r _

theorem above_throw (e : ε) : Above rank I r (throw e : ExceptT ε (Prog L σ) α).run :=
  above_pure r _

theorem above_ofExcept (x : Except ε α) :
    Above rank I r (ofExcept x : ExceptT ε (Prog L σ) α).run :=
  above_pure r _

theorem above_lift {p : Prog L σ α} (hp : p.Above rank I r) :
    Above rank I r (liftM p : ExceptT ε (Prog L σ) α).run :=
  hp.bind fun a => above_pure r (Except.ok a)

theorem above_get_bindT {g : σ → ExceptT ε (Prog L σ) α}
    (hg : ∀ s, I s → Above rank I r (g s).run) :
    Above rank I r ((liftM (get : Prog L σ σ) : ExceptT ε (Prog L σ) σ) >>= g).run :=
  above_access (fun _ => id) hg

theorem above_lockedT {l : L} {m : LockMode} {body : ExceptT ε (Prog L σ) α} (hl : r < rank l)
    (hbody : Above rank I (rank l) body.run) : Above rank I r (lockedT l m body).run :=
  above_locked hl hbody

theorem above_foldlMT {γ : Type} {f : β → γ → ExceptT ε (Prog L σ) β} {l : List γ}
    (hf : ∀ b, ∀ c ∈ l, Above rank I r (f b c).run) : ∀ b, Above rank I r (l.foldlM f b).run := by
  induction l with
  | nil => exact fun b => above_pureT b
  | cons c l ih =>
      intro b
      rw [List.foldlM_cons]
      have hrest : ∀ b, ∀ c' ∈ l, Above rank I r (f b c').run :=
        fun b c' hc' => hf b c' (List.mem_cons_of_mem c hc')
      exact (hf b c List.mem_cons_self).bindT fun b' => ih hrest b'

end

/-- The rest of the state keeps what `I` says of the part. -/
theorem Above.zoom {σ' : Type} {part : σ' → σ} {put : σ' → σ → σ'}
    (hput : ∀ s x, part (put s x) = x) {r : ι} {p : Prog L σ α} (hp : p.Above rank I r) :
    (p.zoom part put).Above rank (fun s => I (part s)) r := by
  have hordered : ∀ (q : Prog L σ α) (h h' : List (L × LockMode)), q.Ordered rank I h h' →
      (q.zoom part put).Ordered rank (fun s => I (part s)) h h' := by
    intro q
    induction q with
    | pure a => exact fun _ _ => id
    | acquire l m k ih => exact fun h h' hq => ⟨hq.1, ih _ _ hq.2⟩
    | release l m k ih =>
        rintro h h' ⟨rest, hh, hk⟩
        exact ⟨rest, hh, ih _ _ hk⟩
    | access f k ih =>
        intro h h' hq s hs
        obtain ⟨hf, hk⟩ := hq (part s) hs
        refine ⟨?_, ih _ _ _ hk⟩
        show I (part (put s (f (part s))))
        rwa [hput]
  exact fun h hh => hordered p h h (hp h hh)

end

end Prog

/-! ## Threads -/

/-- The shared state, what each thread has left to do, and the locks it holds. -/
structure Pool (θ L σ : Type) where
  shared : σ
  prog : θ → Prog L σ Unit
  held : θ → List (L × LockMode)

namespace Pool

variable {θ L σ : Type}

/-- No thread holds the lock in a way that excludes the mode. -/
def Free (c : Pool θ L σ) (l : L) (m : LockMode) : Prop :=
  ∀ t, ∀ e ∈ c.held t, e.1 = l → ¬ m.Excludes e.2

/-- Thread `t` waits for a lock that `t'` holds. -/
def WaitsFor (c : Pool θ L σ) (t t' : θ) : Prop :=
  ∃ l m k m', c.prog t = .acquire l m k ∧ (l, m') ∈ c.held t' ∧ m.Excludes m'

/-- Some threads all wait for locks held by others of them or by themselves. -/
def Deadlock (c : Pool θ L σ) : Prop :=
  ∃ S : Set θ, S.Nonempty ∧ ∀ t ∈ S, ∃ t' ∈ S, c.WaitsFor t t'

variable [DecidableEq θ] [DecidableEq L]

/-- A step of one thread. A thread that has nothing left to do starts any of the programs `ops`. -/
inductive Step (ops : Set (Prog L σ Unit)) : Pool θ L σ → Pool θ L σ → Prop
  | start {c : Pool θ L σ} (t : θ) {p : Prog L σ Unit} :
      c.prog t = .pure () → p ∈ ops →
      Step ops c { c with prog := Function.update c.prog t p }
  | acquire {c : Pool θ L σ} (t : θ) {l : L} {m : LockMode} {k : Prog L σ Unit} :
      c.prog t = .acquire l m k → c.Free l m →
      Step ops c { c with
        prog := Function.update c.prog t k
        held := Function.update c.held t ((l, m) :: c.held t) }
  | release {c : Pool θ L σ} (t : θ) {l : L} {m : LockMode} {k : Prog L σ Unit} :
      c.prog t = .release l m k →
      Step ops c { c with
        prog := Function.update c.prog t k
        held := Function.update c.held t ((c.held t).erase (l, m)) }
  | access {c : Pool θ L σ} (t : θ) {f : σ → σ} {k : σ → Prog L σ Unit} :
      c.prog t = .access f k →
      Step ops c { c with
        shared := f c.shared
        prog := Function.update c.prog t (k c.shared) }

/-- No thread has started, and none holds a lock. -/
def idle (s : σ) : Pool θ L σ where
  shared := s
  prog _ := .pure ()
  held _ := []

/-- What any number of steps lead to. -/
abbrev Reachable (ops : Set (Prog L σ Unit)) : Pool θ L σ → Pool θ L σ → Prop :=
  Relation.ReflTransGen (Step ops)

/-! ## No deadlock -/

section
variable {ι : Type} [Preorder ι] (rank : L → ι) (I : σ → Prop)

/-- Every thread goes on in order from the locks it holds. -/
structure InOrder (c : Pool θ L σ) : Prop where
  shared : I c.shared
  ordered : ∀ t, (c.prog t).Ordered rank I (c.held t) []

variable {rank I}

omit [DecidableEq L] in
/-- Only one thread changes. -/
theorem InOrder.update {c : Pool θ L σ} (h : c.InOrder rank I) {s : σ} (hs : I s) (t : θ)
    {p : Prog L σ Unit} {hl : List (L × LockMode)} (hp : p.Ordered rank I hl []) :
    InOrder rank I { shared := s, prog := Function.update c.prog t p
                     held := Function.update c.held t hl : Pool θ L σ } := by
  refine ⟨hs, fun t' => ?_⟩
  by_cases ht : t' = t
  · subst ht
    simpa using hp
  · simpa [Function.update_of_ne ht] using h.ordered t'

variable {ops : Set (Prog L σ Unit)} (hops : ∀ p ∈ ops, p.Ordered rank I [] [])
include hops

theorem InOrder.step {c c' : Pool θ L σ} (h : c.InOrder rank I) (hstep : Step ops c c') :
    c'.InOrder rank I := by
  cases hstep with
  | @start t p hdone hp =>
      have hnone := h.ordered t
      rw [hdone] at hnone
      -- a finished program holds nothing
      have hheld : c.held t = [] := hnone
      have hstart : p.Ordered rank I (c.held t) [] := by
        rw [hheld]
        exact hops p hp
      have hnew := h.update h.shared t hstart
      rwa [Function.update_eq_self] at hnew
  | acquire t hprog hfree =>
      have hord := h.ordered t
      rw [hprog] at hord
      exact h.update h.shared t hord.2
  | release t hprog =>
      have hord := h.ordered t
      rw [hprog] at hord
      obtain ⟨rest, hheld, hk⟩ := hord
      refine h.update h.shared t ?_
      rw [hheld, List.erase_cons_head]
      exact hk
  | access t hprog =>
      have hord := h.ordered t
      rw [hprog] at hord
      obtain ⟨hf, hk⟩ := hord c.shared h.shared
      have hnew := h.update hf t hk
      rwa [Function.update_eq_self] at hnew

omit hops [DecidableEq θ] [DecidableEq L] in
/-- A thread waits for a lock that ranks below the one its holder waits for, and so on, which ends
    somewhere. -/
theorem InOrder.not_deadlock [WellFoundedGT ι] {c : Pool θ L σ} (h : c.InOrder rank I) :
    ¬ c.Deadlock := by
  rintro ⟨S, ⟨t₀, ht₀⟩, hwaits⟩
  -- the ranks of the locks the threads wait for
  obtain ⟨R, hR⟩ : ∃ R : Set ι,
      R = {r | ∃ t ∈ S, ∃ l m k, c.prog t = .acquire l m k ∧ r = rank l} := ⟨_, rfl⟩
  have hnonempty : R.Nonempty := by
    obtain ⟨-, -, l, m, k, -, hprog, -, -⟩ := hwaits t₀ ht₀
    exact ⟨rank l, hR ▸ ⟨t₀, ht₀, l, m, k, hprog, rfl⟩⟩
  obtain ⟨r, hr, hmax⟩ := (wellFounded_gt (α := ι)).has_min R hnonempty
  rw [hR] at hr
  obtain ⟨t, ht, l, m, k, hprog, rfl⟩ := hr
  obtain ⟨t', ht', l', m', k', n, hprog', hheld, -⟩ := hwaits t ht
  obtain rfl : l = l' := (Prog.acquire.inj (hprog.symm.trans hprog')).1
  obtain ⟨-, -, l₂, m₂, k₂, -, hprog₂, -, -⟩ := hwaits t' ht'
  have hord := h.ordered t'
  rw [hprog₂] at hord
  exact hmax (rank l₂) (hR ▸ ⟨t', ht', l₂, m₂, k₂, hprog₂, rfl⟩) (hord.1 _ hheld)

omit hops in
/-- **Ranked locks do not deadlock.** Let every program take locks in the order of their ranks. Then
    however many threads run these programs, and however they interleave, no threads ever wait for
    each other in a circle. -/
theorem not_deadlock [WellFoundedGT ι] {ops : Set (Prog L σ Unit)}
    (hops : ∀ p ∈ ops, p.Ordered rank I [] []) {s : σ} (hs : I s) {c : Pool θ L σ}
    (hc : Reachable ops (idle s) c) : ¬ c.Deadlock := by
  have hinv : c.InOrder rank I := by
    induction hc with
    | refl => exact ⟨hs, fun _ => rfl⟩
    | tail _ hstep ih => exact ih.step hops hstep
  exact hinv.not_deadlock

end

end Pool
