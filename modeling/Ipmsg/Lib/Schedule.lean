import Mathlib.Data.Fintype.Defs
import Ipmsg.Lib.Locks

set_option autoImplicit false

/-! # Runs of a pool

To show that threads can get somewhere, one thread is stopped between two accesses, with the locks
it holds, while others start programs and run them to the end, or the threads take their steps in an
order that is given. -/

namespace Prog

variable {L σ α β : Type}

/-- The program takes and gives back no locks. -/
def Lockless : Prog L σ α → Prop
  | pure _ => True
  | acquire _ _ _ | release _ _ _ => False
  | access _ k => ∀ s, (k s).Lockless

theorem lockless_get : (get : Prog L σ σ).Lockless := fun _ => trivial

theorem lockless_modify (f : σ → σ) : (modify f : Prog L σ Unit).Lockless := fun _ => trivial

theorem Lockless.bind {p : Prog L σ α} {g : α → Prog L σ β} (hp : p.Lockless)
    (hg : ∀ a, (g a).Lockless) : (p >>= g).Lockless := by
  show (p.bind g).Lockless
  induction p with
  | pure a => exact hg a
  | acquire l m k => exact hp.elim
  | release l m k => exact hp.elim
  | access f k ih => exact fun s => ih s (hp s)

/-- The lock it asks for next. -/
def request : Prog L σ α → Option (L × LockMode)
  | acquire l m _ => some (l, m)
  | _ => none

/-- A scope whose result is not used. -/
theorem dropped_locked (l : L) (m : LockMode) (body : Prog L σ α) :
    (locked l m body).dropped = acquire l m (body.bind fun _ => release l m (pure ())) :=
  congrArg (acquire l m) (Prog.bind_assoc body _ _)

end Prog

namespace Pool

variable {θ L σ α : Type} [DecidableEq θ] [DecidableEq L] {ops : Set (Prog L σ Unit)}

/-- A thread runs until it takes or gives back a lock. -/
theorem reachable_lockless {body : Prog L σ α} (hbody : body.Lockless) {g : α → Prog L σ Unit}
    {t : θ} {c : Pool θ L σ} (h : c.prog t = body.bind g) :
    Reachable ops c { c with
      shared := (body.run c.shared).2
      prog := Function.update c.prog t (g (body.run c.shared).1) } := by
  induction body generalizing c with
  | pure a =>
      have hsame : Function.update c.prog t (g a) = c.prog := by
        rw [Function.update_eq_self_iff]
        exact h.symm
      show Reachable ops c { c with prog := Function.update c.prog t (g a) }
      rw [hsame]
  | acquire l m k => exact hbody.elim
  | release l m k => exact hbody.elim
  | access f k ih =>
      refine .head (.access t h) ?_
      have hrest := ih c.shared (hbody c.shared) (c := { c with
        shared := f c.shared, prog := Function.update c.prog t ((k c.shared).bind g) })
        (Function.update_self t _ c.prog)
      rwa [Function.update_idem] at hrest

/-- A thread that has nothing to do runs a scope to its end. -/
theorem reachable_locked {l : L} {m : LockMode} {body : Prog L σ α} (hbody : body.Lockless)
    (hop : (Prog.locked l m body).dropped ∈ ops) {t : θ} {c : Pool θ L σ}
    (hdone : c.prog t = .pure ()) (hfree : c.Free l m) :
    Reachable ops c { c with shared := (body.run c.shared).2 } := by
  refine .head (.start t hdone hop) ?_
  refine .head (.acquire t ((Function.update_self t _ c.prog).trans (Prog.dropped_locked l m body))
    hfree) ?_
  rw [Function.update_idem]
  refine .trans (reachable_lockless hbody (Function.update_self t _ c.prog)) ?_
  refine .single ?_
  rw [Function.update_idem]
  have hlast : Step ops _ _ := .release (c := { c with
    shared := (body.run c.shared).2
    prog := Function.update c.prog t (.release l m (.pure ()))
    held := Function.update c.held t ((l, m) :: c.held t) }) t (Function.update_self t _ c.prog)
  have hprog : Function.update c.prog t (.pure ()) = c.prog := by
    rw [Function.update_eq_self_iff]
    exact hdone.symm
  simp only [Function.update_idem, Function.update_self, List.erase_cons_head,
    Function.update_eq_self, hprog] at hlast
  exact hlast

/-! ## One thread is stopped -/

/-- The thread `t` has `p` left to do and holds `h`, and no other thread has started. -/
def stopped (t : θ) (p : Prog L σ Unit) (h : List (L × LockMode)) (s : σ) : Pool θ L σ where
  shared := s
  prog := Function.update (fun _ => .pure ()) t p
  held := Function.update (fun _ => []) t h

/-- It starts, and takes its first lock. -/
theorem reachable_stopped {l : L} {m : LockMode} {body : Prog L σ α}
    (hop : (Prog.locked l m body).dropped ∈ ops) (t : θ) (s : σ) :
    Reachable ops (idle s)
      (stopped t (body.bind fun _ => .release l m (.pure ())) [(l, m)] s) := by
  refine .head (.start t rfl hop) (.single ?_)
  have htake : Step ops _ _ := .acquire (c := { (idle s : Pool θ L σ) with
    prog := Function.update (idle s).prog t (Prog.locked l m body).dropped }) t
    ((Function.update_self t _ _).trans (Prog.dropped_locked l m body))
    fun _ _ he => absurd he List.not_mem_nil
  rwa [Function.update_idem] at htake

variable {h : List (L × LockMode)} {s : σ} {t t' : θ} {p : Prog L σ Unit}

omit [DecidableEq L] in
theorem stopped_prog_self : (stopped t p h s).prog t = p := by
  simp only [stopped, Function.update_self]

omit [DecidableEq L] in
theorem stopped_prog_of_ne (ht : t' ≠ t) : (stopped t p h s).prog t' = .pure () := by
  simp only [stopped, Function.update_of_ne ht]

omit [DecidableEq L] in
theorem stopped_held (t' : θ) : (stopped t p h s).held t' = if t' = t then h else [] := by
  simp only [stopped, Function.update_apply]

/-- It goes on for some accesses. -/
theorem reachable_stopped_bind {body : Prog L σ α} (hbody : body.Lockless) (g : α → Prog L σ Unit) :
    Reachable ops (stopped t (body.bind g) h s)
      (stopped t (g (body.run s).1) h (body.run s).2) := by
  have hrun : Reachable ops _ _ := reachable_lockless (c := stopped t (body.bind g) h s) hbody
    stopped_prog_self
  rw [stopped, Function.update_idem] at hrun
  exact hrun

/-- Another thread runs a scope meanwhile. -/
theorem reachable_stopped_other {l : L} {m : LockMode} {body : Prog L σ α} (hbody : body.Lockless)
    (hop : (Prog.locked l m body).dropped ∈ ops) (ht : t' ≠ t) (hfree : ¬ Excluded h (l, m)) :
    Reachable ops (stopped t p h s) (stopped t p h (body.run s).2) := by
  refine reachable_locked hbody hop (stopped_prog_of_ne ht) fun u e he hl hex => ?_
  rw [stopped_held] at he
  split_ifs at he with hu
  · exact hfree ⟨e, he, hl, hex⟩
  · exact List.not_mem_nil he

/-! ## A given schedule -/

/-- What a thread does next: it starts a program, or takes some steps. -/
inductive Move (θ ο : Type)
  | start (t : θ) (o : ο)
  | steps (t : θ) (n : ℕ)

section
variable [Fintype θ] {ο : Type}

instance (c : Pool θ L σ) (l : L) (m : LockMode) : Decidable (c.Free l m) :=
  inferInstanceAs (Decidable (∀ t, ∀ e ∈ c.held t, e.1 = l → ¬ m.Excludes e.2))

omit [DecidableEq θ] [DecidableEq L] [Fintype θ] in
theorem waitsFor_iff {c : Pool θ L σ} {t t' : θ} :
    c.WaitsFor t t' ↔ ∃ r ∈ (c.prog t).request, Excluded (c.held t') r := by
  constructor
  · rintro ⟨l, m, k, m', hprog, hheld, hexcludes⟩
    exact ⟨(l, m), by rw [hprog]; rfl, (l, m'), hheld, rfl, hexcludes⟩
  · rintro ⟨r, hr, ⟨l, m'⟩, hheld, rfl, hexcludes⟩
    cases hprog : c.prog t with
    | acquire l m k =>
        rw [hprog] at hr
        obtain rfl : (l, m) = r := Option.some.inj hr
        exact ⟨l, m, k, m', hprog, hheld, hexcludes⟩
    | pure a => simp [hprog, Prog.request] at hr
    | release l m k => simp [hprog, Prog.request] at hr
    | access f k => simp [hprog, Prog.request] at hr

instance (c : Pool θ L σ) (t t' : θ) : Decidable (c.WaitsFor t t') :=
  decidable_of_iff _ waitsFor_iff.symm

/-- The next step of a thread. One that has to wait, or has nothing left to do, stays where it
    is. -/
def advance (t : θ) (c : Pool θ L σ) : Pool θ L σ :=
  match c.prog t with
  | .pure _ => c
  | .acquire l m k =>
      if c.Free l m then { c with
        prog := Function.update c.prog t k
        held := Function.update c.held t ((l, m) :: c.held t) }
      else c
  | .release l m k => { c with
      prog := Function.update c.prog t k
      held := Function.update c.held t ((c.held t).erase (l, m)) }
  | .access f k => { c with
      shared := f c.shared
      prog := Function.update c.prog t (k c.shared) }

variable (prog : ο → Prog L σ Unit)

/-- A thread that has something left to do does not start another program. -/
def move (c : Pool θ L σ) : Move θ ο → Pool θ L σ
  | .start t o =>
      match c.prog t with
      | .pure _ => { c with prog := Function.update c.prog t (prog o) }
      | _ => c
  | .steps t n => (advance t)^[n] c

/-- The moves one after another. -/
def follow (moves : List (Move θ ο)) (c : Pool θ L σ) : Pool θ L σ := moves.foldl (move prog) c

theorem reachable_advance (t : θ) (c : Pool θ L σ) : Reachable ops c (advance t c) := by
  unfold advance
  split
  · exact .refl
  · next hprog =>
      split
      · next hfree => exact .single (.acquire t hprog hfree)
      · exact .refl
  · next hprog => exact .single (.release t hprog)
  · next hprog => exact .single (.access t hprog)

theorem reachable_steps (t : θ) (n : ℕ) (c : Pool θ L σ) :
    Reachable ops c ((advance t)^[n] c) := by
  induction n generalizing c with
  | zero => exact .refl
  | succ n ih => exact (reachable_advance t c).trans (ih (advance t c))

theorem reachable_move (c : Pool θ L σ) (m : Move θ ο) :
    Reachable (Set.range prog) c (move prog c m) := by
  cases m with
  | start t o =>
      dsimp only [move]
      split
      · next hprog => exact .single (.start t hprog ⟨o, rfl⟩)
      · exact .refl
  | steps t n => exact reachable_steps t n c

/-- Every schedule is a run. -/
theorem reachable_follow (moves : List (Move θ ο)) (c : Pool θ L σ) :
    Reachable (Set.range prog) c (follow prog moves c) := by
  induction moves generalizing c with
  | nil => exact .refl
  | cons m moves ih => exact (reachable_move prog c m).trans (ih (move prog c m))

end

end Pool
