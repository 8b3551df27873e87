import Mathlib.Data.List.Perm.Basic
import Ipmsg.Lib.Spin

set_option autoImplicit false

/-! # Scoped locks

A function takes its locks through objects whose destructors give them back. How the function goes
through its statements is up to it: objects may be unlocked and locked again in any order, in
loops and branches, and a scope may be left at its end, by `return` or by an exception. In every
case the objects of a scope are destroyed in the reverse order of their declarations. -/

namespace Ipmsg

variable {L σ : Type}

/-! ## The objects -/

/-- A `ScopedLockImpl`, `ReadScopedLockImpl` or `WriteScopedLockImpl`; they differ in how they lock
    the mutex. -/
structure ScopedLock (L : Type) where
  m_mutex : L
  mode : LockMode
  m_locked : Bool

namespace ScopedLock

/-- The constructors. -/
def new (mutex : L) (mode : LockMode) : Prog L σ (ScopedLock L) :=
  .acquire mutex mode (.pure { m_mutex := mutex, mode, m_locked := true })

def lock (s : ScopedLock L) : Prog L σ (ScopedLock L) :=
  if !s.m_locked then .acquire s.m_mutex s.mode (.pure { s with m_locked := true }) else .pure s

def unlock (s : ScopedLock L) : Prog L σ (ScopedLock L) :=
  if s.m_locked then .release s.m_mutex s.mode (.pure { s with m_locked := false }) else .pure s

/-- The destructors. -/
def destroy (s : ScopedLock L) : Prog L σ Unit := s.unlock.dropped

end ScopedLock

/-- The constructor of `ScopedLockImpl`, which calls `lock()`. -/
def scopedLockImpl (mutex : L) : Prog L σ (ScopedLock L) := ScopedLock.new mutex .exclusive

/-- The constructor of `ReadScopedLockImpl`, which calls `rdlock()`. -/
def readScopedLockImpl (mutex : L) : Prog L σ (ScopedLock L) := ScopedLock.new mutex .shared

/-- The constructor of `WriteScopedLockImpl`, which calls `wrlock()`. -/
def writeScopedLockImpl (mutex : L) : Prog L σ (ScopedLock L) := ScopedLock.new mutex .exclusive

/-- The mutexes the objects have locked. -/
def heldBy (objects : List (ScopedLock L)) : List (L × LockMode) :=
  (objects.filter ScopedLock.m_locked).map fun s => (s.m_mutex, s.mode)

theorem heldBy_perm {objects objects' : List (ScopedLock L)} (h : objects.Perm objects') :
    (heldBy objects).Perm (heldBy objects') :=
  (h.filter _).map _

theorem heldBy_locked {s : ScopedLock L} (hs : s.m_locked = true) (objects : List (ScopedLock L)) :
    heldBy (s :: objects) = (s.m_mutex, s.mode) :: heldBy objects := by
  rw [heldBy, List.filter_cons_of_pos hs]
  rfl

theorem heldBy_unlocked {s : ScopedLock L} (hs : s.m_locked = false)
    (objects : List (ScopedLock L)) : heldBy (s :: objects) = heldBy objects := by
  rw [heldBy, List.filter_cons_of_neg (by simp [hs])]
  rfl

/-! ## Functions -/

/-- Nothing is agreed on but that locks are given back by those that hold them. -/
def anyState (L σ : Type) : Discipline L σ where
  guar _ _ := True
  same _ _ _ := True
  inv _ _ := True
  guar_refl _ := trivial
  guar_trans _ _ := trivial
  same_refl _ _ := trivial
  same_trans _ _ := trivial
  inv_same _ _ := trivial

variable [DecidableEq L]

/-- A function that is called. It gives back the locks it takes, and no others. -/
structure Callee (L σ : Type) [DecidableEq L] where
  prog : Prog L σ Unit
  tidy : ∀ h s, prog.Obeys (anyState L σ) (fun _ h' _ => h'.Perm h) h s

/-- The statements of a function, as far as they matter to its scoped locks. An object is named by
    its position among those that exist, the one declared last being the first. -/
inductive Stmt (L σ : Type) [DecidableEq L]
  | skip
  | declare (mutex : L) (mode : LockMode)
  | lock (i : ℕ)
  | unlock (i : ℕ)
  | access (f : σ → σ)
  | call (f : Callee L σ)
  | throw
  | return
  | seq (a b : Stmt L σ)
  | cond (c : σ → Bool) (a b : Stmt L σ)
  | loop (n : σ → ℕ) (body : Stmt L σ)
  | block (body : Stmt L σ)
  | tryCatch (body handler : Stmt L σ)

/-- How a statement ends. -/
inductive Exit
  | normal
  | thrown
  | returned
  deriving DecidableEq

namespace Stmt

/-- A method of the `i`-th object. -/
def onObject (method : ScopedLock L → Prog L σ (ScopedLock L)) (i : ℕ)
    (objects : List (ScopedLock L)) : Prog L σ (List (ScopedLock L)) :=
  match objects[i]? with
  | some s => do return objects.set i (← method s)
  | none => return objects

/-- The end of a scope that was entered with `n` objects. -/
def leave (n : ℕ) : List (ScopedLock L) → Prog L σ (List (ScopedLock L))
  | [] => return []
  | s :: objects => do
      if objects.length < n then return s :: objects
      s.destroy
      leave n objects

/-- The rounds of a loop. -/
def rounds (body : List (ScopedLock L) → Prog L σ (List (ScopedLock L) × Exit)) :
    ℕ → List (ScopedLock L) → Prog L σ (List (ScopedLock L) × Exit)
  | 0, objects => return (objects, .normal)
  | n + 1, objects => do
      let r ← body objects
      if r.2 = .normal then rounds body n r.1 else return r

/-- A scope. -/
def scope (body : List (ScopedLock L) → Prog L σ (List (ScopedLock L) × Exit))
    (objects : List (ScopedLock L)) : Prog L σ (List (ScopedLock L) × Exit) := do
  let r ← body objects
  return (← leave objects.length r.1, r.2)

/-- The program of a statement, from the objects that exist to those that exist after it. -/
def exec : Stmt L σ → List (ScopedLock L) → Prog L σ (List (ScopedLock L) × Exit)
  | skip, objects => return (objects, .normal)
  | declare mutex mode, objects => do return ((← ScopedLock.new mutex mode) :: objects, .normal)
  | lock i, objects => do return (← onObject ScopedLock.lock i objects, .normal)
  | unlock i, objects => do return (← onObject ScopedLock.unlock i objects, .normal)
  | access f, objects => do
      Prog.modify f
      return (objects, .normal)
  | call f, objects => do
      f.prog
      return (objects, .normal)
  | throw, objects => return (objects, .thrown)
  | .return, objects => return (objects, .returned)
  | seq a b, objects => do
      let r ← a.exec objects
      if r.2 = .normal then b.exec r.1 else return r
  | cond c a b, objects => do
      if c (← Prog.get) then a.exec objects else b.exec objects
  | loop n body, objects => do
      let s ← Prog.get
      rounds (scope body.exec) (n s) objects
  | block body, objects => scope body.exec objects
  | tryCatch body handler, objects => do
      let r ← scope body.exec objects
      if r.2 = .thrown then scope handler.exec r.1 else return r

/-- A function with this body. -/
def run (body : Stmt L σ) : Prog L σ Unit := (scope body.exec []).dropped

end Stmt

/-! ## What is given back -/

/-- Whatever the callers hold, a program that starts with what `objects` hold gives back only that,
    and ends with what those hold that are left. -/
def Tidy {α : Type} (objects : List (ScopedLock L)) (p : Prog L σ α)
    (left : α → List (ScopedLock L)) : Prop :=
  ∀ callers h s, h.Perm (heldBy objects ++ callers) →
    p.Obeys (anyState L σ) (fun a h' _ => h'.Perm (heldBy (left a) ++ callers)) h s

section
variable {α β : Type} {objects objects' : List (ScopedLock L)} {left : α → List (ScopedLock L)}

theorem tidy_pure {a : α} (h : objects.Perm (left a)) :
    Tidy objects (Pure.pure a : Prog L σ α) left :=
  fun callers _ _ hh _ _ => hh.trans ((heldBy_perm h).append_right callers)

theorem Tidy.bind {left' : β → List (ScopedLock L)} {p : Prog L σ α} {g : α → Prog L σ β}
    (hp : Tidy objects p left) (hg : ∀ a, Tidy (left a) (g a) left') :
    Tidy objects (p >>= g) left' :=
  fun callers h s hh => ((hp callers h s hh).mono fun a h' s' hh' => hg a callers h' s' hh').bind

/-- The order of the objects does not matter. -/
theorem Tidy.perm {p : Prog L σ α} (hp : Tidy objects p left) (h : objects'.Perm objects) :
    Tidy objects' p left :=
  fun callers h' s hh => hp callers h' s (hh.trans ((heldBy_perm h).append_right callers))

theorem tidy_access {f : σ → σ} {k : σ → Prog L σ α} (hk : ∀ s, Tidy objects (k s) left) :
    Tidy objects (.access f k) left :=
  fun callers h _ hh s' _ => ⟨trivial, fun _ _ => trivial, hk s' callers h (f s') hh⟩

theorem tidy_call (f : Callee L σ) : Tidy objects f.prog fun _ => objects :=
  fun _ h s hh => (f.tidy h s).mono fun _ _ _ h' => h'.trans hh

end

namespace ScopedLock

variable (objects : List (ScopedLock L))

theorem new_tidy (mutex : L) (mode : LockMode) :
    Tidy objects (new mutex mode : Prog L σ (ScopedLock L)) (· :: objects) :=
  fun _ _ _ hh _ _ _ _ _ => hh.cons _

theorem lock_tidy (s : ScopedLock L) :
    Tidy (s :: objects) (s.lock : Prog L σ (ScopedLock L)) (· :: objects) := by
  unfold lock
  cases hs : s.m_locked with
  | true => exact tidy_pure (.refl _)
  | false =>
      intro callers h _ hh _ _ _ _ _
      rw [heldBy_unlocked hs] at hh
      exact hh.cons _

/-- What is held is given back. -/
theorem release_tidy {α : Type} {s : ScopedLock L} (hs : s.m_locked = true) {p : Prog L σ α}
    {left : α → List (ScopedLock L)} (hp : Tidy objects p left) :
    Tidy (s :: objects) (.release s.m_mutex s.mode p) left := by
  intro callers h _ hh
  rw [heldBy_locked hs] at hh
  refine ⟨hh.mem_iff.2 List.mem_cons_self, fun s' _ => ⟨fun _ => trivial, hp callers _ s' ?_⟩⟩
  have hrest := hh.erase (s.m_mutex, s.mode)
  rwa [List.cons_append, List.erase_cons_head] at hrest

theorem unlock_tidy (s : ScopedLock L) :
    Tidy (s :: objects) (s.unlock : Prog L σ (ScopedLock L)) (· :: objects) := by
  unfold unlock
  cases hs : s.m_locked with
  | false => exact tidy_pure (.refl _)
  | true =>
      refine release_tidy objects hs fun callers h _ hh _ _ => ?_
      show h.Perm (heldBy ({ s with m_locked := false } :: objects) ++ callers)
      rwa [heldBy_unlocked rfl]

theorem destroy_tidy (s : ScopedLock L) :
    Tidy (s :: objects) (s.destroy : Prog L σ Unit) fun _ => objects := by
  unfold destroy unlock
  cases hs : s.m_locked with
  | true => exact release_tidy objects hs fun callers h _ hh _ _ => hh
  | false =>
      intro callers h _ hh _ _
      rwa [heldBy_unlocked hs] at hh

end ScopedLock

namespace Stmt

theorem onObject_tidy {method : ScopedLock L → Prog L σ (ScopedLock L)}
    (hmethod : ∀ s objects, Tidy (s :: objects) (method s) (· :: objects)) (i : ℕ)
    (objects : List (ScopedLock L)) : Tidy objects (onObject method i objects) id := by
  unfold onObject
  cases hi : objects[i]? with
  | none => exact tidy_pure (.refl _)
  | some s =>
      obtain ⟨hlt, rfl⟩ := List.getElem?_eq_some_iff.1 hi
      have hfirst : objects.Perm (objects[i] :: objects.eraseIdx i) :=
        (List.getElem_cons_eraseIdx_perm hlt).symm
      refine ((hmethod _ _).perm hfirst).bind fun s' => tidy_pure ?_
      exact (List.set_perm_cons_eraseIdx hlt s').symm

theorem leave_tidy (n : ℕ) (objects : List (ScopedLock L)) :
    Tidy objects (leave n objects : Prog L σ _) id := by
  induction objects with
  | nil => exact tidy_pure (.refl _)
  | cons s objects ih =>
      unfold leave
      split
      · exact tidy_pure (.refl _)
      · exact (ScopedLock.destroy_tidy objects s).bind fun _ => ih

/-- At the end of the body of a function no object is left. -/
theorem leave_all_tidy (objects : List (ScopedLock L)) :
    Tidy objects (leave 0 objects : Prog L σ _) fun _ => [] := by
  induction objects with
  | nil => exact tidy_pure (.refl _)
  | cons s objects ih =>
      unfold leave
      rw [if_neg (Nat.not_lt_zero _)]
      exact (ScopedLock.destroy_tidy objects s).bind fun _ => ih

theorem scope_tidy {body : List (ScopedLock L) → Prog L σ (List (ScopedLock L) × Exit)}
    (hbody : ∀ objects, Tidy objects (body objects) Prod.fst) (objects : List (ScopedLock L)) :
    Tidy objects (scope body objects) Prod.fst :=
  (hbody objects).bind fun r => (leave_tidy objects.length r.1).bind fun _ => tidy_pure (.refl _)

theorem rounds_tidy {body : List (ScopedLock L) → Prog L σ (List (ScopedLock L) × Exit)}
    (hbody : ∀ objects, Tidy objects (body objects) Prod.fst) (n : ℕ) :
    ∀ objects, Tidy objects (rounds body n objects) Prod.fst := by
  induction n with
  | zero => exact fun objects => tidy_pure (.refl _)
  | succ n ih =>
      intro objects
      refine (hbody objects).bind fun r => ?_
      split
      · exact ih r.1
      · exact tidy_pure (.refl _)

theorem exec_tidy (st : Stmt L σ) : ∀ objects, Tidy objects (st.exec objects) Prod.fst := by
  induction st with
  | skip | throw | «return» => exact fun objects => tidy_pure (.refl _)
  | declare mutex mode =>
      exact fun objects => (ScopedLock.new_tidy objects mutex mode).bind fun _ => tidy_pure (.refl _)
  | lock i =>
      intro objects
      exact (onObject_tidy (fun s objects => ScopedLock.lock_tidy objects s) i objects).bind
        fun _ => tidy_pure (.refl _)
  | unlock i =>
      intro objects
      exact (onObject_tidy (fun s objects => ScopedLock.unlock_tidy objects s) i objects).bind
        fun _ => tidy_pure (.refl _)
  | access f => exact fun objects => tidy_access fun _ => tidy_pure (.refl _)
  | call f => exact fun objects => (tidy_call f).bind fun _ => tidy_pure (.refl _)
  | seq a b iha ihb =>
      intro objects
      refine (iha objects).bind fun r => ?_
      split
      · exact ihb r.1
      · exact tidy_pure (.refl _)
  | cond c a b iha ihb =>
      intro objects
      refine tidy_access fun s => ?_
      show Tidy objects (if c s then a.exec objects else b.exec objects) Prod.fst
      split
      · exact iha objects
      · exact ihb objects
  | loop n body ih =>
      exact fun objects => tidy_access fun s => rounds_tidy (scope_tidy ih) (n s) objects
  | block body ih => exact scope_tidy ih
  | tryCatch body handler ihb ihh =>
      intro objects
      refine (scope_tidy ihb objects).bind fun r => ?_
      split
      · exact scope_tidy ihh r.1
      · exact tidy_pure (.refl _)

/-- A function gives back what it takes, however it is left. -/
theorem run_tidy (body : Stmt L σ) (h : List (L × LockMode)) (s : σ) :
    body.run.Obeys (anyState L σ) (fun _ h' _ => h'.Perm h) h s := by
  have hscope : Tidy [] (scope body.exec []) fun _ => ([] : List (ScopedLock L)) :=
    (exec_tidy body []).bind fun r => (leave_all_tidy r.1).bind fun _ => tidy_pure (.refl _)
  have hrun : Tidy [] body.run fun _ => ([] : List (ScopedLock L)) :=
    hscope.bind fun _ => tidy_pure (.refl _)
  exact hrun h h s (.refl _)

/-- So other functions can call it. -/
def callee (body : Stmt L σ) : Callee L σ := ⟨body.run, run_tidy body⟩

/-- A scope that has one object is a `Prog.locked`. -/
theorem run_declare (mutex : L) (mode : LockMode) (f : Callee L σ) :
    (seq (declare mutex mode) (call f)).run = Prog.locked mutex mode f.prog := by
  have hbody : (seq (declare mutex mode) (call f)).exec [] = .acquire mutex mode
      (f.prog.bind fun _ => .pure ([⟨mutex, mode, true⟩], .normal)) := rfl
  rw [run, scope, hbody]
  exact congrArg (Prog.acquire mutex mode)
    ((Prog.bind_assoc ..).trans ((Prog.bind_assoc ..).trans rfl))

/-! ## Spin locks -/

/-- **`CASLock` is a lock.** `CASLock::lock` tests and sets its flag until it was clear, and
`CASLock::unlock` clears it, no matter who holds it. Let any number of threads run functions that
lock such mutexes through scoped locks, in any interleaving. Whatever they get to, they get to with
locks that only one thread can hold; a flag is set while a thread holds its lock, and once the
functions have returned, no flag is set. -/
theorem casLock_refines {θ : Type} [DecidableEq θ] {s : σ} {c : SpinPool θ L σ}
    (hc : SpinPool.Reachable (Set.range run) (SpinPool.idle s) c) :
    ∃ d, Pool.Reachable (Set.range run) (Pool.idle s) d ∧ c.Refines d ∧
      ((∀ t, c.prog t = .pure ()) → ∀ l, c.flag l = false) := by
  have hops : ∀ p ∈ Set.range (run (L := L) (σ := σ)), ∀ s', (anyState L σ).guar s s' →
      p.Obeys (anyState L σ) (fun _ h _ => h = []) [] s' := by
    rintro _ ⟨body, rfl⟩ s' -
    exact (run_tidy body [] s').mono fun _ _ _ h => h.eq_nil
  obtain ⟨d, hd, hrefines⟩ := SpinPool.refines (fun _ => trivial) hops hc
  refine ⟨d, hd, hrefines, fun hdone l => ?_⟩
  by_contra hset
  obtain ⟨t, ht⟩ := (hrefines.flag l).1 (by simpa using hset)
  -- a function that has returned holds nothing
  have hobeys := (Pool.obeying hops (fun _ => trivial) hd).obeys t
  rw [hrefines.prog, hdone t] at hobeys
  rw [hobeys d.shared (.refl _ _)] at ht
  exact absurd ht List.not_mem_nil

def countUp : Stmt Unit ℕ := access fun count => count + 1

/-- A function that counts under a lock. -/
def countLocked : Stmt Unit ℕ := seq (declare () .exclusive) (call countUp.callee)

/-- One of two threads has the lock, the other one has tried once. -/
theorem casLock_refines_sample : ∃ c : SpinPool Bool Unit ℕ, c.flag () = true ∧
    ∃ d, Pool.Reachable (Set.range run) (Pool.idle 0) d ∧ c.Refines d := by
  have hreached : ∃ c : SpinPool Bool Unit ℕ,
      SpinPool.Reachable (Set.range run) (SpinPool.idle 0) c ∧ c.flag () = true :=
    ⟨_, .tail (.tail (.tail (.tail .refl (.start false rfl ⟨countLocked, rfl⟩))
      (.testAndSet false rfl)) (.start true rfl ⟨countLocked, rfl⟩)) (.testAndSet true rfl), rfl⟩
  obtain ⟨c, hc, hflag⟩ := hreached
  obtain ⟨d, hd, hrefines, -⟩ := casLock_refines hc
  exact ⟨c, hflag, d, hd, hrefines⟩

end Stmt

end Ipmsg
