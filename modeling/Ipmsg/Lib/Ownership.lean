import Mathlib.Tactic.ByContra

set_option autoImplicit false

/-! # Objects that one thread at a time works on

Threads take objects of a common heap, work on them alone and put them back. `Ownership` says what a
thread has taken (`owns`), what a thread may rely on at the point it is at (`Works`), and what is
true of an object that nobody has taken (`Rests`). What a thread relies on is about its own objects,
so a step of another thread cannot disturb it: a step has to be checked against the thread that
takes it only. -/

variable {θ X K O : Type}

/-- How threads of states `X` share a heap with objects `O` at the keys `K`. -/
structure Ownership (θ X K O : Type) where
  owns : X → K → Prop
  Works : θ → X → (K → O) → Prop
  Rests : K → O → Prop
  frame : ∀ {t x h h'}, (∀ k, owns x k → h' k = h k) → Works t x h → Works t x h'

namespace Ownership

/-- Nobody has taken the object. -/
def Free (R : Ownership θ X K O) (threads : θ → X) (k : K) : Prop := ∀ t, ¬ R.owns (threads t) k

structure Inv (R : Ownership θ X K O) (threads : θ → X) (heap : K → O) : Prop where
  /-- No object is taken by two threads. -/
  alone : ∀ t u k, R.owns (threads t) k → R.owns (threads u) k → t = u
  works : ∀ t, R.Works t (threads t) heap
  rests : ∀ k, R.Free threads k → R.Rests k (heap k)

variable {R : Ownership θ X K O} {threads threads' : θ → X} {heap heap' : K → O}

/-- A thread that takes only what is free has it alone. -/
theorem Inv.alone_of_take (h : R.Inv threads heap) {t : θ}
    (hother : ∀ u, u ≠ t → threads' u = threads u)
    (htake : ∀ k, R.owns (threads' t) k → R.owns (threads t) k ∨ R.Free threads k) {u : θ} {k : K}
    (ht : R.owns (threads' t) k) (hu : R.owns (threads' u) k) : t = u := by
  by_contra hne
  rw [hother u (Ne.symm hne)] at hu
  rcases htake k ht with hold | hfree
  · exact hne (h.alone t u k hold hu)
  · exact hfree u hu

/-- **Local steps.** A thread takes free objects, changes only what it has, takes or finds free, and
what it puts back or leaves free rests: then all holds as before if the thread may go on. -/
theorem Inv.step (h : R.Inv threads heap) {t : θ} (hother : ∀ u, u ≠ t → threads' u = threads u)
    (htake : ∀ k, R.owns (threads' t) k → R.owns (threads t) k ∨ R.Free threads k)
    (hkeep : ∀ k, ¬ R.owns (threads t) k → ¬ R.owns (threads' t) k →
      heap' k = heap k ∨ R.Free threads k ∧ R.Rests k (heap' k))
    (hworks : R.Works t (threads' t) heap')
    (hrests : ∀ k, R.owns (threads t) k → ¬ R.owns (threads' t) k → R.Rests k (heap' k)) :
    R.Inv threads' heap' := by
  refine ⟨fun u v k hu hv => ?_, fun u => ?_, fun k hfree => ?_⟩
  · by_cases hut : u = t
    · subst hut
      exact h.alone_of_take hother htake hu hv
    · by_cases hvt : v = t
      · subst hvt
        exact (h.alone_of_take hother htake hv hu).symm
      · rw [hother u hut] at hu
        rw [hother v hvt] at hv
        exact h.alone u v k hu hv
  · by_cases hut : u = t
    · subst hut
      exact hworks
    · -- the objects of another thread are neither given to `t` nor changed by it
      rw [hother u hut]
      refine R.frame (fun k hk => ?_) (h.works u)
      refine (hkeep k (fun ht => ?_) fun ht => ?_).resolve_right fun hfree => hfree.1 u hk
      · exact hut (h.alone u t k hk ht)
      · have hk' : R.owns (threads' u) k := by rwa [hother u hut]
        exact hut (h.alone_of_take hother htake ht hk').symm
  · by_cases ht : R.owns (threads t) k
    · exact hrests k ht (hfree t)
    · rcases hkeep k ht (hfree t) with hk | ⟨-, hk⟩
      · rw [hk]
        refine h.rests k fun u hu => ?_
        by_cases hut : u = t
        · exact ht (hut ▸ hu)
        · exact hfree u (by rwa [hother u hut])
      · exact hk

end Ownership
