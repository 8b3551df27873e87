import Ipmsg.Fiber.ThreadsRuns
import Mathlib.Data.List.TFAE
import Mathlib.Tactic.TFAE

set_option autoImplicit false

/-! # What the states of fibers do not say

A yield function sets the state of a fiber before `swapcontext` fills its context. In between,
another thread may find the fiber in state `HOLD` and swap it in: it goes on where the fiber was
swapped in before, on a stack the first thread is still on. So the states tell which fibers nobody
works on only where there is one thread. -/

namespace Ipmsg

variable {θ A : Type} [DecidableEq θ] [DecidableEq A]

namespace FiberThreads

open FiberObject FiberThread

/-- The fiber that an operation takes or destroys. -/
def taken : ThreadsLabel θ A → Option FiberPtr
  | .main _ (.swapIn f) => some f
  | .main _ (.reset f _) => some f
  | .main _ (.destroy f) => some f
  | _ => none

/-- A step meets what is stated of `Fiber`, and takes or destroys a fiber only if no thread is
constructing, resetting or swapping it in, up to the switch. A thread may still be leaving it. -/
def Untargeted (s : FiberThreads θ A) (l : ThreadsLabel θ A) : Prop :=
  s.Stated l ∧ ∀ f, taken l = some f → ∀ t, (s.threads t).point.target ≠ some f

/-- In runs whose steps meet `G`, a fiber that is taken or destroyed is one that nobody works on. -/
def Tells (G : FiberThreads θ A → ThreadsLabel θ A → Prop) : Prop :=
  ∀ labels s l s', Along step G init labels → exec step init labels = some s → G s l →
    s.step l = some s' → s.TakesUnused l

/-- In runs whose steps meet `G`, no two threads are on one stack. -/
def KeepsApart (G : FiberThreads θ A → ThreadsLabel θ A → Prop) : Prop :=
  ∀ labels s, Along step G init labels → exec step init labels = some s →
    ∀ t u f, s.Runs t f → s.Runs u f → t = u

/-! ## One thread -/

/-- The only thread, at home, works on its main fiber only. -/
theorem Inv.takesUnused [Subsingleton θ] {hist : List (ThreadsLabel θ A)} {s s' : FiberThreads θ A}
    {l : ThreadsLabel θ A} (h : Inv hist s) (hstated : s.Stated l) (hstep : s.step l = some s') :
    s.TakesUnused l := by
  have hunused : ∀ {t op f x}, s.step (.main t op) = some s' → s.fiber f = some x →
      x.m_stack = true → s.Unused f := by
    intro t op f x hs hx hstack u huses
    obtain rfl := Subsingleton.elim t u
    obtain ⟨t', n, hpoint, -⟩ := step_main hs
    obtain ⟨-, -, hhome⟩ := h.at_main hpoint
    have hm : (s.threads t).t_threadFiber = some f := by
      refine (uses_iff_main ?_ ?_).1 huses
      · rw [hpoint]
        rfl
      · rw [hpoint]
        exact (Option.some_ne_none f).symm
    rcases hhome with ⟨-, hnone⟩ | ⟨m, z, r, -, hmain, hobj, hz⟩
    · exact absurd (hnone.symm.trans hm) (Option.some_ne_none f).symm
    · obtain rfl := Option.some.inj (hmain.symm.trans hm)
      obtain rfl := Option.some.inj ((heapOf_eq.1 hobj).1.symm.trans (fiber_eq_some.1 hx).1)
      exact absurd (hz.stack.symm.trans hstack) (by simp)
  cases l with
  | act t f a => trivial
  | go t => trivial
  | main t op =>
      cases op with
      | swapIn f =>
          obtain ⟨-, x, hx, hstack, -⟩ := hstated
          exact hunused hstep hx hstack
      | reset f cb =>
          obtain ⟨x, hx, hstack, -⟩ := hstated
          exact hunused hstep hx hstack
      | destroy f =>
          obtain ⟨x, hx, hstack, -⟩ := hstated
          exact hunused hstep hx hstack
      | getThis => trivial
      | construct f cb => trivial
      | yieldToReady => trivial
      | yieldToHold => trivial
      | exit => trivial
      | step a => trivial

theorem tells_of_subsingleton [Subsingleton θ] : Tells (θ := θ) (A := A) Stated := by
  intro labels s l s' halong hrun hstated hstep
  have h : Inv labels s := exec_history Inv
    (fun _ _ _ _ h hg hs => h.step hg (h.takesUnused hg hs) hs) [] Inv.init halong hrun
  exact h.takesUnused hstated hstep

/-! ## Two threads -/

section
variable {s s' : FiberThreads θ A} {v : θ} {n : ℕ} {f m : FiberPtr} {x z : FiberObject θ A}
  {cb : Callback A}

theorem go_eq {p : Point θ A} (hpoint : (s.threads v).point = p) (hbusy : p.busy = true)
    (haccess : s.access v p = .ok s') : s.step (.go v) = some s' := by
  subst hpoint
  simp only [step, hbusy, if_true, haccess, settle]

/-- `swapIn`, from its call to where the fiber goes on. -/
def swapsIn (v : θ) (f : FiberPtr) : List (ThreadsLabel θ A) :=
  [.main v (.swapIn f), .go v, .go v, .go v, .go v]

/-- A thread that swaps in a fiber goes on at the context of the fiber, as it is then. -/
theorem exec_swapsIn (hpoint : (s.threads v).point = .code (.main v n))
    (hm : (s.threads v).t_threadFiber = some m) (hx : s.objects f = some x)
    (halive : x.freed = false) (hz : s.objects m = some z) (hmain : z.freed = false) (hne : m ≠ f)
    (hexec : x.m_state ≠ .exec) :
    ∃ s', exec step s (swapsIn v f) = some s' ∧
      s'.threads v = ⟨some f, some m, .code x.m_ctx⟩ ∧ (∀ w, w ≠ v → s'.threads w = s.threads w) ∧
      s'.objects f = some { x with m_state := .exec } ∧
      ∀ g, g ≠ f → g ≠ m → s'.objects g = s.objects g := by
  -- the states between the accesses
  let k : Code θ A := .main v (n + 1)
  let s₁ := s.swapIn v f k
  let s₂ := s₁.setPoint v (.swapInExec f k)
  let s₃ := (s₂.modify f fun x => { x with m_state := .exec }).setPoint v (.save m f k)
  let s₄ := (s₃.modify m fun z => { z with m_ctx := k }).setPoint v (.load m f k)
  have hx₃ : s₃.objects f = some { x with m_state := .exec } := modify_objects_self _ hx
  have hz₃ : s₃.objects m = some z := (modify_objects_of_ne _ hne).trans hz
  have hx₄ : s₄.objects f = some { x with m_state := .exec } :=
    (modify_objects_of_ne _ hne.symm).trans hx₃
  have hm₁ : (s₁.threads v).t_threadFiber = some m := by simp [s₁, swapIn, hm]
  have hm₂ : (s₂.threads v).t_threadFiber = some m := by simp [s₂, hm₁]
  have h₁ : s.step (.main v (.swapIn f)) = some s₁ := by
    simp only [step, hpoint, freshFor, if_true, mainOp, settle]
    rfl
  have h₂ : s₁.step (.go v) = some s₂ := by
    refine go_eq (p := .swapIn f k) (by simp [s₁, swapIn]) rfl ?_
    have hd : s₁.deref f = .ok x := deref_eq hx halive
    simp only [access, hd, Fibers.assertMacro_ok hexec, bind, Except.bind, pure, Except.pure]
    rfl
  have h₃ : s₂.step (.go v) = some s₃ := by
    refine go_eq (p := .swapInExec f k) (by simp [s₂]) rfl ?_
    have hd : s₂.deref f = .ok x := deref_eq hx halive
    simp only [access, hd, hm₂, bind, Except.bind, pure, Except.pure]
    rfl
  have h₄ : s₃.step (.go v) = some s₄ := by
    refine go_eq (p := .save m f k) (by simp [s₃]) rfl ?_
    simp only [access, deref_eq hz₃ hmain, bind, Except.bind, pure, Except.pure]
    rfl
  have h₅ : s₄.step (.go v) = some (s₄.goto v x.m_ctx) := by
    refine go_eq (p := .load m f k) (by simp [s₄]) rfl ?_
    simp only [access, deref_eq hx₄ halive, bind, Except.bind, pure, Except.pure]
  refine ⟨s₄.goto v x.m_ctx, ?_, ?_, fun w hw => ?_, hx₄, fun g hgf hgm => ?_⟩
  · simp only [swapsIn, exec_cons, h₁, h₂, h₃, h₄, h₅, Option.bind_some, exec_nil]
  · simp [s₄, s₃, s₂, s₁, swapIn, hm]
  · simp [s₄, s₃, s₂, s₁, swapIn, hw]
  · exact (modify_objects_of_ne _ hgm).trans (modify_objects_of_ne _ hgf)

/-- `MainFunc` and a callback that yields, up to the `swapcontext`. -/
def yields (v : θ) (f : FiberPtr) : List (ThreadsLabel θ A) :=
  [.go v, .act v f .yieldToHold, .go v, .go v]

/-- The fiber is in state `HOLD` and its context is still that of its start. -/
theorem exec_yields (hthread : s.threads v = ⟨some f, some m, .code (.mainFunc f)⟩)
    (hx : s.objects f = some x) (halive : x.freed = false) (hcb : x.m_cb = some cb)
    (hexec : x.m_state = .exec) (hyield : cb 0 = .yieldToHold) :
    ∃ s', exec step s (yields v f) = some s' ∧
      s'.threads v = ⟨some m, some m, .save f m (.callback f f cb 1)⟩ ∧
      (∀ w, w ≠ v → s'.threads w = s.threads w) ∧
      s'.objects f = some { x with m_state := .hold } ∧
      ∀ g, g ≠ f → s'.objects g = s.objects g := by
  let k : Code θ A := .callback f f cb 1
  let s₁ := s.goto v (.callback f f cb 0)
  let s₂ := s₁.setPoint v (.yieldTo .hold f k)
  let s₃ := s₂.setPoint v (.leave .hold f k)
  let s₄ := ((s₃.modify f fun x => { x with m_state := .hold }).setThis v (some m)).setPoint v
    (.save f m k)
  have hcur : (s.threads v).t_fiber = some f := by rw [hthread]
  have hcur₁ : (s₁.threads v).t_fiber = some f := by simp [s₁, hthread]
  have hm₃ : (s₃.threads v).t_threadFiber = some m := by simp [s₃, s₂, s₁, hthread]
  have h₁ : s.step (.go v) = some s₁ := by
    refine go_eq (p := .code (.mainFunc f)) (by rw [hthread]) rfl ?_
    simp only [access, mainFunc, getThis_eq hcur hx halive, deref_eq hx halive, hcb, bind,
      Except.bind, pure, Except.pure]
    rfl
  have h₂ : s₁.step (.act v f .yieldToHold) = some s₂ := by
    have hpoint : (s₁.threads v).point = .code (.callback f f cb 0) := by simp [s₁]
    have hget : s₁.getThis v = .ok (s₁, f) := getThis_eq hcur₁ hx halive
    simp only [step, hpoint, hyield, and_self, if_true, cbAction, yieldTo, hget, settle, bind,
      Except.bind, pure, Except.pure]
    rfl
  have h₃ : s₂.step (.go v) = some s₃ := by
    refine go_eq (p := .yieldTo .hold f k) (by simp [s₂]) rfl ?_
    have hd : s₂.deref f = .ok x := deref_eq hx halive
    simp only [access, hd, Fibers.assertMacro_ok hexec, bind, Except.bind, pure, Except.pure]
    rfl
  have h₄ : s₃.step (.go v) = some s₄ := by
    refine go_eq (p := .leave .hold f k) (by simp [s₃]) rfl ?_
    have hd : s₃.deref f = .ok x := deref_eq hx halive
    simp only [access, hd, swapOut, modify_threads, hm₃, bind, Except.bind]
    rfl
  refine ⟨s₄, ?_, ?_, fun w hw => ?_, modify_objects_self _ hx, fun g hg => ?_⟩
  · simp only [yields, exec_cons, h₁, h₂, h₃, h₄, Option.bind_some, exec_nil]
  · simp [s₄, s₃, s₂, s₁, hthread, k]
  · simp [s₄, s₃, s₂, s₁, hw]
  · exact modify_objects_of_ne _ hg

end

section
variable {t u : θ} (htu : t ≠ u) (cb : Callback A)

/-- Two threads call into `Fiber`, and the first makes a fiber. -/
def starts (t u : θ) (cb : Callback A) : List (ThreadsLabel θ A) :=
  [.main t .getThis, .main u .getThis, .main t (.construct 2 cb), .go t]

include htu in
theorem exec_starts : ∃ s, exec step init (starts t u cb) = some s ∧
    s.threads t = ⟨some 0, some 0, .code (.main t 2)⟩ ∧
    s.threads u = ⟨some 1, some 1, .code (.main u 1)⟩ ∧
    (∀ w, (s.threads w).point.target = none) ∧
    (∃ z, s.objects 0 = some z ∧ z.IsMain) ∧ (∃ z, s.objects 1 = some z ∧ z.IsMain) ∧
    s.objects 2 = some ⟨1, .init, .mainFunc 2, true, some cb, false⟩ := by
  let x : FiberObject θ A := ⟨1, .init, .mainFunc 2, true, some cb, false⟩
  let s₁ : FiberThreads θ A := (init.born t).goto t (.main t 1)
  let s₂ := (s₁.born u).goto u (.main u 1)
  let s₃ := s₂.newFiber t 2 cb (.main t 2)
  let s₄ := (s₃.setObject 2 (some x)).countUp.goto t (.main t 2)
  have hnext : s₂.next = 2 := rfl
  have hid : s₂.s_fiber_id = 0 := rfl
  have ht₁ : s₁.threads t = ⟨some 0, some 0, .code (.main t 1)⟩ := by
    rw [goto_threads_self, born_threads_self]
    rfl
  have hother₁ : ∀ w, w ≠ t → s₁.threads w = init.threads w := fun w hw => by
    rw [goto_threads_of_ne _ hw, born_threads_of_ne hw]
  have hu₁ : s₁.threads u = ⟨none, none, .code (.main u 0)⟩ := hother₁ u htu.symm
  have hu₂ : s₂.threads u = ⟨some 1, some 1, .code (.main u 1)⟩ := by
    rw [goto_threads_self, born_threads_self]
    rfl
  have hother₂ : ∀ w, w ≠ u → s₂.threads w = s₁.threads w := fun w hw => by
    rw [goto_threads_of_ne _ hw, born_threads_of_ne hw]
  have ht₂ : s₂.threads t = ⟨some 0, some 0, .code (.main t 1)⟩ := (hother₂ t htu).trans ht₁
  have h₁ : init.step (.main t .getThis) = some s₁ := by
    have hget : (init : FiberThreads θ A).getThis t = .ok (init.born t, 0) := getThis_new rfl
    have hpoint : ((init : FiberThreads θ A).threads t).point = .code (.main t 0) := rfl
    simp only [step, hpoint, freshFor, if_true, mainOp, hget, settle, bind, Except.bind, pure,
      Except.pure]
    rfl
  have h₂ : s₁.step (.main u .getThis) = some s₂ := by
    have hget : s₁.getThis u = .ok (s₁.born u, 1) := getThis_new (by rw [hu₁])
    simp only [step, hu₁, freshFor, if_true, mainOp, hget, settle, bind, Except.bind, pure,
      Except.pure]
    rfl
  have h₃ : s₂.step (.main t (.construct 2 cb)) = some s₃ := by
    simp only [step, ht₂, freshFor, hnext, decide_true, if_true, mainOp, settle]
    rfl
  have h₄ : s₃.step (.go t) = some s₄ := by
    refine go_eq (p := .newFiber 2 1 cb (.main t 2)) (by simp [s₃, newFiber, hid]) rfl rfl
  refine ⟨s₄, ?_, ?_, ?_, fun w => ?_, ?_, ?_, ?_⟩
  · simp only [starts, exec_cons, h₁, h₂, h₃, h₄, Option.bind_some, exec_nil]
  · simp [s₄, s₃, newFiber, ht₂]
  · simp [s₄, s₃, newFiber, htu.symm, hu₂]
  · by_cases hw : w = t
    · simp [s₄, hw, Point.target]
    · by_cases hw' : w = u
      · simp [s₄, s₃, newFiber, hw', htu.symm, hu₂, Point.target]
      · simp [s₄, s₃, newFiber, hw, hother₂ w hw', hother₁ w hw, init, Point.target]
  · obtain ⟨z, hz, hmain⟩ := born_objects_self (init : FiberThreads θ A) t
    exact ⟨z, hz, hmain⟩
  · obtain ⟨z, hz, hmain⟩ := born_objects_self s₁ u
    exact ⟨z, hz, hmain⟩
  · exact (setObject_objects_self (some x) : (s₃.setObject 2 (some x)).objects 2 = some x)

/-- Steps that take no fiber. -/
theorem along_untargeted {labels : List (ThreadsLabel θ A)}
    (h : ∀ l ∈ labels, taken l = none ∧ ∀ s : FiberThreads θ A, s.Stated l)
    (s : FiberThreads θ A) : Along step Untargeted s labels := by
  refine (along_of_mem h s).mono fun s l hl => ⟨hl.2 s, fun f hf => ?_⟩
  rw [hl.1] at hf
  exact absurd hf.symm (Option.some_ne_none f)

theorem along_swapsIn {s : FiberThreads θ A} {v : θ} {f : FiberPtr}
    (h : s.Untargeted (.main v (.swapIn f))) : Along step Untargeted s (swapsIn v f) :=
  ⟨h, fun s' _ => along_untargeted (by simp [taken, Stated]) s'⟩

include htu in
/-- **The race.** One thread has yielded from a fiber and is still on its stack, before the
`swapcontext`; another swaps the fiber in. -/
theorem race : ∃ labels, ∃ s s' : FiberThreads θ A, Along step Untargeted init labels ∧
    exec step init labels = some s ∧ s.Runs t 2 ∧ s.Untargeted (.main u (.swapIn 2)) ∧
    exec step s (swapsIn u 2) = some s' ∧ s'.Runs t 2 ∧ s'.Runs u 2 := by
  obtain ⟨s₁, hs₁, ht₁, hu₁, htarget, ⟨z, hz, hzmain⟩, ⟨y, hy, hymain⟩, hx₁⟩ :=
    exec_starts (A := A) htu fun _ => .yieldToHold
  obtain ⟨s₂, hs₂, ht₂, hother₂, hx₂, hobj₂⟩ := exec_swapsIn (s := s₁) (v := t) (n := 2)
    (by rw [ht₁]) (by rw [ht₁]) hx₁ rfl hz hzmain.alive (by decide) (by simp)
  obtain ⟨s₃, hs₃, ht₃, hother₃, hx₃, hobj₃⟩ := exec_yields ht₂ hx₂ rfl rfl rfl rfl
  have hother : ∀ w, w ≠ t → s₃.threads w = s₁.threads w := fun w hw =>
    (hother₃ w hw).trans (hother₂ w hw)
  have hu₃ := (hother u htu.symm).trans hu₁
  have hy₃ : s₃.objects 1 = some y :=
    (hobj₃ 1 (by decide)).trans ((hobj₂ 1 (by decide) (by decide)).trans hy)
  obtain ⟨s₄, hs₄, hu₄, hother₄, -, -⟩ := exec_swapsIn (s := s₃) (v := u) (n := 1)
    (by rw [hu₃]) (by rw [hu₃]) hx₃ rfl hy₃ hymain.alive (by decide) (by simp)
  have huntargeted₁ : s₁.Untargeted (.main t (.swapIn 2)) := by
    refine ⟨⟨by rw [ht₁]; rfl, _, fiber_eq_some.2 ⟨hx₁, rfl⟩, rfl, Or.inl rfl⟩, fun f _ w => ?_⟩
    rw [htarget w]
    exact (Option.some_ne_none f).symm
  have huntargeted₃ : s₃.Untargeted (.main u (.swapIn 2)) := by
    refine ⟨⟨by rw [hu₃]; rfl, _, fiber_eq_some.2 ⟨hx₃, rfl⟩, rfl, Or.inr (Or.inr rfl)⟩, ?_⟩
    intro f hf w
    obtain rfl : 2 = f := Option.some.inj hf
    by_cases hw : w = t
    · rw [hw, ht₃]
      exact fun heq => absurd (Option.some.inj heq) (by decide)
    · rw [hother w hw, htarget w]
      exact (Option.some_ne_none _).symm
  refine ⟨starts t u (fun _ => .yieldToHold) ++ (swapsIn t 2 ++ yields t 2), s₃, s₄, ?_, ?_, ?_,
    huntargeted₃, hs₄, ?_, ?_⟩
  · refine along_append.2 ⟨along_untargeted (by simp [starts, taken, Stated]) _, fun s hs => ?_⟩
    obtain rfl := Option.some.inj (hs₁.symm.trans hs)
    refine along_append.2 ⟨along_swapsIn huntargeted₁, fun s _ => along_untargeted ?_ s⟩
    simp [yields, taken, Stated]
  · rw [exec_append, hs₁, Option.bind_some, exec_append, hs₂, Option.bind_some, hs₃]
  · rw [Runs, ht₃]
    rfl
  · rw [Runs, hother₄ t htu, ht₃]
    rfl
  · rw [Runs, hu₄]
    rfl

end

/-- **What the states say.** The state of a fiber says whether somebody works on it exactly where
there is one thread. Where there are two, a fiber in state `HOLD` may still be left by the thread it
yielded in, while no thread constructs it, resets it or swaps it in; if another thread swaps it in
then, both threads are on its stack. -/
theorem tells_tfae : List.TFAE [Subsingleton θ, Tells (θ := θ) (A := A) Stated,
    Tells (θ := θ) (A := A) Untargeted, KeepsApart (θ := θ) (A := A) Stated,
    KeepsApart (θ := θ) (A := A) Untargeted] := by
  have hmono : ∀ {labels : List (ThreadsLabel θ A)} {s : FiberThreads θ A},
      Along step Untargeted s labels → Along step Stated s labels := Along.mono fun _ _ => And.left
  tfae_have 1 → 2 := fun _ => tells_of_subsingleton
  tfae_have 2 → 3 := fun h labels s l s' halong hrun hl hs =>
    h labels s l s' (hmono halong) hrun hl.1 hs
  tfae_have 3 → 1 := by
    intro h
    by_contra hmany
    obtain ⟨t, u, htu⟩ := not_subsingleton_iff_nontrivial.1 hmany
    -- before its second step, the thread that yielded still works on the fiber
    obtain ⟨labels, s, s', halong, hrun, ht, huntargeted, hswap, -⟩ := race (A := A) htu
    obtain ⟨s₁, hs₁, -⟩ := exec_cons_eq_some.1 hswap
    exact h labels s _ s₁ halong hrun huntargeted hs₁ t (Or.inr (Or.inl ht))
  tfae_have 1 → 4 := fun _ labels s _ _ t u _ _ _ => Subsingleton.elim t u
  tfae_have 4 → 5 := fun h labels s halong hrun => h labels s (hmono halong) hrun
  tfae_have 5 → 1 := by
    intro h
    by_contra hmany
    obtain ⟨t, u, htu⟩ := not_subsingleton_iff_nontrivial.1 hmany
    obtain ⟨labels, s, s', halong, hrun, -, huntargeted, hswap, ht, hu⟩ := race (A := A) htu
    refine htu (h (labels ++ swapsIn u 2) s' (along_append.2 ⟨halong, fun s₁ hs₁ => ?_⟩) ?_ t u 2 ht
      hu)
    · obtain rfl := Option.some.inj (hrun.symm.trans hs₁)
      exact along_swapsIn huntargeted
    · rw [exec_append, hrun, Option.bind_some, hswap]
  tfae_finish

end FiberThreads

end Ipmsg
