import Ipmsg.Fiber.Owners

set_option autoImplicit false

/-! # Every pointer is counted

The count of a fiber is the number of pointers to it, and where those are tells what it does: a
sub-fiber that waits or has finished has none on its stack, the executing one has the `cur` of
`MainFunc` there, and a suspended one also the `cur` of the yield it waits in. So the last pointer
to go, wherever it is let go, finds a fiber whose state `~Fiber` accepts. -/

namespace Ipmsg

variable {A : Type}

/-- The states in which `~Fiber` accepts a sub-fiber: its callback has not started or has ended. -/
def FiberState.AtRest (state : FiberState) : Prop :=
  state = .term ∨ state = .except ∨ state = .init

namespace Owned

/-! ## Lookups -/

section
variable (s : Owned A) (base : Fibers A) (f : FiberPtr) (n : ℕ) (ps : List FiberPtr)

@[simp] theorem withFibers_toFibers : (s.withFibers base).toFibers = base := rfl

@[simp] theorem withFibers_use_count : (s.withFibers base).use_count = s.use_count := rfl

@[simp] theorem withFibers_owners : (s.withFibers base).owners = s.owners := rfl

@[simp] theorem withFibers_locals : (s.withFibers base).locals = s.locals := rfl

@[simp] theorem withCount_toFibers : (s.withCount f n).toFibers = s.toFibers := rfl

@[simp] theorem withCount_use_count :
    (s.withCount f n).use_count = Function.update s.use_count f n := rfl

@[simp] theorem withCount_owners : (s.withCount f n).owners = s.owners := rfl

@[simp] theorem withCount_locals : (s.withCount f n).locals = s.locals := rfl

@[simp] theorem withOwners_toFibers : (s.withOwners f n).toFibers = s.toFibers := rfl

@[simp] theorem withOwners_use_count : (s.withOwners f n).use_count = s.use_count := rfl

@[simp] theorem withOwners_owners :
    (s.withOwners f n).owners = Function.update s.owners f n := rfl

@[simp] theorem withOwners_locals : (s.withOwners f n).locals = s.locals := rfl

@[simp] theorem withLocals_toFibers : (s.withLocals f ps).toFibers = s.toFibers := rfl

@[simp] theorem withLocals_use_count : (s.withLocals f ps).use_count = s.use_count := rfl

@[simp] theorem withLocals_owners : (s.withLocals f ps).owners = s.owners := rfl

@[simp] theorem withLocals_locals :
    (s.withLocals f ps).locals = Function.update s.locals f ps := rfl

end

/-! ## Counting -/

/-- A pointer in `t_threadFiber`. -/
def threadRefs (s : Owned A) (f : FiberPtr) : ℕ := if s.t_threadFiber = some f then 1 else 0

/-- The counts are right, and what only code outside `Fiber` holds is at rest. -/
structure Counted (s : Owned A) : Prop where
  count : ∀ f, s.use_count f = s.owners f + (s.locals f).length + s.threadRefs f
  own : ∀ f, ∀ p ∈ s.locals f, p = f
  unborn : ∀ f, s.fiber f = none → s.use_count f = 0
  stackless : ∀ f x, s.fiber f = some x → x.m_stack = false → s.t_threadFiber = some f
  rest : ∀ f x, s.fiber f = some x → x.m_stack = true → s.locals f = [] →
    s.control ≠ .running (.mainFunc f) → x.m_state.AtRest

section
variable {s : Owned A} {f : FiberPtr} {x : Fiber A}

/-- A destroyed sub-fiber was at rest. -/
theorem Counted.atRest (h : Counted s) (hx : s.fiber f = some x) (hstack : x.m_stack = true)
    (hgone : s.use_count f = 0) (hcontrol : s.control ≠ .running (.mainFunc f)) :
    x.m_state.AtRest := by
  have hcount := h.count f
  exact h.rest f x hx hstack (List.eq_nil_of_length_eq_zero (by omega)) hcontrol

theorem acquire_eq (h : 0 < s.use_count f) :
    s.acquire f = .ok (s.withCount f (s.use_count f + 1)) :=
  if_neg (by omega)

/-- The last pointer may go only where `~Fiber` accepts the state. -/
theorem release_eq (hpos : 0 < s.use_count f) (hlast : s.use_count f = 1 →
      ∃ x, s.fiber f = some x ∧ x.m_stack = true ∧ x.m_state.AtRest) :
    s.release f = .ok (s.withCount f (s.use_count f - 1)) := by
  rcases hcount : s.use_count f with _ | _ | n
  · omega
  · obtain ⟨x, hx, hstack, hstate⟩ := hlast hcount
    have hx' : (s.withCount f 0).fiber f = some x := hx
    simp only [release, hcount, destruct, Fibers.deref_some hx', hstack, if_true,
      Fibers.assertMacro_ok (show x.m_state = .term ∨ x.m_state = .except ∨ x.m_state = .init
        from hstate), bind, Except.bind, pure, Except.pure]
  · simp only [release, hcount, Nat.add_sub_cancel]

/-- An owner other than the last lets go. -/
theorem release_shared (h : 1 < s.use_count f) :
    s.release f = .ok (s.withCount f (s.use_count f - 1)) :=
  release_eq (by omega) fun hone => by omega

theorem Counted.drop_eq (h : Counted s) (hown : 0 < s.owners f)
    (hcontrol : s.control ≠ .running (.mainFunc f)) :
    s.drop f = .ok ((s.withOwners f (s.owners f - 1)).withCount f (s.use_count f - 1)) := by
  have hcount := h.count f
  refine release_eq (s := s.withOwners f (s.owners f - 1)) (show 0 < s.use_count f by omega)
    fun hone => ?_
  have hone : s.use_count f = 1 := hone
  cases hx : s.fiber f with
  | none =>
      have hzero := h.unborn f hx
      omega
  | some x =>
      have hlocals : s.locals f = [] := List.eq_nil_of_length_eq_zero (by omega)
      have hthread : s.threadRefs f = 0 := by omega
      cases hstack : x.m_stack with
      | false =>
          simp [threadRefs, h.stackless f x hx hstack] at hthread
      | true => exact ⟨x, hx, hstack, h.rest f x hx hstack hlocals hcontrol⟩

/-- Owners come and go. -/
theorem Counted.recount (h : Counted s) {s' : Owned A} (hbase : s'.toFibers = s.toFibers)
    (hlocals : s'.locals = s.locals)
    (hcount : ∀ g, s'.use_count g + s.owners g = s.use_count g + s'.owners g)
    (hunborn : ∀ g, s.fiber g = none → s'.use_count g = 0) : Counted s' := by
  have hrefs : ∀ g, s'.threadRefs g = s.threadRefs g := by
    intro g
    simp only [threadRefs, hbase]
  refine ⟨fun g => ?_, ?_, ?_, ?_, ?_⟩
  · have h1 := h.count g
    have h2 := hcount g
    rw [hlocals, hrefs g]
    omega
  · rw [hlocals]
    exact h.own
  · rw [hbase]
    exact hunborn
  · rw [hbase]
    exact h.stackless
  · rw [hbase, hlocals]
    exact h.rest

/-- Several owners let go, one after the other. -/
theorem Counted.drops {captured : List FiberPtr} : ∀ {s : Owned A}, Counted s →
    (∀ f, s.control ≠ .running (.mainFunc f)) → (∀ g, captured.count g ≤ s.owners g) →
    ∃ s', captured.foldlM drop s = .ok s' ∧ Counted s' ∧ s'.toFibers = s.toFibers ∧
      s'.locals = s.locals ∧ ∀ g, s'.owners g = s.owners g - captured.count g := by
  induction captured with
  | nil => exact fun h _ _ => ⟨_, rfl, h, rfl, rfl, fun _ => rfl⟩
  | cons p captured ih =>
      intro s h hcontrol hown
      have hp : 0 < s.owners p := by
        have := hown p
        rw [List.count_cons_self] at this
        omega
      have hcount := h.count p
      have hdrop := h.drop_eq hp (hcontrol p)
      have h1 : Counted ((s.withOwners p (s.owners p - 1)).withCount p (s.use_count p - 1)) := by
        refine h.recount rfl rfl (fun g => ?_) fun g hg => ?_
        · by_cases hgp : g = p
          · subst hgp
            simp
            omega
          · simp [hgp]
        · by_cases hgp : g = p
          · subst hgp
            simp [h.unborn g hg]
          · simp [hgp, h.unborn g hg]
      obtain ⟨s', hs', hc', hbase, hlocals, howners⟩ := ih h1 hcontrol fun g => by
        have := hown g
        by_cases hgp : g = p
        · subst hgp
          simp at this ⊢
          omega
        · simpa [hgp, List.count_cons, Ne.symm hgp] using this
      refine ⟨s', ?_, hc', hbase, hlocals, fun g => (howners g).trans ?_⟩
      · simp only [List.foldlM_cons, hdrop, bind, Except.bind]
        exact hs'
      · by_cases hgp : g = p
        · subst hgp
          simp
          omega
        · simp [hgp, Ne.symm hgp]

end

/-! ## The invariant -/

/-- The sub-fiber `f`, with the locals `ps` on its stack, does not execute. -/
inductive Parked (f : FiberPtr) (x : Fiber A) (ps : List FiberPtr) : Prop
  | waiting (state : x.m_state = .init) (cont : x.m_ctx = .mainFunc f)
      (given : ∃ cb, x.m_cb = some cb) (frames : ps = [])
  | suspended (state : x.m_state = .ready ∨ x.m_state = .hold)
      (cont : ∃ cb k, x.m_ctx = .callback f f cb k) (frames : ps = [f, f])
  | finished (state : x.m_state = .term ∨ x.m_state = .except) (frames : ps = [])

/-- Who executes: the thread outside any sub-fiber, or a sub-fiber. -/
inductive Executing (s : Owned A) : Prop
  | thread (n : ℕ) (control : s.control = .running (.main n)) (current : s.t_fiber = s.t_threadFiber)
  | entering (f : FiberPtr) (x : Fiber A) (cb : Callback A)
      (control : s.control = .running (.mainFunc f)) (current : s.t_fiber = some f)
      (born : s.t_threadFiber.isSome) (fiber : s.fiber f = some x) (stack : x.m_stack = true)
      (state : x.m_state = .exec) (given : x.m_cb = some cb) (frames : s.locals f = [])
      (owned : 0 < s.owners f)
  | callback (f : FiberPtr) (x : Fiber A) (cb : Callback A) (k : ℕ)
      (control : s.control = .running (.callback f f cb k)) (current : s.t_fiber = some f)
      (born : s.t_threadFiber.isSome) (fiber : s.fiber f = some x) (stack : x.m_stack = true)
      (state : x.m_state = .exec) (frames : s.locals f = [f])

/-- The main fiber, whose state is one that `Q` allows. While another executes, it goes on in its
    own code. -/
structure MainFiber (Q : FiberState → Prop) (s : Owned A) (main : FiberPtr) (m : Fiber A) : Prop where
  stack : m.m_stack = false
  cb : m.m_cb = none
  frames : s.locals main = []
  state : Q m.m_state
  cont : s.t_fiber ≠ some main → ∃ n, m.m_ctx = .main n

/-- The invariant while code runs. -/
structure Proper (Q : FiberState → Prop) (s : Owned A) : Prop where
  count : ∀ f, s.use_count f = s.owners f + (s.locals f).length + s.threadRefs f
  unborn : ∀ f, s.fiber f = none → s.use_count f = 0
  stackless : ∀ f x, s.fiber f = some x → x.m_stack = false → s.t_threadFiber = some f
  main : ∀ main, s.t_threadFiber = some main → ∃ m, s.fiber main = some m ∧ MainFiber Q s main m
  parked : ∀ f x, s.fiber f = some x → x.m_stack = true → s.t_fiber ≠ some f →
    Parked f x (s.locals f)
  executing : Executing s

section
variable {Q : FiberState → Prop} {s s' : Owned A} {f : FiberPtr} {x : Fiber A}

/-- The main fiber stays what it is while its stack does, unless another takes over. -/
theorem MainFiber.frame {m : Fiber A} (h : MainFiber Q s f m) (hlocals : s'.locals f = s.locals f)
    (hcur : s'.t_fiber ≠ some f → s.t_fiber ≠ some f) : MainFiber Q s' f m :=
  ⟨h.stack, h.cb, hlocals.trans h.frames, h.state, fun hne => h.cont (hcur hne)⟩

/-- What is on the stack of a sub-fiber. -/
theorem Proper.frames (h : Proper Q s) (hx : s.fiber f = some x) (hstack : x.m_stack = true) :
    (∀ p ∈ s.locals f, p = f) ∧
      (s.locals f = [] → s.control ≠ .running (.mainFunc f) → x.m_state.AtRest) := by
  by_cases hcur : s.t_fiber = some f
  · cases h.executing with
    | thread n _ hsame =>
        obtain ⟨m, hm, hmain⟩ := h.main f (hsame ▸ hcur)
        obtain rfl := Option.some.inj (hx.symm.trans hm)
        rw [hmain.stack] at hstack
        exact absurd hstack (by simp)
    | entering f' _ _ hc hcur' _ _ _ _ _ hframes =>
        obtain rfl := Option.some.inj (hcur.symm.trans hcur')
        exact ⟨by simp [hframes], fun _ hno => absurd hc hno⟩
    | callback f' _ _ _ _ hcur' _ _ _ _ hframes =>
        obtain rfl := Option.some.inj (hcur.symm.trans hcur')
        simp [hframes]
  · cases h.parked f x hx hstack hcur with
    | waiting hstate _ _ hframes => exact ⟨by simp [hframes], fun _ _ => .inr (.inr hstate)⟩
    | suspended _ _ hframes => simp [hframes]
    | finished hstate hframes => exact ⟨by simp [hframes], fun _ _ => hstate.imp_right .inl⟩

theorem Proper.counted (h : Proper Q s) : Counted s := by
  refine ⟨h.count, fun f p hp => ?_, h.unborn, h.stackless, fun f x hx hstack =>
    (h.frames hx hstack).2⟩
  cases hx : s.fiber f with
  | none =>
      have hcount := h.count f
      rw [h.unborn f hx] at hcount
      rw [List.eq_nil_of_length_eq_zero (show (s.locals f).length = 0 by omega)] at hp
      simp at hp
  | some x =>
      cases hstack : x.m_stack with
      | true => exact (h.frames hx hstack).1 p hp
      | false =>
          obtain ⟨m, hm, hmain⟩ := h.main f (h.stackless f x hx hstack)
          rw [hmain.frames] at hp
          simp at hp

/-- The main fiber is no sub-fiber. -/
theorem Proper.ne_main (h : Proper Q s) {main : FiberPtr} (hmain : s.t_threadFiber = some main)
    (hx : s.fiber f = some x) (hstack : x.m_stack = true) : f ≠ main := by
  rintro rfl
  obtain ⟨m, hm, hm'⟩ := h.main f hmain
  obtain rfl := Option.some.inj (hx.symm.trans hm)
  rw [hm'.stack] at hstack
  exact absurd hstack (by simp)

/-- A sub-fiber at rest does not execute. -/
theorem Proper.not_current (h : Proper Q s) (hx : s.fiber f = some x) (hstack : x.m_stack = true)
    (hstate : x.m_state ≠ .exec) : s.t_fiber ≠ some f := by
  intro hcur
  cases h.executing with
  | thread n _ hsame => exact h.ne_main (hsame ▸ hcur) hx hstack rfl
  | entering f' _ _ _ hcur' _ hx' _ hexec =>
      obtain rfl := Option.some.inj (hcur.symm.trans hcur')
      obtain rfl := Option.some.inj (hx.symm.trans hx')
      exact hstate hexec
  | callback f' _ _ _ _ hcur' _ hx' _ hexec =>
      obtain rfl := Option.some.inj (hcur.symm.trans hcur')
      obtain rfl := Option.some.inj (hx.symm.trans hx')
      exact hstate hexec

theorem Proper.running (h : Proper Q s) : ∃ k, s.control = .running k := by
  cases h.executing with
  | thread n hc => exact ⟨_, hc⟩
  | entering _ _ _ hc => exact ⟨_, hc⟩
  | callback _ _ _ _ hc => exact ⟨_, hc⟩

/-- The executing fiber is alive. -/
theorem Proper.alive (h : Proper Q s) (hcur : s.t_fiber = some f) : 0 < s.use_count f := by
  have hcount := h.count f
  cases h.executing with
  | thread n _ hsame =>
      have : s.threadRefs f = 1 := if_pos (hsame ▸ hcur)
      omega
  | entering f' _ _ _ hcur' _ _ _ _ _ _ howned =>
      obtain rfl := Option.some.inj (hcur.symm.trans hcur')
      omega
  | callback f' _ _ _ _ hcur' _ _ _ _ hframes =>
      obtain rfl := Option.some.inj (hcur.symm.trans hcur')
      simp only [hframes, List.length_singleton] at hcount
      omega

/-- The code outside `Fiber` goes on, on the same fiber. -/
theorem Executing.next (h : Executing s) {k k' : Cont A} (hk : s.control = .running k)
    (hnext : k.next = some k') (hcontrol : s'.control = .running k') (hcur : s'.t_fiber = s.t_fiber)
    (hthread : s'.t_threadFiber = s.t_threadFiber) (hlocals : s'.locals = s.locals)
    (hfiber : ∀ g x, s.t_fiber = some g → s.fiber g = some x → s'.fiber g = some x) :
    Executing s' := by
  cases h with
  | thread n hc hsame =>
      rw [hc] at hk
      injection hk with hk
      subst hk
      obtain rfl : Cont.main (n + 1) = k' := Option.some.inj hnext
      exact .thread (n + 1) hcontrol (by rw [hcur, hthread, hsame])
  | entering _ _ _ hc =>
      rw [hc] at hk
      injection hk with hk
      subst hk
      simp [Cont.next] at hnext
  | callback f x cb k hc hcur' hborn hx hstack hexec hframes =>
      rw [hc] at hk
      injection hk with hk
      subst hk
      obtain rfl : Cont.callback f f cb (k + 1) = k' := Option.some.inj hnext
      exact .callback f x cb (k + 1) hcontrol (hcur.trans hcur') (hthread ▸ hborn)
        (hfiber f x hcur' hx) hstack hexec (by rw [hlocals, hframes])

/-- Code outside `Fiber` makes or drops a copy of a pointer. -/
theorem Proper.recount (h : Proper Q s) {k k' : Cont A} (hk : s.control = .running k)
    (hnext : k.next = some k') {n m : ℕ} (hcount : n + s.owners f = s.use_count f + m)
    (hx : s.fiber f = some x) :
    Proper Q (((s.withCount f n).withOwners f m).withFibers (s.goto k')) := by
  refine ⟨fun g => ?_, fun g hg => ?_, h.stackless, fun main hmain => ?_, h.parked,
    h.executing.next hk hnext rfl rfl rfl rfl fun _ _ _ hg => hg⟩
  · have hcount' := h.count g
    rw [show (((s.withCount f n).withOwners f m).withFibers (s.goto k')).threadRefs g =
      s.threadRefs g from rfl]
    by_cases hgf : g = f
    · subst hgf
      simp
      omega
    · simpa [hgf] using hcount'
  · have hg : s.fiber g = none := hg
    have hgf : g ≠ f := by
      rintro rfl
      simp [hx] at hg
    simpa [hgf] using h.unborn g hg
  · obtain ⟨m, hm, hm'⟩ := h.main main hmain
    exact ⟨m, hm, hm'.frame rfl id⟩

end

end Owned

end Ipmsg
