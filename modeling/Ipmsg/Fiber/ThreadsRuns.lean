import Ipmsg.Fiber.ThreadsSteps
import Ipmsg.Lib.Run

set_option autoImplicit false

/-! # Fibers that move between threads

Over every run of any number of threads: while each takes only fibers that nobody works on, a fiber
may be resumed by another thread than the one it yielded in, and still no two threads are on one
stack, every callback goes on where it stopped, and every thread comes back to its own main fiber.
That a fiber is in state `READY` or `HOLD` does not say that nobody works on it. -/

namespace Ipmsg

variable {θ A : Type}

/-! ## What has been done -/

/-- A callback does nothing after an action that ends it. -/
def Orderly (as : List (CbAction A)) : Prop := ∀ a ∈ as.dropLast, a.ends = false

theorem Live.orderly {as : List (CbAction A)} (h : Live as) : Orderly as := fun a ha =>
  h a (List.dropLast_subset as ha)

theorem Ended.orderly {as : List (CbAction A)} (h : Ended as) : Orderly as := by
  obtain ⟨as', a, rfl, -, hlive⟩ := h
  intro b hb
  rw [List.dropLast_concat] at hb
  exact hlive b hb

namespace FiberObject

variable {f : FiberPtr} {x : FiberObject θ A} {cb : Callback A} {as : List (CbAction A)}
  {state : FiberState} {k : Code θ A}

theorem Leaves.orderly (h : Leaves f cb as state k) : Orderly as := by
  cases h with
  | suspended _ hlive => exact hlive.orderly
  | finished _ hended => exact hended.orderly

theorem GoesOn.orderly (h : GoesOn f x cb as k) : Orderly as := by
  cases h with
  | enter _ hnil => simp [Orderly, hnil]
  | resume hlive => exact hlive.orderly

theorem Parked.orderly (h : x.Parked f cb as) : Orderly as := by
  cases h with
  | waiting _ _ _ hnil => simp [Orderly, hnil]
  | left hleaves => exact hleaves.orderly

/-- Where a sub-fiber goes on that nobody works on, and whether its callback has ended. -/
theorem Parked.goesOn_iff (h : x.Parked f cb as) :
    (x.m_state = .init → x.m_ctx = .mainFunc f ∧ as = []) ∧
      (x.m_state = .ready ∨ x.m_state = .hold → x.m_ctx = .callback f f cb as.length) ∧
      ((x.m_state = .term ∨ x.m_state = .except) ↔ ∃ a ∈ as, a.ends = true) := by
  rcases h with ⟨hstate, hctx, -, rfl⟩ | hleaves
  · exact ⟨fun _ => ⟨hctx, rfl⟩, by simp [hstate], by simp [hstate]⟩
  · refine ⟨fun hinit => ?_, fun hyields => ?_, hleaves.ends_iff⟩
    · generalize x.m_ctx = k at hleaves
      cases hleaves with
      | suspended hs => rcases hs with hs | hs <;> simp [hs] at hinit
      | finished hs => rcases hs with hs | hs <;> simp [hs] at hinit
    · generalize x.m_ctx = k at hleaves ⊢
      cases hleaves with
      | suspended => rfl
      | finished hs => rcases hs with hs | hs <;> simp [hs] at hyields

end FiberObject

namespace FiberThread

open FiberObject

variable {t : θ} {x : FiberThread θ A} {ops : List (FiberOp A)} {h : FiberPtr → Recorded θ A}

theorem Inside.orderly {f : FiberPtr} {y : FiberObject θ A} {cb : Callback A}
    {as : List (CbAction A)} {p : Point θ A} (hp : Inside f y cb as p) : Orderly as := by
  cases hp with
  | code hgoes => exact hgoes.orderly
  | yields hleaves => exact hleaves.orderly
  | returns hended => exact hended.orderly
  | leaves hleaves => exact hleaves.orderly

theorem Inside.target {f : FiberPtr} {y : FiberObject θ A} {cb : Callback A}
    {as : List (CbAction A)} {p : Point θ A} (hp : Inside f y cb as p) : p.target = none := by
  cases hp <;> rfl

/-- What is at a fiber: a main fiber, nothing yet, or a sub-fiber with its record. -/
def Holds (o : Recorded θ A) : Prop :=
  (∃ z, o.1 = some z ∧ z.IsMain) ∨ o.1 = none ∨
    ∃ y cb as, o = (some y, some (cb, as)) ∧ y.IsSub cb as ∧ Orderly as

theorem Home.holds (hh : Home x h) {f : FiberPtr} (hf : x.t_threadFiber = some f) : Holds (h f) := by
  rcases hh with ⟨-, hnone⟩ | ⟨m, z, q, -, hm, hobj, hz⟩
  · exact absurd (hnone.symm.trans hf) (Option.some_ne_none f).symm
  · obtain rfl := Option.some.inj (hm.symm.trans hf)
    exact Or.inl ⟨z, congrArg Prod.fst hobj, hz⟩

theorem Away.holds {f g : FiberPtr} (hh : Away t x ops h f) (hg : x.t_threadFiber = some g) :
    Holds (h g) := by
  obtain ⟨m, z, q, hm, hobj, hz, -⟩ := hh
  obtain rfl := Option.some.inj (hm.symm.trans hg)
  exact Or.inl ⟨z, congrArg Prod.fst hobj, hz⟩

/-- What a thread works on. -/
theorem Works.holds (hw : Works t x ops h) {f : FiberPtr} (huses : x.Uses f) : Holds (h f) := by
  have hsub : ∀ {g y cb as}, some g = some f → h g = (some y, some (cb, as)) → y.IsSub cb as →
      Orderly as → Holds (h f) := by
    rintro g y cb as hgf hobj hsub has
    exact Or.inr (Or.inr ⟨y, cb, as, Option.some.inj hgf ▸ hobj, hsub, has⟩)
  have hmain : ∀ {m z q}, x.t_threadFiber = some m → h m = (some z, q) → z.IsMain →
      x.t_threadFiber = some f → Holds (h f) := by
    rintro m z q hm hobj hz hf
    exact Or.inl ⟨z, Option.some.inj (hm.symm.trans hf) ▸ congrArg Prod.fst hobj, hz⟩
  cases hw with
  | idle hp hh =>
      rcases huses with hm | hs | ht
      · exact hh.holds hm
      · simp [hp, Point.stack, Point.cont] at hs
      · simp [hp, Point.target] at ht
  | constructing g id cb hp hh hgiven =>
      rcases huses with hm | hs | ht
      · exact hh.holds hm
      · simp [hp, Point.stack, Point.cont] at hs
      · rw [hp] at ht
        exact Or.inr (Or.inl (Option.some.inj ht ▸ congrArg Prod.fst hgiven))
  | resetting g y cb hh hobj hy hp =>
      rcases huses with hm | hs | ht
      · exact hh.holds hm
      · exact absurd (hp.stack.symm.trans hs) (Option.some_ne_none f).symm
      · exact hsub (hp.target.symm.trans ht) hobj hy (by simp [Orderly])
  | entering g m y z q cb as hcur hm hmobj hz hobj hy hparked hstate hlast hp =>
      rcases huses with hf | hs | ht
      · exact hmain hm hmobj hz hf
      · rcases hp with hp | hp <;> simp [hp, Point.stack, Point.cont] at hs
      · refine hsub ?_ hobj hy hparked.orderly
        rcases hp with hp | hp <;> rw [hp] at ht <;> exact ht
  | switchingIn g m y z q cb as hcur hm hmobj hz hobj hy hstate hgoes hlast hp =>
      rcases huses with hf | hs | ht
      · exact hmain hm hmobj hz hf
      · rcases hp with hp | ⟨hp, -⟩ <;> simp [hp, Point.stack, Point.cont] at hs
      · refine hsub ?_ hobj hy hgoes.orderly
        rcases hp with hp | ⟨hp, -⟩ <;> rw [hp] at ht <;> exact ht
  | inside g y cb as hcur haway hobj hy hstate hp =>
      rcases huses with hf | hs | ht
      · exact haway.holds hf
      · exact hsub (hp.stack.symm.trans hs) hobj hy hp.orderly
      · exact absurd (hp.target.symm.trans ht) (Option.some_ne_none f).symm
  | switchingOut g m y cb as k hcur hm haway hobj hy hleaves hp =>
      rcases huses with hf | hs | ht
      · exact haway.holds hf
      · refine hsub (hleaves.stack.symm.trans ?_) hobj hy hleaves.orderly
        rcases hp with hp | ⟨hp, -⟩ <;> rw [hp] at hs <;> exact hs
      · refine haway.holds (hm.trans ?_)
        rcases hp with hp | ⟨hp, -⟩ <;> rw [hp] at ht <;> exact ht
  | exited hp hgone =>
      rcases huses with hm | hs | ht
      · exact absurd (hgone.symm.trans hm) (Option.some_ne_none f).symm
      · simp [hp, Point.stack, Point.cont] at hs
      · simp [hp, Point.target] at ht

theorem Works.not_fault (hw : Works t x ops h) (e : Fault) : x.point ≠ .fault e := by
  intro he
  cases hw with
  | idle hp => simp [he] at hp
  | constructing g id cb hp => simp [he] at hp
  | resetting g y cb hh hobj hy hp =>
      rw [he] at hp
      cases hp
  | entering g m y z q cb as hcur hm hmobj hz hobj hy hparked hstate hlast hp => simp [he] at hp
  | switchingIn g m y z q cb as hcur hm hmobj hz hobj hy hstate hgoes hlast hp => simp [he] at hp
  | inside g y cb as hcur haway hobj hy hstate hp =>
      rw [he] at hp
      cases hp
  | switchingOut g m y cb as k hcur hm haway hobj hy hleaves hp => simp [he] at hp
  | exited hp => simp [he] at hp

/-- While a thread is on the stack of `f`, its main fiber waits after the `swapIn` of `f`. -/
theorem Works.away (hw : Works t x ops h) {f : FiberPtr} (hf : x.point.stack = some f) :
    Away t x ops h f := by
  have hnone : ∀ {p : Point θ A}, x.point = p → p.stack = none → Away t x ops h f := by
    intro p hp hstack
    rw [hp, hstack] at hf
    exact absurd hf.symm (Option.some_ne_none f)
  cases hw with
  | idle hp => exact hnone hp rfl
  | constructing g id cb hp => exact hnone hp rfl
  | resetting g y cb hh hobj hy hp => exact hnone rfl hp.stack
  | entering g m y z q cb as hcur hm hmobj hz hobj hy hparked hstate hlast hp =>
      rcases hp with hp | hp <;> exact hnone hp rfl
  | switchingIn g m y z q cb as hcur hm hmobj hz hobj hy hstate hgoes hlast hp =>
      rcases hp with hp | ⟨hp, -⟩ <;> exact hnone hp rfl
  | inside g y cb as hcur haway hobj hy hstate hp =>
      obtain rfl := Option.some.inj (hp.stack.symm.trans hf)
      exact haway
  | switchingOut g m y cb as k hcur hm haway hobj hy hleaves hp =>
      have hg : x.point.stack = some g := by
        rcases hp with hp | ⟨hp, -⟩ <;> rw [hp] <;> exact hleaves.stack
      obtain rfl := Option.some.inj (hg.symm.trans hf)
      exact haway
  | exited hp => exact hnone hp rfl

/-- Code outside `Fiber`, or the start of `MainFunc`, runs on the fiber that is current. -/
theorem Works.code (hw : Works t x ops h) {k : Code θ A} (hk : x.point = .code k) :
    (k = .main t ops.length ∧ Home x h) ∨ ∃ f y r, k.stack = some f ∧ x.t_fiber = some f ∧
      h f = (some y, r) ∧ y.freed = false ∧ y.m_state = .exec := by
  cases hw with
  | idle hp hh =>
      rw [hk] at hp
      injection hp with hp
      exact Or.inl ⟨hp, hh⟩
  | constructing g id cb hp => simp [hk] at hp
  | resetting g y cb hh hobj hy hp =>
      rw [hk] at hp
      cases hp
  | entering g m y z q cb as hcur hm hmobj hz hobj hy hparked hstate hlast hp => simp [hk] at hp
  | switchingIn g m y z q cb as hcur hm hmobj hz hobj hy hstate hgoes hlast hp => simp [hk] at hp
  | inside g y cb as hcur haway hobj hy hstate hp =>
      have hstack := hp.stack
      rw [hk] at hstack
      exact Or.inr ⟨g, y, _, hstack, hcur, hobj, hy.alive, hstate⟩
  | switchingOut g m y cb as k hcur hm haway hobj hy hleaves hp => simp [hk] at hp
  | exited hp => simp [hk] at hp

end FiberThread

/-! ## Runs -/

namespace FiberThreads

open FiberObject FiberThread

variable [DecidableEq θ] [DecidableEq A]

/-- Thread `t` is on the stack of the sub-fiber `f`. -/
def Runs (s : FiberThreads θ A) (t : θ) (f : FiberPtr) : Prop := (s.threads t).point.stack = some f

/-- A step meets what is stated of `Fiber`, and takes or destroys a fiber only if nobody works on it.
-/
def Permitted (s : FiberThreads θ A) (l : ThreadsLabel θ A) : Prop := s.Stated l ∧ s.TakesUnused l

omit [DecidableEq A] in
theorem Inv.init : Inv (θ := θ) (A := A) [] FiberThreads.init := by
  have hnone : ∀ (t : θ) f, ¬ ((FiberThreads.init : FiberThreads θ A).threads t).Uses f := by
    intro t f
    simp [FiberThreads.init, FiberThread.Uses, Point.stack, Point.cont, Point.target]
  refine ⟨⟨fun t u f ht => (hnone t f ht).elim, fun t => .idle rfl (Or.inl ⟨rfl, rfl⟩),
    fun f _ x hx => absurd hx.symm (Option.some_ne_none x)⟩, fun f _ => ⟨rfl, fun t => hnone t f⟩⟩

theorem Inv.run {labels : List (ThreadsLabel θ A)} {s : FiberThreads θ A}
    (hpermitted : Along FiberThreads.step Permitted FiberThreads.init labels)
    (hrun : exec FiberThreads.step FiberThreads.init labels = some s) : Inv labels s :=
  exec_history Inv (fun _ _ _ _ h hg hs => h.step hg.1 hg.2 hs) [] Inv.init hpermitted hrun

/-- **Fibers that move between threads.** In every state that any number of threads get to whose
main fibers take only fibers nobody works on: nothing undefined happens and no assertion fails; no
two threads are on one stack; the current fiber of a thread is the one whose code it runs, in state
`EXEC`, and `GetFiberId` is its id, 0 for a main fiber and where there is none yet; a thread on the
stack of a sub-fiber will come back to its own main fiber, right after the `swapIn` it did last; and
every sub-fiber has done the first actions of its callback, in order, in whichever threads, and goes
on with the next. -/
theorem fibers_across_threads {labels : List (ThreadsLabel θ A)} {s : FiberThreads θ A}
    (hpermitted : Along step Permitted init labels) (hrun : exec step init labels = some s) :
    (∀ t e, (s.threads t).point ≠ .fault e) ∧
    (∀ t u f, s.Runs t f → s.Runs u f → t = u) ∧
    (∀ t k, (s.threads t).point = .code k →
      (k = .main t (opsOf t labels).length ∧ (s.threads t).t_fiber = (s.threads t).t_threadFiber ∧
          s.getFiberId t = some 0 ∧ ∀ m, (s.threads t).t_threadFiber = some m →
            ∃ z, s.fiber m = some z ∧ z.m_state = .exec ∧ z.m_id = 0) ∨
        ∃ f x, k.stack = some f ∧ (s.threads t).t_fiber = some f ∧ s.fiber f = some x ∧
          x.m_state = .exec ∧ s.getFiberId t = some x.m_id) ∧
    (∀ t f, s.Runs t f → (opsOf t labels).getLast? = some (.swapIn f) ∧
      ∃ m z, (s.threads t).t_threadFiber = some m ∧ s.fiber m = some z ∧
        z.m_ctx = .main t (opsOf t labels).length) ∧
    (∀ t f cur cb k, (s.threads t).point = .code (.callback f cur cb k) →
      ∃ as, ranSince f labels = some (cb, as) ∧ k = as.length) ∧
    ∀ f x, s.fiber f = some x → x.m_stack = true →
      ∃ cb as, ranSince f labels = some (cb, as) ∧ as = (List.range as.length).map cb ∧
        (∀ a ∈ as.dropLast, a.ends = false) ∧ (s.Unused f →
          (x.m_state = .init → x.m_ctx = .mainFunc f ∧ as = []) ∧
          (x.m_state = .ready ∨ x.m_state = .hold → x.m_ctx = .callback f f cb as.length) ∧
          ((x.m_state = .term ∨ x.m_state = .except) ↔ ∃ a ∈ as, a.ends = true)) := by
  have h := Inv.run hpermitted hrun
  refine ⟨fun t e => (h.works t).not_fault e, fun t u f ht hu => ?_, fun t k hk => ?_,
    fun t f hf => ?_, fun t f cur cb k hk => ?_, fun f x hx hstack => ?_⟩
  · exact h.shared.alone t u f (Or.inr (Or.inl ht)) (Or.inr (Or.inl hu))
  · rcases (h.works t).code hk with ⟨rfl, hhome⟩ | ⟨f, y, r, hstack, hcur, hobj, halive, hexec⟩
    · refine Or.inl ⟨rfl, ?_⟩
      rcases hhome with ⟨hcur, hmain⟩ | ⟨m, y, r, hcur, hmain, hobj, hy⟩
      · refine ⟨hcur.trans hmain.symm, by simp only [getFiberId, hcur], fun m hm => ?_⟩
        exact absurd (hmain.symm.trans hm).symm (Option.some_ne_none m)
      · have hfiber := fiber_eq_some.2 ⟨(heapOf_eq.1 hobj).1, hy.alive⟩
        refine ⟨hcur.trans hmain.symm, ?_, fun m' hm' => ?_⟩
        · simp only [getFiberId, hcur, hfiber, Option.map_some, hy.id]
        · obtain rfl := Option.some.inj (hmain.symm.trans hm')
          exact ⟨y, hfiber, hy.state, hy.id⟩
    · have hfiber := fiber_eq_some.2 ⟨(heapOf_eq.1 hobj).1, halive⟩
      refine Or.inr ⟨f, y, hstack, hcur, hfiber, hexec, ?_⟩
      simp only [getFiberId, hcur, hfiber, Option.map_some]
  · obtain ⟨m, z, r, hm, hobj, hz, hctx, hlast⟩ := (h.works t).away hf
    exact ⟨hlast, m, z, hm, fiber_eq_some.2 ⟨(heapOf_eq.1 hobj).1, hz.alive⟩, hctx⟩
  · obtain ⟨y, as, -, hk', -, -, hobj, -⟩ := h.at_callback hk
    exact ⟨as, (heapOf_eq.1 hobj).2, hk'⟩
  · obtain ⟨hobj, halive⟩ := fiber_eq_some.1 hx
    by_cases hunused : s.Unused f
    · obtain ⟨cb, as, hobj', hsub, hparked⟩ := h.parked hunused hx
      exact ⟨cb, as, (heapOf_eq.1 hobj').2, hsub.inOrder, hparked.orderly,
        fun _ => hparked.goesOn_iff⟩
    · obtain ⟨t, ht⟩ := not_forall.1 hunused
      rcases (h.works t).holds (not_not.1 ht) with ⟨z, hz, hmain⟩ | hnone | ⟨y, cb, as, hy, hsub, has⟩
      · obtain rfl := Option.some.inj (hobj.symm.trans hz)
        exact absurd (hmain.stack.symm.trans hstack) (by simp)
      · exact absurd (hobj.symm.trans hnone) (Option.some_ne_none x)
      · exact ⟨cb, as, (heapOf_eq.1 hy).2, hsub.inOrder, has, fun hu => (hunused hu).elim⟩

/-- Yields once and returns. -/
def yieldOnce : Callback Unit
  | 0 => .yieldToHold
  | _ => .ret

/-- A fiber that one thread makes and starts returns in another. -/
def movedFiber : List (ThreadsLabel Bool Unit) :=
  [.main false .getThis, .main true .getThis, .main false (.construct 2 yieldOnce), .go false,
    .main false (.swapIn 2), .go false, .go false, .go false, .go false, .go false,
    .act false 2 .yieldToHold, .go false, .go false, .go false, .go false,
    .main true (.swapIn 2), .go true, .go true, .go true, .go true, .act true 2 .ret]

theorem fibers_across_threads_sample :
    ∃ s, exec step init movedFiber = some s ∧ s.Runs true 2 ∧ ¬ s.Runs false 2 := by
  have hpermitted : Along step Permitted init movedFiber := by
    iterate 4 refine (along_cons_of_step rfl).2 ⟨⟨trivial, trivial⟩, ?_⟩
    refine (along_cons_of_step rfl).2 ⟨⟨⟨rfl, _, rfl, rfl, Or.inl rfl⟩, ?_⟩, ?_⟩
    · rintro (_ | _) <;> decide
    iterate 10 refine (along_cons_of_step rfl).2 ⟨⟨trivial, trivial⟩, ?_⟩
    refine (along_cons_of_step rfl).2 ⟨⟨⟨rfl, _, rfl, rfl, Or.inr (Or.inr rfl)⟩, ?_⟩, ?_⟩
    · rintro (_ | _) <;> decide
    iterate 5 refine (along_cons_of_step rfl).2 ⟨⟨trivial, trivial⟩, ?_⟩
    trivial
  obtain ⟨-, halone, -⟩ := fibers_across_threads hpermitted rfl
  refine ⟨_, rfl, rfl, fun hfalse => ?_⟩
  exact absurd (halone false true 2 hfalse rfl) (by decide)

end FiberThreads

end Ipmsg
