import Ipmsg.Fiber.ThreadsInvariant

set_option autoImplicit false

/-! # The steps of one thread

A step changes one object at most, and the thread that takes it works on that object before the step
or after it; only a destroyed object may be nobody's. So each step is checked against what its own
thread relies on. -/

namespace Ipmsg

variable {θ A : Type}

namespace FiberThreads

open FiberObject FiberThread

/-! ## Lookups -/

section
variable (s : FiberThreads θ A) (f : FiberPtr) (o : Option (FiberObject θ A))
  (g : FiberObject θ A → FiberObject θ A)

@[simp] theorem countDown_threads : s.countDown.threads = s.threads := rfl

@[simp] theorem modify_threads : (s.modify f g).threads = s.threads := rfl

@[simp] theorem setObject_threads : (s.setObject f o).threads = s.threads := rfl

@[simp] theorem countUp_threads : s.countUp.threads = s.threads := rfl

variable {s f} {f' : FiberPtr} {y : FiberObject θ A}

theorem setObject_objects_self : (s.setObject f o).objects f = o := Function.update_self ..

theorem setObject_objects_of_ne (hf : f' ≠ f) : (s.setObject f o).objects f' = s.objects f' :=
  Function.update_of_ne hf ..

theorem modify_objects_self (hy : s.objects f = some y) : (s.modify f g).objects f = some (g y) := by
  rw [modify, setObject_objects_self, hy, Option.map_some]

theorem modify_objects_of_ne (hf : f' ≠ f) : (s.modify f g).objects f' = s.objects f' :=
  setObject_objects_of_ne _ hf

theorem fiber_eq_some : s.fiber f = some y ↔ s.objects f = some y ∧ y.freed = false := by
  simp only [fiber, Option.filter_eq_some_iff, Bool.not_eq_true']

theorem deref_eq (hy : s.objects f = some y) (halive : y.freed = false) : s.deref f = .ok y := by
  simp only [deref, fiber_eq_some.2 ⟨hy, halive⟩]

variable {hist : List (ThreadsLabel θ A)} {o} {r : Record A}

theorem heapOf_eq : heapOf hist s f = (o, r) ↔ s.objects f = o ∧ ranSince f hist = r := by
  simp only [heapOf, Prod.mk.injEq]

/-- Nothing is asked of a destroyed object. -/
theorem rests_freed (hy : s.objects f = some y) (hfreed : y.freed = true) :
    Rests f (heapOf hist s f) := by
  intro x hx halive
  obtain rfl := Option.some.inj (hy.symm.trans hx)
  rw [hfreed] at halive
  exact absurd halive (by simp)

@[simp] theorem ranSince_go (f : FiberPtr) (hist : List (ThreadsLabel θ A)) (t : θ) :
    ranSince f (hist ++ [.go t]) = ranSince f hist := ranSince_concat ..

end

variable [DecidableEq θ]

section
variable (s : FiberThreads θ A) (t : θ) (p : Point θ A) (k : Code θ A) (x : FiberThread θ A)
  (f : Option FiberPtr)

@[simp] theorem setPoint_objects : (s.setPoint t p).objects = s.objects := rfl

@[simp] theorem setThis_objects : (s.setThis t f).objects = s.objects := rfl

@[simp] theorem setThread_threads_self : (s.setThread t x).threads t = x := Function.update_self ..

@[simp] theorem setPoint_threads_self :
    (s.setPoint t p).threads t = { s.threads t with point := p } := Function.update_self ..

@[simp] theorem goto_threads_self :
    (s.goto t k).threads t = { s.threads t with point := .code k } := Function.update_self ..

@[simp] theorem setThis_threads_self :
    (s.setThis t f).threads t = { s.threads t with t_fiber := f } := Function.update_self ..

variable {s t} {u : θ} (hu : u ≠ t)
include hu

@[simp] theorem setThread_threads_of_ne : (s.setThread t x).threads u = s.threads u :=
  Function.update_of_ne hu ..

@[simp] theorem setPoint_threads_of_ne : (s.setPoint t p).threads u = s.threads u :=
  Function.update_of_ne hu ..

@[simp] theorem goto_threads_of_ne : (s.goto t k).threads u = s.threads u :=
  Function.update_of_ne hu ..

@[simp] theorem setThis_threads_of_ne : (s.setThis t f).threads u = s.threads u :=
  Function.update_of_ne hu ..

end

section
variable [DecidableEq A] {s s' : FiberThreads θ A} {t : θ}

theorem step_main {op : FiberOp A} (h : s.step (.main t op) = some s') :
    ∃ t' n, (s.threads t).point = .code (.main t' n) ∧ s.freshFor op = true ∧
      s' = s.settle t (s.mainOp t (.main t' (n + 1)) op) := by
  simp only [step] at h
  split at h
  · next t' n hpoint =>
      split_ifs at h with hfresh
      exact ⟨t', n, hpoint, hfresh, (Option.some.inj h).symm⟩
  · simp at h

theorem step_act {f : FiberPtr} {a : CbAction A} (h : s.step (.act t f a) = some s') :
    ∃ cur cb k, (s.threads t).point = .code (.callback f cur cb k) ∧ cb k = a ∧
      s' = s.settle t (s.cbAction t f cur cb k a) := by
  simp only [step] at h
  split at h
  · next f' cur cb k hpoint =>
      split_ifs at h with hf
      obtain ⟨rfl, ha⟩ := hf
      exact ⟨cur, cb, k, hpoint, ha, (Option.some.inj h).symm⟩
  · simp at h

theorem step_go (h : s.step (.go t) = some s') :
    (s.threads t).point.busy = true ∧ s' = s.settle t (s.access t (s.threads t).point) := by
  simp only [step] at h
  split_ifs at h with hbusy
  exact ⟨hbusy, (Option.some.inj h).symm⟩

end

/-! ## `GetThis` and `~Fiber` -/

section
variable {s : FiberThreads θ A} {t : θ} {f : FiberPtr} {y : FiberObject θ A}

/-- The program after the first `GetThis` of `t`. -/
def born (s : FiberThreads θ A) (t : θ) : FiberThreads θ A :=
  (s.newMain t).1.setThread t { (s.newMain t).1.threads t with t_threadFiber := some s.next }

theorem born_objects_self (s : FiberThreads θ A) (t : θ) :
    ∃ y, (s.born t).objects s.next = some y ∧ y.IsMain :=
  ⟨_, Function.update_self .., rfl, rfl, rfl, rfl, rfl⟩

theorem born_objects_of_ne (hf : f ≠ s.next) : (s.born t).objects f = s.objects f :=
  Function.update_of_ne hf ..

theorem born_threads_self (s : FiberThreads θ A) (t : θ) : (s.born t).threads t =
    { s.threads t with t_fiber := some s.next, t_threadFiber := some s.next } := by
  simp [born, newMain]

theorem born_threads_of_ne {u : θ} (hu : u ≠ t) : (s.born t).threads u = s.threads u := by
  simp [born, newMain, hu]

theorem getThis_new (hcur : (s.threads t).t_fiber = none) : s.getThis t = .ok (s.born t, s.next) := by
  have hself : ((s.newMain t).1.threads t).t_fiber = some (s.newMain t).2 := by simp [newMain]
  simp only [getThis, hcur, Fibers.assertMacro_ok hself]
  rfl

theorem getThis_eq (hcur : (s.threads t).t_fiber = some f) (hy : s.objects f = some y)
    (halive : y.freed = false) : s.getThis t = .ok (s, f) := by
  simp only [getThis, hcur, deref_eq hy halive, bind, Except.bind, pure, Except.pure]

theorem destruct_sub (hy : s.objects f = some y) (halive : y.freed = false)
    (hstack : y.m_stack = true)
    (hstate : y.m_state = .term ∨ y.m_state = .except ∨ y.m_state = .init) :
    s.destruct t f = .ok (s.countDown.modify f fun x => { x with freed := true }) := by
  simp only [destruct, deref_eq hy halive, bind, Except.bind, hstack, if_true,
    Fibers.assertMacro_ok hstate, pure, Except.pure]

theorem destruct_main (hy : s.objects f = some y) (hmain : y.IsMain)
    (hcur : (s.threads t).t_fiber = some f) :
    s.destruct t f = .ok ((s.countDown.setThis t none).modify f fun x => { x with freed := true }) := by
  have hcb : y.m_cb.isNone = true := by rw [hmain.callback]; rfl
  simp only [destruct, deref_eq hy hmain.alive, bind, Except.bind, hmain.stack, Bool.false_eq_true,
    if_false, Fibers.assertMacro_ok hcb, Fibers.assertMacro_ok hmain.state, countDown_threads, hcur,
    if_true, pure, Except.pure]

end

/-! ## Steps of one thread -/

namespace Inv

variable {hist : List (ThreadsLabel θ A)} {s s' : FiberThreads θ A} {l : ThreadsLabel θ A} {t : θ}

omit [DecidableEq θ] in
/-- At home a thread works on its main fiber only. -/
theorem uses_home {a b : Option FiberPtr} {n : ℕ} {f : FiberPtr} :
    (⟨a, b, .code (.main t n)⟩ : FiberThread θ A).Uses f ↔ b = some f := by
  exact uses_iff_main rfl (Option.some_ne_none f).symm

/-- The fibers stay as they are, and the thread works on those it did. -/
theorem still (h : Inv hist s) (t : θ) (ht : labelThread l = t) {x : FiberThread θ A}
    (hx : s'.threads t = x) (hnext : s'.next = s.next)
    (hother : ∀ u, u ≠ t → s'.threads u = s.threads u) (hobjects : s'.objects = s.objects)
    (hran : ∀ f, ranSince f (hist ++ [l]) = ranSince f hist)
    (huses : ∀ f, x.Uses f ↔ (s.threads t).Uses f)
    (hworks : x.Works t (opsOf t (hist ++ [l])) (heapOf hist s)) : Inv (hist ++ [l]) s' := by
  subst hx
  have hheap : heapOf (hist ++ [l]) s' = heapOf hist s :=
    funext fun f => Prod.ext (congrFun hobjects f) (hran f)
  refine h.next ht (Nat.le_of_eq hnext.symm) hother (fun f hf => Or.inl ((huses f).1 hf))
    (fun f _ _ => Or.inl (congrFun hheap f)) (hheap ▸ hworks) fun f hf hf' => ?_
  exact absurd ((huses f).2 hf) hf'

/-- The thread works on one fiber, which it has, takes, leaves or finds unused. -/
theorem one (h : Inv hist s) (t : θ) (ht : labelThread l = t) {x : FiberThread θ A}
    (hx : s'.threads t = x) (g : FiberPtr) (hnext : s.next ≤ s'.next) (hlt : g < s'.next)
    (hother : ∀ u, u ≠ t → s'.threads u = s.threads u)
    (hobjects : ∀ f, f ≠ g → s'.objects f = s.objects f)
    (hran : ∀ f, f ≠ g → ranSince f (hist ++ [l]) = ranSince f hist)
    (htake : (s.threads t).Uses g ∨ s.Unused g)
    (huses : ∀ f, f ≠ g → (x.Uses f ↔ (s.threads t).Uses f))
    (hworks : x.Works t (opsOf t (hist ++ [l])) (heapOf (hist ++ [l]) s'))
    (hrests : ¬ x.Uses g → Rests g (heapOf (hist ++ [l]) s' g)) : Inv (hist ++ [l]) s' := by
  subst hx
  refine h.next ht hnext hother (fun f hf => ?_) (fun f hf hf' => ?_) hworks fun f hf hf' => ?_
  · by_cases hfg : f = g
    · subst hfg
      exact htake.imp_right fun hunused => ⟨hunused, hlt⟩
    · exact Or.inl ((huses f hfg).1 hf)
  · by_cases hfg : f = g
    · subst hfg
      exact Or.inr ⟨htake.resolve_left hf, hlt, hrests hf'⟩
    · exact Or.inl (Prod.ext (hobjects f hfg) (hran f hfg))
  · by_cases hfg : f = g
    · subst hfg
      exact hrests hf'
    · exact absurd ((huses f hfg).2 hf) hf'

theorem lt_next (h : Inv hist s) {f : FiberPtr} {y : FiberObject θ A} (hy : s.objects f = some y) :
    f < s.next := by
  refine Nat.lt_of_not_le fun hle => ?_
  rw [(h.fresh f hle).1] at hy
  exact absurd hy.symm (Option.some_ne_none y)

/-! ### The code of a main fiber -/

/-- The code of a main fiber runs in its own thread. -/
theorem at_main (h : Inv hist s) {t' : θ} {n : ℕ} (hpoint : (s.threads t).point = .code (.main t' n)) :
    t' = t ∧ n = (opsOf t hist).length ∧ Home (s.threads t) (heapOf hist s) := by
  cases h.works t with
  | idle hp hhome =>
      rw [hpoint] at hp
      injection hp with hp
      injection hp with ht hn
      exact ⟨ht, hn, hhome⟩
  | constructing f id cb hp => simp [hpoint] at hp
  | resetting f y cb hhome hobj hsub hp =>
      rw [hpoint] at hp
      cases hp
  | entering f m y z r cb as hcur hmain hm hz hobj hsub hparked hstate hlast hp =>
      simp [hpoint] at hp
  | switchingIn f m y z r cb as hcur hmain hm hz hobj hsub hstate hgoes hlast hp =>
      simp [hpoint] at hp
  | inside f y cb as hcur haway hobj hsub hstate hp =>
      have hstack := hp.stack
      rw [hpoint] at hstack
      exact absurd hstack (by simp [Point.stack, Point.cont, Code.stack])
  | switchingOut f m y cb as k hcur hmain haway hobj hsub hleaves hp => simp [hpoint] at hp
  | exited hp => simp [hpoint] at hp

/-- A sub-fiber that nobody works on, with its record. -/
theorem parked (h : Inv hist s) {f : FiberPtr} {x : FiberObject θ A} (hunused : s.Unused f)
    (hx : s.fiber f = some x) :
    ∃ cb as, heapOf hist s f = (some x, some (cb, as)) ∧ x.IsSub cb as ∧ x.Parked f cb as := by
  obtain ⟨hobj, halive⟩ := fiber_eq_some.1 hx
  obtain ⟨cb, as, hran, hsub, hparked⟩ := h.rests hunused x hobj halive
  exact ⟨cb, as, heapOf_eq.2 ⟨hobj, hran⟩, hsub, hparked⟩

/-- What the operations of a main fiber's code do to the fibers, in thread `t` at home. -/
theorem mainOp (h : Inv hist s) {op : FiberOp A} {n : ℕ}
    (hpoint : (s.threads t).point = .code (.main t n)) (hn : n = (opsOf t hist).length)
    (hhome : Home (s.threads t) (heapOf hist s)) (hfresh : s.freshFor op = true)
    (hstated : s.Stated (.main t op)) (hunused : s.TakesUnused (.main t op)) :
    Inv (hist ++ [.main t op]) (s.settle t (s.mainOp t (.main t (n + 1)) op)) := by
  have hlen : (opsOf t (hist ++ [.main t op])).length = n + 1 := by
    rw [opsOf_concat_main, List.length_append, List.length_singleton, hn]
  have huses : ∀ f, (s.threads t).Uses f ↔ (s.threads t).t_threadFiber = some f := fun f => by
    exact uses_iff_main (by rw [hpoint]; rfl) (by rw [hpoint]; exact (Option.some_ne_none f).symm)
  have hrun : ∀ f, recordOf f (ranSince f hist) (.main t op) = ranSince f hist →
      ranSince f (hist ++ [.main t op]) = ranSince f hist := fun f => (ranSince_concat f hist _).trans
  cases op with
  | getThis =>
      rcases hhome with ⟨hcur, hmain⟩ | ⟨m, y, r, hcur, hmain, hobj, hy⟩
      · obtain ⟨y, hobj, hy⟩ := born_objects_self s t
        obtain ⟨-, hnew⟩ := h.fresh s.next (Nat.le_refl _)
        simp only [FiberThreads.mainOp, getThis_new hcur, settle, bind, Except.bind, pure, Except.pure]
        refine h.one t rfl (goto_threads_self ..) s.next (Nat.le_succ _) (Nat.lt_succ_self _)
          (fun u hu => ?_) (fun f hf => born_objects_of_ne (t := t) hf) (fun f _ => hrun f rfl)
          (Or.inr hnew) (fun f hf => ?_) ?_ fun hnot => ?_
        · rw [goto_threads_of_ne _ hu, born_threads_of_ne hu]
        · rw [huses f, hmain, uses_home, born_threads_self]
          simp [hf.symm]
        · refine .idle (by rw [hlen]) (Or.inr ⟨s.next, y, _, ?_, ?_, Prod.ext hobj rfl, hy⟩)
          · rw [born_threads_self]
          · rw [born_threads_self]
        · rw [uses_home, born_threads_self] at hnot
          exact absurd rfl hnot
      · have hget := getThis_eq hcur (heapOf_eq.1 hobj).1 hy.alive
        simp only [FiberThreads.mainOp, hget, settle, bind, Except.bind, pure, Except.pure]
        refine h.still t rfl (goto_threads_self ..) rfl (fun u hu => goto_threads_of_ne _ hu) rfl
          (fun f => hrun f rfl) (fun f => ?_) (.idle (by rw [hlen]) (Or.inr ⟨m, y, r, hcur, hmain,
            hobj, hy⟩))
        rw [huses f, uses_home]
  | construct f cb =>
      obtain rfl : f = s.next := of_decide_eq_true hfresh
      obtain ⟨hnone, hnew⟩ := h.fresh s.next (Nat.le_refl _)
      refine h.one t rfl (setPoint_threads_self ..) s.next (Nat.le_succ _) (Nat.lt_succ_self _)
        (fun u hu => setPoint_threads_of_ne _ hu) (fun f _ => rfl) (fun f hf => ?_) (Or.inr hnew)
        (fun f hf => ?_) ?_ fun hnot => absurd (Or.inr (Or.inr rfl)) hnot
      · exact hrun f (if_neg hf.symm)
      · rw [huses f]
        exact uses_iff_main rfl fun heq => hf (Option.some.inj heq).symm
      · refine .constructing s.next _ cb (by rw [hlen]) (hhome.mono rfl rfl fun m y r _ hm _ => ?_)
          (Prod.ext hnone ?_)
        · obtain ⟨hobj, hr⟩ := heapOf_eq.1 hm
          exact Prod.ext hobj ((hrun m (if_neg (Nat.ne_of_gt (h.lt_next hobj)))).trans hr)
        · exact (ranSince_concat ..).trans (if_pos rfl)
  | reset f cb =>
      obtain ⟨x, hx, hstack, hstate⟩ := hstated
      obtain ⟨hobj, halive⟩ := fiber_eq_some.1 hx
      refine h.one t rfl (setPoint_threads_self ..) f (Nat.le_refl _) (h.lt_next hobj)
        (fun u hu => setPoint_threads_of_ne _ hu) (fun f _ => rfl) (fun f hf => hrun f (if_neg hf.symm))
        (Or.inr hunused) (fun g hg => ?_) ?_ fun hnot => absurd (Or.inr (Or.inr rfl)) hnot
      · rw [huses g]
        exact uses_iff_main rfl fun heq => hg (Option.some.inj heq).symm
      · refine .resetting f x cb (hhome.mono rfl rfl fun m y r hm hmobj hy => ?_) (Prod.ext hobj ?_)
          ⟨halive, hstack, rfl⟩ (hlen ▸ .checks hstate)
        · have hmf : f ≠ m := fun heq => hunused t ((huses f).2 (heq ▸ hm))
          obtain ⟨hmobj, hr⟩ := heapOf_eq.1 hmobj
          exact Prod.ext hmobj ((hrun m (if_neg hmf)).trans hr)
        · exact (ranSince_concat ..).trans (if_pos rfl)
  | swapIn f =>
      obtain ⟨hmain, x, hx, hstack, hstate⟩ := hstated
      obtain ⟨cb, as, hobj, hsub, hparked⟩ := h.parked hunused hx
      rcases hhome with ⟨-, hnone⟩ | ⟨m, z, r, hcur, hm, hmobj, hz⟩
      · rw [hnone] at hmain
        exact absurd hmain (by simp)
      · have hheap : ∀ g, heapOf (hist ++ [.main t (.swapIn f)]) (s.swapIn t f (.main t (n + 1))) g =
            heapOf hist s g := fun g => Prod.ext rfl (hrun g rfl)
        refine h.one t rfl (setPoint_threads_self ..) f (Nat.le_refl _)
          (h.lt_next (heapOf_eq.1 hobj).1)
          (fun u hu => (setPoint_threads_of_ne _ hu).trans (setThis_threads_of_ne _ hu))
          (fun f _ => rfl) (fun g _ => hrun g rfl) (Or.inr hunused) (fun g hg => ?_) ?_
          fun hnot => absurd (Or.inr (Or.inr rfl)) hnot
        · rw [huses g]
          simp [FiberThread.Uses, Point.stack, Point.cont, Point.target, Code.stack, hg.symm]
        · refine .entering f m x z r cb as ?_ ?_ ((hheap m).trans hmobj) hz ((hheap f).trans hobj) hsub
            hparked hstate ?_ (Or.inl ?_)
          · rw [setThis_threads_self]
          · rw [setThis_threads_self]
            exact hm
          · rw [opsOf_concat_main, List.getLast?_concat]
          · rw [hlen]
  | yieldToReady => exact hstated.elim
  | yieldToHold => exact hstated.elim
  | destroy f =>
      obtain ⟨x, hx, hstack, hstate⟩ := hstated
      obtain ⟨hobj, halive⟩ := fiber_eq_some.1 hx
      simp only [FiberThreads.mainOp, destruct_sub hobj halive hstack hstate, settle, bind, Except.bind,
        pure, Except.pure]
      refine h.one t rfl (goto_threads_self ..) f (Nat.le_refl _) (h.lt_next hobj)
        (fun u hu => goto_threads_of_ne _ hu) (fun g hg => modify_objects_of_ne _ hg)
        (fun g _ => hrun g rfl) (Or.inr hunused) (fun g _ => ?_) ?_
        fun _ => rests_freed (modify_objects_self _ hobj) rfl
      · rw [huses g, uses_home]
        rfl
      · refine .idle (by rw [hlen]) (hhome.mono rfl rfl fun m y r hm hmobj _ => ?_)
        have hmf : m ≠ f := fun heq => hunused t ((huses f).2 (heq ▸ hm))
        obtain ⟨hmobj, hr⟩ := heapOf_eq.1 hmobj
        exact Prod.ext ((modify_objects_of_ne _ hmf).trans hmobj) ((hrun m rfl).trans hr)
  | exit =>
      rcases hhome with ⟨hcur, hmain⟩ | ⟨m, y, r, hcur, hmain, hobj, hy⟩
      · simp only [FiberThreads.mainOp, hmain, settle]
        refine h.still t rfl (setPoint_threads_self ..) rfl (fun u hu => setPoint_threads_of_ne _ hu) rfl
          (fun f => hrun f rfl) (fun f => ?_) (.exited rfl hmain)
        rw [huses f]
        exact uses_iff_main rfl (Option.some_ne_none f).symm
      · have hobj' := (heapOf_eq.1 hobj).1
        have hdestruct := destruct_main (s := s.setThread t { s.threads t with t_threadFiber := none })
          (t := t) hobj' hy (by rw [setThread_threads_self]; exact hcur)
        simp only [FiberThreads.mainOp, hmain, hdestruct, settle, bind, Except.bind, pure, Except.pure]
        refine h.one t rfl (setPoint_threads_self ..) m (Nat.le_refl _) (h.lt_next hobj')
          (fun u hu => ?_) (fun g hg => modify_objects_of_ne _ hg) (fun g _ => hrun g rfl)
          (Or.inl ((huses m).2 hmain)) (fun g hg => ?_) (.exited rfl ?_)
          fun _ => rests_freed (modify_objects_self _ hobj') rfl
        · rw [setPoint_threads_of_ne _ hu, modify_threads, setThis_threads_of_ne _ hu, countDown_threads,
            setThread_threads_of_ne _ hu]
        · rw [huses g, hmain]
          simp [FiberThread.Uses, Point.stack, Point.cont, Point.target, hg.symm]
        · simp
  | step a =>
      refine h.still t rfl (goto_threads_self ..) rfl (fun u hu => goto_threads_of_ne _ hu) rfl
        (fun f => hrun f rfl) (fun f => ?_) (.idle (by rw [hlen]) hhome)
      rw [huses f, uses_home]

/-! ### The functions of `Fiber` -/

/-- An access that leaves the fibers as they are. -/
theorem go_still (h : Inv hist s) (t : θ) {x : FiberThread θ A} (hx : s'.threads t = x)
    (hnext : s'.next = s.next) (hother : ∀ u, u ≠ t → s'.threads u = s.threads u)
    (hobjects : s'.objects = s.objects) (huses : ∀ f, x.Uses f ↔ (s.threads t).Uses f)
    (hworks : x.Works t (opsOf t hist) (heapOf hist s)) : Inv (hist ++ [.go t]) s' :=
  h.still t rfl hx hnext hother hobjects (fun f => ranSince_go f hist t) huses
    (by rwa [opsOf_concat_go])

/-- An access to the fiber `g`, on which the thread works. -/
theorem go_one (h : Inv hist s) (t : θ) {x : FiberThread θ A} (hx : s'.threads t = x) {g : FiberPtr}
    (hlt : g < s.next) (hnext : s'.next = s.next)
    (hother : ∀ u, u ≠ t → s'.threads u = s.threads u)
    (hobjects : ∀ f, f ≠ g → s'.objects f = s.objects f) (htake : (s.threads t).Uses g)
    (huses : ∀ f, f ≠ g → (x.Uses f ↔ (s.threads t).Uses f))
    (hworks : ∀ h' : FiberPtr → Recorded θ A, (∀ f, f ≠ g → h' f = heapOf hist s f) →
      h' g = (s'.objects g, ranSince g hist) → x.Works t (opsOf t hist) h')
    (hrests : ¬ x.Uses g → Rests g (s'.objects g, ranSince g hist)) : Inv (hist ++ [.go t]) s' := by
  have hran := fun f => ranSince_go f hist t
  have hself : heapOf (hist ++ [.go t]) s' g = (s'.objects g, ranSince g hist) :=
    Prod.ext rfl (hran g)
  refine h.one t rfl hx g (Nat.le_of_eq hnext.symm) (hnext ▸ hlt) hother hobjects
    (fun f _ => hran f) (Or.inl htake) huses ?_ fun hnot => hself ▸ hrests hnot
  rw [opsOf_concat_go]
  exact hworks _ (fun f hf => Prod.ext (hobjects f hf) (hran f)) hself

theorem lt_of_uses (h : Inv hist s) {f : FiberPtr} (huses : (s.threads t).Uses f) : f < s.next :=
  Nat.lt_of_not_le fun hle => (h.fresh f hle).2 t huses

/-- The constructor of a sub-fiber counts it and returns. -/
theorem access_newFiber (h : Inv hist s) {f id : ℕ} {cb : Callback A}
    (hpoint : (s.threads t).point = .newFiber f id cb (.main t (opsOf t hist).length))
    (hhome : Home (s.threads t) (heapOf hist s)) (hgiven : heapOf hist s f = (none, some (cb, []))) :
    Inv (hist ++ [.go t])
      (s.settle t (s.access t (.newFiber f id cb (.main t (opsOf t hist).length)))) := by
  obtain ⟨hnone, hran⟩ := heapOf_eq.1 hgiven
  have htake : (s.threads t).Uses f := Or.inr (Or.inr (by rw [hpoint]; rfl))
  refine h.go_one t (goto_threads_self ..) (h.lt_of_uses htake) rfl
    (fun u hu => goto_threads_of_ne _ hu) (fun g hg => setObject_objects_of_ne _ hg) htake
    (fun g hg => ?_) (fun h' hframe _ => .idle rfl (hhome.mono rfl rfl fun m y r _ hm _ => ?_)) ?_
  · rw [uses_home, uses_iff_main (by rw [hpoint]; rfl)]
    · rfl
    · rw [hpoint]
      exact fun heq => hg (Option.some.inj heq).symm
  · refine (hframe m fun heq => ?_).trans hm
    rw [heq, hgiven] at hm
    exact absurd (congrArg Prod.fst hm).symm (Option.some_ne_none y)
  · intro _ x hx _
    obtain rfl := Option.some.inj ((setObject_objects_self _).symm.trans hx)
    exact ⟨cb, [], hran, ⟨rfl, rfl, rfl⟩, .waiting rfl rfl rfl rfl⟩

omit [DecidableEq θ] in
/-- A main fiber is not a sub-fiber. -/
theorem main_ne {f m : FiberPtr} {y z : FiberObject θ A} {q r : Record A} {cb : Callback A}
    {as : List (CbAction A)} (hobj : heapOf hist s f = (some y, q)) (hsub : y.IsSub cb as)
    (hmobj : heapOf hist s m = (some z, r)) (hz : z.IsMain) : m ≠ f := by
  rintro rfl
  obtain rfl := Option.some.inj (congrArg Prod.fst (hobj.symm.trans hmobj))
  exact absurd (hsub.stack.symm.trans hz.stack) (by simp)

/-- `reset`, access by access. -/
theorem access_reset (h : Inv hist s) {f : FiberPtr} {y : FiberObject θ A} {cb : Callback A}
    (hhome : Home (s.threads t) (heapOf hist s)) (hobj : heapOf hist s f = (some y, some (cb, [])))
    (hsub : y.IsSub cb []) (hp : Resetting f y cb (.main t (opsOf t hist).length) (s.threads t).point) :
    Inv (hist ++ [.go t]) (s.settle t (s.access t (s.threads t).point)) := by
  obtain ⟨hy, hran⟩ := heapOf_eq.1 hobj
  have htake : (s.threads t).Uses f := Or.inr (Or.inr hp.target)
  have hhome' : ∀ x' : FiberThread θ A, x'.t_fiber = (s.threads t).t_fiber →
      x'.t_threadFiber = (s.threads t).t_threadFiber → ∀ h' : FiberPtr → Recorded θ A,
      (∀ g, g ≠ f → h' g = heapOf hist s g) → Home x' h' := fun x' hc hm h' hframe =>
    hhome.mono hc hm fun m z r _ hm hz => (hframe m (main_ne hobj hsub hm hz)).trans hm
  generalize hpoint : (s.threads t).point = p at hp ⊢
  cases hp with
  | checks hstate =>
      have hstate' : y.m_state = .term ∨ y.m_state = .except ∨ y.m_state = .init := hstate
      simp only [access, deref_eq hy hsub.alive, Fibers.assertMacro_ok hsub.stack,
        Fibers.assertMacro_ok hstate', settle, bind, Except.bind, pure, Except.pure]
      refine h.go_still t (setPoint_threads_self ..) rfl (fun u hu => setPoint_threads_of_ne _ hu) rfl
        (fun g => ?_) (.resetting f y cb (hhome' _ rfl rfl _ fun _ _ => rfl) hobj hsub .callback)
      exact uses_congr rfl (by rw [hpoint]; rfl) (by rw [hpoint]; rfl)
  | callback =>
      simp only [access, deref_eq hy hsub.alive, settle, bind, Except.bind, pure, Except.pure]
      refine h.go_one t (setPoint_threads_self ..) (h.lt_next hy) rfl
        (fun u hu => setPoint_threads_of_ne _ hu) (fun g hg => modify_objects_of_ne _ hg) htake
        (fun g hg => ?_) (fun h' hframe hself => ?_) fun hnot => absurd (Or.inr (Or.inr rfl)) hnot
      · exact uses_congr rfl (by rw [hpoint]; rfl) (by rw [hpoint]; rfl)
      · refine .resetting f { y with m_cb := some cb } cb (hhome' _ rfl rfl _ hframe) ?_
          ⟨hsub.alive, hsub.stack, rfl⟩ (.context rfl)
        rw [hself, setPoint_objects, modify_objects_self _ hy, hran]
  | context hgiven =>
      simp only [access, deref_eq hy hsub.alive, settle, bind, Except.bind, pure, Except.pure]
      refine h.go_one t (setPoint_threads_self ..) (h.lt_next hy) rfl
        (fun u hu => setPoint_threads_of_ne _ hu) (fun g hg => modify_objects_of_ne _ hg) htake
        (fun g hg => ?_) (fun h' hframe hself => ?_) fun hnot => absurd (Or.inr (Or.inr rfl)) hnot
      · exact uses_congr rfl (by rw [hpoint]; rfl) (by rw [hpoint]; rfl)
      · refine .resetting f { y with m_ctx := .mainFunc f } cb (hhome' _ rfl rfl _ hframe) ?_
          ⟨hsub.alive, hsub.stack, rfl⟩ (.state hgiven rfl)
        rw [hself, setPoint_objects, modify_objects_self _ hy, hran]
  | state hgiven hctx =>
      simp only [access, deref_eq hy hsub.alive, settle, bind, Except.bind, pure, Except.pure]
      refine h.go_one t (goto_threads_self ..) (h.lt_next hy) rfl
        (fun u hu => goto_threads_of_ne _ hu) (fun g hg => modify_objects_of_ne _ hg) htake
        (fun g hg => ?_) (fun h' hframe _ => .idle rfl (hhome' _ rfl rfl _ hframe)) fun _ x hx _ => ?_
      · rw [uses_home, uses_iff_main (by rw [hpoint]; rfl)]
        · rfl
        · rw [hpoint]
          exact fun heq => hg (Option.some.inj heq).symm
      · obtain rfl := Option.some.inj ((modify_objects_self _ hy).symm.trans hx)
        exact ⟨cb, [], hran, ⟨hsub.alive, hsub.stack, rfl⟩, .waiting rfl hctx hgiven rfl⟩

/-- `swapIn` before its `swapcontext`. -/
theorem access_swapIn (h : Inv hist s) {f m : FiberPtr} {y z : FiberObject θ A} {r : Record A}
    {cb : Callback A} {as : List (CbAction A)} (hcur : (s.threads t).t_fiber = some f)
    (hm : (s.threads t).t_threadFiber = some m) (hmobj : heapOf hist s m = (some z, r))
    (hz : z.IsMain) (hobj : heapOf hist s f = (some y, some (cb, as))) (hsub : y.IsSub cb as)
    (hparked : y.Parked f cb as)
    (hstate : y.m_state = .init ∨ y.m_state = .ready ∨ y.m_state = .hold)
    (hlast : (opsOf t hist).getLast? = some (.swapIn f))
    (hp : (s.threads t).point = .swapIn f (.main t (opsOf t hist).length) ∨
      (s.threads t).point = .swapInExec f (.main t (opsOf t hist).length)) :
    Inv (hist ++ [.go t]) (s.settle t (s.access t (s.threads t).point)) := by
  obtain ⟨hy, hran⟩ := heapOf_eq.1 hobj
  rcases hp with hpoint | hpoint <;> rw [hpoint]
  · have hexec : y.m_state ≠ .exec := by
      rcases hstate with hs | hs | hs <;> simp [hs]
    simp only [access, deref_eq hy hsub.alive, Fibers.assertMacro_ok hexec, settle, bind, Except.bind,
      pure, Except.pure]
    refine h.go_still t (setPoint_threads_self ..) rfl (fun u hu => setPoint_threads_of_ne _ hu) rfl
      (fun g => ?_) (.entering f m y z r cb as hcur hm hmobj hz hobj hsub hparked hstate hlast
        (Or.inr rfl))
    exact uses_congr rfl (by rw [hpoint]; rfl) (by rw [hpoint]; rfl)
  · simp only [access, deref_eq hy hsub.alive, hm, settle, bind, Except.bind, pure, Except.pure]
    have htake : (s.threads t).Uses f := Or.inr (Or.inr (by rw [hpoint]; rfl))
    refine h.go_one t (setPoint_threads_self ..) (h.lt_next hy) rfl
      (fun u hu => setPoint_threads_of_ne _ hu) (fun g hg => modify_objects_of_ne _ hg) htake
      (fun g hg => ?_) (fun h' hframe hself => ?_) fun hnot => absurd (Or.inr (Or.inr rfl)) hnot
    · exact uses_congr rfl (by rw [hpoint]; rfl) (by rw [hpoint]; rfl)
    · refine .switchingIn f m { y with m_state := .exec } z r cb as hcur hm
        ((hframe m (main_ne hobj hsub hmobj hz)).trans hmobj) hz ?_
        ⟨hsub.alive, hsub.stack, hsub.inOrder⟩ rfl (hparked.goesOn hstate _) hlast (Or.inl rfl)
      rw [hself, setPoint_objects, modify_objects_self _ hy, hran]

/-- The `swapcontext` of `swapIn`. -/
theorem access_switchIn (h : Inv hist s) {f m : FiberPtr} {y z : FiberObject θ A} {r : Record A}
    {cb : Callback A} {as : List (CbAction A)} (hcur : (s.threads t).t_fiber = some f)
    (hm : (s.threads t).t_threadFiber = some m) (hmobj : heapOf hist s m = (some z, r))
    (hz : z.IsMain) (hobj : heapOf hist s f = (some y, some (cb, as))) (hsub : y.IsSub cb as)
    (hstate : y.m_state = .exec) (hgoes : GoesOn f y cb as y.m_ctx)
    (hlast : (opsOf t hist).getLast? = some (.swapIn f))
    (hp : (s.threads t).point = .save m f (.main t (opsOf t hist).length) ∨
      (s.threads t).point = .load m f (.main t (opsOf t hist).length) ∧
        z.m_ctx = .main t (opsOf t hist).length) :
    Inv (hist ++ [.go t]) (s.settle t (s.access t (s.threads t).point)) := by
  rcases hp with hpoint | ⟨hpoint, hctx⟩ <;> rw [hpoint]
  · obtain ⟨hz', hran⟩ := heapOf_eq.1 hmobj
    simp only [access, deref_eq hz' hz.alive, settle, bind, Except.bind, pure, Except.pure]
    refine h.go_one t (setPoint_threads_self ..) (h.lt_next hz') rfl
      (fun u hu => setPoint_threads_of_ne _ hu) (fun g hg => modify_objects_of_ne _ hg) (Or.inl hm)
      (fun g _ => ?_) (fun h' hframe hself => ?_) fun hnot => absurd (Or.inl hm) hnot
    · exact uses_congr rfl (by rw [hpoint]; rfl) (by rw [hpoint]; rfl)
    · refine .switchingIn f m y { z with m_ctx := .main t (opsOf t hist).length } r cb as hcur hm ?_
        ⟨hz.alive, hz.stack, hz.state, hz.callback, hz.id⟩
        ((hframe f (main_ne hobj hsub hmobj hz).symm).trans hobj) hsub hstate hgoes hlast
        (Or.inr ⟨rfl, rfl⟩)
      rw [hself, setPoint_objects, modify_objects_self _ hz', hran]
  · simp only [access, deref_eq (heapOf_eq.1 hobj).1 hsub.alive, settle, bind, Except.bind, pure,
      Except.pure]
    refine h.go_still t (goto_threads_self ..) rfl (fun u hu => goto_threads_of_ne _ hu) rfl
      (fun g => ?_) (.inside f y cb as hcur ⟨m, z, r, hm, hmobj, hz, hctx, hlast⟩ hobj hsub hstate
        (.code hgoes))
    simp [FiberThread.Uses, hpoint, Point.stack, Point.cont, Point.target, hgoes.stack]

/-- The functions that run on the stack of a sub-fiber. -/
theorem access_inside (h : Inv hist s) {f : FiberPtr} {y : FiberObject θ A} {cb : Callback A}
    {as : List (CbAction A)} (hcur : (s.threads t).t_fiber = some f)
    (haway : Away t (s.threads t) (opsOf t hist) (heapOf hist s) f)
    (hobj : heapOf hist s f = (some y, some (cb, as))) (hsub : y.IsSub cb as)
    (hstate : y.m_state = .exec) (hp : Inside f y cb as (s.threads t).point)
    (hbusy : (s.threads t).point.busy = true) :
    Inv (hist ++ [.go t]) (s.settle t (s.access t (s.threads t).point)) := by
  obtain ⟨hy, hran⟩ := heapOf_eq.1 hobj
  have htake : (s.threads t).Uses f := Or.inr (Or.inl hp.stack)
  generalize hpoint : (s.threads t).point = p at hp hbusy ⊢
  cases hp with
  | code hgoes =>
      cases hgoes with
      | enter hcb hnil =>
          subst hnil
          simp only [access, mainFunc, getThis_eq hcur hy hsub.alive, deref_eq hy hsub.alive, hcb, settle,
            bind, Except.bind, pure, Except.pure]
          refine h.go_still t (goto_threads_self ..) rfl (fun u hu => goto_threads_of_ne _ hu) rfl
            (fun g => ?_) (.inside f y cb [] hcur (haway.mono rfl fun _ _ _ _ hm _ => hm) hobj hsub
              hstate (.code (.resume (by simp [Live]))))
          exact uses_congr rfl (by rw [hpoint]; rfl) (by rw [hpoint]; rfl)
      | resume => simp [Point.busy] at hbusy
  | yields hleaves =>
      simp only [access, deref_eq hy hsub.alive, Fibers.assertMacro_ok hstate, settle, bind, Except.bind,
        pure, Except.pure]
      refine h.go_still t (setPoint_threads_self ..) rfl (fun u hu => setPoint_threads_of_ne _ hu) rfl
        (fun g => ?_) (.inside f y cb as hcur (haway.mono rfl fun _ _ _ _ hm _ => hm) hobj hsub hstate
          (.leaves hleaves))
      exact uses_congr rfl (by rw [hpoint]; rfl) (by rw [hpoint]; rfl)
  | returns hended =>
      simp only [access, deref_eq hy hsub.alive, settle, bind, Except.bind, pure, Except.pure]
      refine h.go_one t (setPoint_threads_self ..) (h.lt_next hy) rfl
        (fun u hu => setPoint_threads_of_ne _ hu) (fun g hg => modify_objects_of_ne _ hg) htake
        (fun g _ => ?_) (fun h' hframe hself => ?_) fun hnot => absurd (Or.inr (Or.inl rfl)) hnot
      · exact uses_congr rfl (by rw [hpoint]; rfl) (by rw [hpoint]; rfl)
      · refine .inside f { y with m_cb := none } cb as hcur (haway.mono rfl fun m z r _ hm hz => ?_) ?_
          ⟨hsub.alive, hsub.stack, hsub.inOrder⟩ hstate (.leaves (.finished (Or.inl rfl) hended))
        · exact (hframe m (main_ne hobj hsub hm hz)).trans hm
        · rw [hself, setPoint_objects, modify_objects_self _ hy, hran]
  | @leaves state k hleaves =>
      obtain ⟨m, z, r, hm, hmobj, hz, hctx, hlast⟩ := haway
      simp only [access, deref_eq hy hsub.alive, swapOut, modify_threads, hm, settle, bind, Except.bind]
      refine h.go_one t (setPoint_threads_self ..) (h.lt_next hy) rfl
        (fun u hu => ?_) (fun g hg => modify_objects_of_ne _ hg) htake
        (fun g hg => ?_) (fun h' hframe hself => ?_) fun hnot => ?_
      · rw [setPoint_threads_of_ne _ hu, setThis_threads_of_ne _ hu, modify_threads]
      · simp [FiberThread.Uses, hpoint, Point.stack, Point.cont, Point.target, hm, hleaves.stack,
          hg.symm]
      · refine .switchingOut f m { y with m_state := state } cb as k ?_ ?_ ⟨m, z, r, ?_, ?_, hz, hctx,
          hlast⟩ ?_ ⟨hsub.alive, hsub.stack, hsub.inOrder⟩ hleaves (Or.inl rfl)
        · rw [setThis_threads_self]
        · rw [setThis_threads_self]
          exact hm
        · rw [setThis_threads_self]
          exact hm
        · exact (hframe m (main_ne hobj hsub hmobj hz)).trans hmobj
        · rw [hself, setPoint_objects, setThis_objects, modify_objects_self _ hy, hran]
      · exact absurd (Or.inr (Or.inl hleaves.stack)) hnot

/-- The `swapcontext` of `swapOut`. -/
theorem access_switchOut (h : Inv hist s) {f m : FiberPtr} {y : FiberObject θ A} {cb : Callback A}
    {as : List (CbAction A)} {k : Code θ A} (hcur : (s.threads t).t_fiber = some m)
    (hm : (s.threads t).t_threadFiber = some m)
    (haway : Away t (s.threads t) (opsOf t hist) (heapOf hist s) f)
    (hobj : heapOf hist s f = (some y, some (cb, as))) (hsub : y.IsSub cb as)
    (hleaves : Leaves f cb as y.m_state k)
    (hp : (s.threads t).point = .save f m k ∨ (s.threads t).point = .load f m k ∧ y.m_ctx = k) :
    Inv (hist ++ [.go t]) (s.settle t (s.access t (s.threads t).point)) := by
  obtain ⟨hy, hran⟩ := heapOf_eq.1 hobj
  rcases hp with hpoint | ⟨hpoint, hctx⟩ <;> rw [hpoint]
  · have htake : (s.threads t).Uses f := Or.inr (Or.inl (by rw [hpoint]; exact hleaves.stack))
    simp only [access, deref_eq hy hsub.alive, settle, bind, Except.bind, pure, Except.pure]
    refine h.go_one t (setPoint_threads_self ..) (h.lt_next hy) rfl
      (fun u hu => setPoint_threads_of_ne _ hu) (fun g hg => modify_objects_of_ne _ hg) htake
      (fun g _ => ?_) (fun h' hframe hself => ?_) fun hnot => absurd (Or.inr (Or.inl hleaves.stack)) hnot
    · exact uses_congr rfl (by rw [hpoint]; rfl) (by rw [hpoint]; rfl)
    · refine .switchingOut f m { y with m_ctx := k } cb as k hcur hm
        (haway.mono rfl fun m z r _ hm hz => (hframe m (main_ne hobj hsub hm hz)).trans hm) ?_
        ⟨hsub.alive, hsub.stack, hsub.inOrder⟩ hleaves (Or.inr ⟨rfl, rfl⟩)
      rw [hself, setPoint_objects, modify_objects_self _ hy, hran]
  · have htake : (s.threads t).Uses f := Or.inr (Or.inl (by rw [hpoint]; exact hleaves.stack))
    obtain ⟨m', z, r, hm', hmobj, hz, hmctx, -⟩ := haway
    obtain rfl := Option.some.inj (hm.symm.trans hm')
    simp only [access, deref_eq (heapOf_eq.1 hmobj).1 hz.alive, settle, bind, Except.bind, pure,
      Except.pure, hmctx]
    refine h.go_one t (goto_threads_self ..) (h.lt_next hy) rfl
      (fun u hu => goto_threads_of_ne _ hu) (fun g _ => rfl) htake
      (fun g hg => ?_) (fun h' hframe _ => .idle rfl (Or.inr ⟨m, z, r, hcur, hm, ?_, hz⟩))
      fun _ x hx _ => ?_
    · rw [uses_home]
      simp [FiberThread.Uses, hpoint, Point.stack, Point.cont, Point.target, hm, hleaves.stack, hg.symm]
    · exact (hframe m (main_ne hobj hsub hmobj hz)).trans hmobj
    · obtain rfl := Option.some.inj (hy.symm.trans hx)
      exact ⟨cb, as, hran, hsub, .left (hctx ▸ hleaves)⟩

/-- Every access of a function of `Fiber`. -/
theorem access (h : Inv hist s) (hbusy : (s.threads t).point.busy = true) :
    Inv (hist ++ [.go t]) (s.settle t (s.access t (s.threads t).point)) := by
  cases h.works t with
  | idle hp => simp [hp, Point.busy] at hbusy
  | constructing f id cb hp hhome hgiven =>
      rw [hp]
      exact h.access_newFiber hp hhome hgiven
  | resetting f y cb hhome hobj hsub hp => exact h.access_reset hhome hobj hsub hp
  | entering f m y z r cb as hcur hm hmobj hz hobj hsub hparked hstate hlast hp =>
      exact h.access_swapIn hcur hm hmobj hz hobj hsub hparked hstate hlast hp
  | switchingIn f m y z r cb as hcur hm hmobj hz hobj hsub hstate hgoes hlast hp =>
      exact h.access_switchIn hcur hm hmobj hz hobj hsub hstate hgoes hlast hp
  | inside f y cb as hcur haway hobj hsub hstate hp =>
      exact h.access_inside hcur haway hobj hsub hstate hp hbusy
  | switchingOut f m y cb as k hcur hm haway hobj hsub hleaves hp =>
      exact h.access_switchOut hcur hm haway hobj hsub hleaves hp
  | exited hp => simp [hp, Point.busy] at hbusy

/-! ### The code of a callback -/

/-- A callback that runs is that of the current fiber, as far as it was done. -/
theorem at_callback (h : Inv hist s) {f cur : FiberPtr} {cb : Callback A} {k : ℕ}
    (hpoint : (s.threads t).point = .code (.callback f cur cb k)) :
    ∃ y as, cur = f ∧ k = as.length ∧ (s.threads t).t_fiber = some f ∧
      Away t (s.threads t) (opsOf t hist) (heapOf hist s) f ∧
      heapOf hist s f = (some y, some (cb, as)) ∧ y.IsSub cb as ∧ y.m_state = .exec ∧ Live as := by
  cases h.works t with
  | idle hp => simp [hpoint] at hp
  | constructing f id cb hp => simp [hpoint] at hp
  | resetting f y cb hhome hobj hsub hp =>
      rw [hpoint] at hp
      cases hp
  | entering f m y z r cb as hcur hm hmobj hz hobj hsub hparked hstate hlast hp =>
      simp [hpoint] at hp
  | switchingIn f m y z r cb as hcur hm hmobj hz hobj hsub hstate hgoes hlast hp =>
      simp [hpoint] at hp
  | inside g y cb' as hcur haway hobj hsub hstate hp =>
      rw [hpoint] at hp
      cases hp with
      | code hgoes =>
          cases hgoes with
          | resume hlive => exact ⟨y, as, rfl, rfl, hcur, haway, hobj, hsub, hstate, hlive⟩
  | switchingOut f m y cb as k hcur hm haway hobj hsub hleaves hp => simp [hpoint] at hp
  | exited hp => simp [hpoint] at hp

/-- The callback has done one more action, and the thread is still on its stack. -/
theorem act_inside (h : Inv hist s) {f : FiberPtr} {y : FiberObject θ A} {cb : Callback A}
    {as : List (CbAction A)} {a : CbAction A} {p : Point θ A}
    (hpoint : (s.threads t).point.stack = some f) (htarget : (s.threads t).point.target = none)
    (hcur : (s.threads t).t_fiber = some f)
    (haway : Away t (s.threads t) (opsOf t hist) (heapOf hist s) f)
    (hobj : heapOf hist s f = (some y, some (cb, as))) (hsub : y.IsSub cb as)
    (hstate : y.m_state = .exec) (ha : cb as.length = a) (hptarget : p.target = none)
    (hp : Inside f y cb (as ++ [a]) p) : Inv (hist ++ [.act t f a]) (s.setPoint t p) := by
  obtain ⟨hy, hran⟩ := heapOf_eq.1 hobj
  have hother : ∀ g, g ≠ f → ranSince g (hist ++ [.act t f a]) = ranSince g hist := fun g hg =>
    (ranSince_concat ..).trans (if_neg hg.symm)
  refine h.one t rfl (setPoint_threads_self ..) f (Nat.le_refl _) (h.lt_next hy)
    (fun u hu => setPoint_threads_of_ne _ hu) (fun _ _ => rfl) hother
    (Or.inl (Or.inr (Or.inl hpoint))) (fun g _ => ?_) ?_ fun hnot => ?_
  · simp only [FiberThread.Uses, hp.stack, hpoint, hptarget, htarget]
  · rw [opsOf_concat_act]
    refine .inside f y cb (as ++ [a]) hcur (haway.mono rfl fun m z r _ hm hz => ?_) (Prod.ext hy ?_)
      ⟨hsub.alive, hsub.stack, ?_⟩ hstate hp
    · obtain ⟨hmobj, hr⟩ := heapOf_eq.1 hm
      exact Prod.ext hmobj ((hother m (main_ne hobj hsub hm hz)).trans hr)
    · rw [heapOf, ranSince_concat, recordOf, if_pos rfl, hran, Option.map_some]
    · rw [List.length_append, List.length_singleton, List.range_succ, List.map_append, ← hsub.inOrder,
        List.map_singleton, ha]
  · exact absurd (Or.inr (Or.inl hp.stack)) hnot

/-- Every action of a callback. -/
theorem act (h : Inv hist s) {f cur : FiberPtr} {cb : Callback A} {k : ℕ} {a : CbAction A}
    (hpoint : (s.threads t).point = .code (.callback f cur cb k)) (ha : cb k = a) :
    Inv (hist ++ [.act t f a]) (s.settle t (s.cbAction t f cur cb k a)) := by
  obtain ⟨y, as, rfl, rfl, hcur, haway, hobj, hsub, hstate, hlive⟩ := h.at_callback hpoint
  have hinside : ∀ p : Point θ A, p.target = none → Inside cur y cb (as ++ [a]) p →
      Inv (hist ++ [.act t cur a]) (s.setPoint t p) := fun p htarget hp =>
    h.act_inside (by rw [hpoint]; rfl) (by rw [hpoint]; rfl) hcur haway hobj hsub hstate ha htarget hp
  have hgoes : a.ends = false → Live (as ++ [a]) := fun hends b hb => by
    rcases List.mem_append.1 hb with hb | hb
    · exact hlive b hb
    · exact List.mem_singleton.1 hb ▸ hends
  have hlen : (as ++ [a]).length = as.length + 1 := by simp
  have hget := getThis_eq hcur (heapOf_eq.1 hobj).1 hsub.alive
  cases a with
  | step b => exact hinside _ rfl (.code (hlen ▸ .resume (hgoes rfl)))
  | yieldToReady =>
      simp only [cbAction, yieldTo, hget, settle, bind, Except.bind, pure, Except.pure]
      exact hinside _ rfl (.yields (hlen ▸ .suspended (Or.inl rfl) (hgoes rfl)))
  | yieldToHold =>
      simp only [cbAction, yieldTo, hget, settle, bind, Except.bind, pure, Except.pure]
      exact hinside _ rfl (.yields (hlen ▸ .suspended (Or.inr rfl) (hgoes rfl)))
  | ret => exact hinside _ rfl (.returns ⟨as, _, rfl, rfl, hlive⟩)
  | throw => exact hinside _ rfl (.leaves (.finished (Or.inr rfl) ⟨as, _, rfl, rfl, hlive⟩))

/-- **One step.** Steps that meet what is stated of `Fiber`, and take and destroy only fibers that
nobody works on, keep the invariant. -/
theorem step [DecidableEq A] (h : Inv hist s) (hstated : s.Stated l) (hunused : s.TakesUnused l)
    (hstep : s.step l = some s') : Inv (hist ++ [l]) s' := by
  cases l with
  | main t op =>
      obtain ⟨t', n, hpoint, hfresh, rfl⟩ := step_main hstep
      obtain ⟨rfl, hn, hhome⟩ := h.at_main hpoint
      exact h.mainOp hpoint hn hhome hfresh hstated hunused
  | act t f a =>
      obtain ⟨cur, cb, k, hpoint, ha, rfl⟩ := step_act hstep
      exact h.act hpoint ha
  | go t =>
      obtain ⟨hbusy, rfl⟩ := step_go hstep
      exact h.access hbusy

end Inv

end FiberThreads

end Ipmsg
