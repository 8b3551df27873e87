import Ipmsg.Fiber.Ledger
import Ipmsg.Fiber.ThreadsRuns

set_option autoImplicit false

/-! # Ids and the number of fibers

What the two counters say, over every run of any number of threads, whatever the code outside
`Fiber` does: every step is a change of the ledger. -/

namespace Ipmsg

variable {θ A : Type}

/-- What stays of an object when its fields are set: its id, whether it has a stack of its own, and
whether it has been destroyed. -/
def FiberObject.tag (x : FiberObject θ A) : ℕ × Bool × Bool := (x.m_id, x.m_stack, x.freed)

/-- The sub-fiber whose constructor is under way, with its id. -/
def Point.making : Point θ A → Option (FiberPtr × ℕ)
  | .newFiber this id _ _ => some (this, id)
  | _ => none

/-! ## What a step writes down -/

namespace FiberThreads

def ledger (s : FiberThreads θ A) : Ledger θ where
  tags := fun f => (s.objects f).map FiberObject.tag
  making := fun t => (s.threads t).point.making
  next := s.next
  id := s.s_fiber_id
  count := s.s_fiber_count

/-- The sub-fiber whose constructor the step calls. -/
def constructed : ThreadsLabel θ A → Option FiberPtr
  | .main _ (.construct f _) => some f
  | _ => none

variable [DecidableEq θ]

section
variable {s s' : FiberThreads θ A} {t : θ} {f : FiberPtr} {x : FiberThread θ A} {p : Point θ A}

theorem ledger_setThread (h : x.point.making = (s.threads t).point.making) :
    (s.setThread t x).ledger = s.ledger := by
  refine Ledger.ext rfl (funext fun u => ?_) rfl rfl rfl
  by_cases hu : u = t
  · simp [ledger, hu, h]
  · simp [ledger, hu]

theorem ledger_setPoint (h : p.making = (s.threads t).point.making) :
    (s.setPoint t p).ledger = s.ledger := ledger_setThread h

theorem ledger_setThis (o : Option FiberPtr) : (s.setThis t o).ledger = s.ledger :=
  ledger_setThread rfl

omit [DecidableEq θ] in
theorem ledger_modify {g : FiberObject θ A → FiberObject θ A} (hg : ∀ x, (g x).tag = x.tag) :
    (s.modify f g).ledger = s.ledger := by
  refine Ledger.ext (funext fun k => ?_) rfl rfl rfl rfl
  by_cases hk : k = f
  · simp only [ledger, modify, setObject, hk, Function.update_self, Option.map_map]
    exact congrArg (fun g => Option.map g _) (funext hg)
  · simp [ledger, modify_objects_of_ne _ hk]

theorem ledger_born : (s.born t).ledger = { s.ledger with
    tags := Function.update s.ledger.tags s.ledger.next (some (0, false, false))
    next := s.ledger.next + 1
    count := (s.ledger.count + 1) % 2 ^ 64 } := by
  refine Ledger.ext (funext fun f => ?_) (funext fun u => ?_) rfl rfl rfl
  · by_cases hf : f = s.next
    · subst hf
      show ((s.born t).objects s.next).map _ = Function.update s.ledger.tags s.next _ s.next
      have hself : (s.born t).objects s.next =
          some ⟨0, .exec, .getcontext, false, none, false⟩ := Function.update_self ..
      rw [hself, Function.update_self]
      rfl
    · show ((s.born t).objects f).map _ = Function.update s.ledger.tags s.next _ f
      rw [Function.update_of_ne hf, born_objects_of_ne hf]
      rfl
  · by_cases hu : u = t
    · simp [ledger, hu, born_threads_self]
    · simp [ledger, born_threads_of_ne hu]

theorem change_keep (h : s'.ledger = s.ledger) : Ledger.Change t s.ledger none s'.ledger := by
  rw [h]
  exact .keep

omit [DecidableEq θ] in
theorem deref_ok {y : FiberObject θ A} (h : s.deref f = .ok y) :
    s.objects f = some y ∧ y.freed = false := by
  simp only [deref] at h
  split at h
  · next z hz =>
      obtain rfl := Except.ok.inj h
      exact fiber_eq_some.1 hz
  · simp at h

/-- `GetThis` makes a main fiber at most. -/
theorem change_getThis (h : s.getThis t = .ok (s', f)) :
    Ledger.Change t s.ledger none s'.ledger ∧ (s'.threads t).point = (s.threads t).point := by
  cases hcur : (s.threads t).t_fiber with
  | none =>
      rw [getThis_new hcur] at h
      obtain ⟨rfl, -⟩ := Prod.mk.inj (Except.ok.inj h)
      rw [ledger_born, born_threads_self]
      exact ⟨.main, rfl⟩
  | some m =>
      simp only [getThis, hcur] at h
      obtain ⟨x, -, hs⟩ := bind_eq_ok.1 h
      obtain ⟨rfl, -⟩ := Prod.mk.inj (Except.ok.inj hs)
      exact ⟨.keep, rfl⟩

/-- `~Fiber` of an object that is alive. -/
theorem change_destruct (h : s.destruct t f = .ok s') :
    Ledger.Change t s.ledger none s'.ledger ∧ (s'.threads t).point = (s.threads t).point := by
  obtain ⟨y, hy, h⟩ := bind_eq_ok.1 h
  obtain ⟨hobj, halive⟩ := deref_ok hy
  have htag : s.ledger.tags f = some (y.m_id, y.m_stack, false) := by
    simp [ledger, hobj, FiberObject.tag, halive]
  -- what is left when the object is marked, in a state that differs in what a thread has only
  have hmark : ∀ s₁ : FiberThreads θ A, s₁.ledger = s.countDown.ledger → s₁.objects = s.objects →
      (s₁.modify f fun x => { x with freed := true }).ledger = { s.ledger with
        tags := Function.update s.ledger.tags f (some (y.m_id, y.m_stack, true))
        count := (2 ^ 64 - 1 + s.ledger.count) % 2 ^ 64 } := by
    intro s₁ hledger hobjects
    have hrest : (s₁.modify f fun x => { x with freed := true }).ledger =
        { s.countDown.ledger with
          tags := (s₁.modify f fun x => { x with freed := true }).ledger.tags } :=
      congrArg (fun l : Ledger θ => { l with
        tags := (s₁.modify f fun x => { x with freed := true }).ledger.tags }) hledger
    rw [hrest]
    refine Ledger.ext (funext fun k => ?_) rfl rfl rfl rfl
    by_cases hk : k = f
    · subst hk
      show ((s₁.modify k _).objects k).map _ = Function.update s.ledger.tags k _ k
      rw [modify_objects_self _ (hobjects ▸ hobj), Function.update_self]
      rfl
    · show ((s₁.modify f _).objects k).map _ = Function.update s.ledger.tags f _ k
      rw [modify_objects_of_ne _ hk, hobjects, Function.update_of_ne hk]
      rfl
  split_ifs at h with hstack
  · obtain ⟨-, -, h⟩ := bind_eq_ok.1 h
    obtain rfl := Except.ok.inj h
    rw [hmark s.countDown rfl rfl]
    exact ⟨.destroy htag, rfl⟩
  · obtain ⟨-, -, h⟩ := bind_eq_ok.1 h
    obtain ⟨-, -, h⟩ := bind_eq_ok.1 h
    obtain rfl := Except.ok.inj h
    split_ifs with hcur
    · rw [hmark (s.countDown.setThis t none) (ledger_setThis none) rfl]
      exact ⟨.destroy htag, by simp⟩
    · rw [hmark s.countDown rfl rfl]
      exact ⟨.destroy htag, rfl⟩

theorem change_settle (hidle : (s.threads t).point.making = none)
    {r : Except Fault (FiberThreads θ A)}
    (h : ∀ s', r = .ok s' → Ledger.Change t s.ledger none s'.ledger) :
    Ledger.Change t s.ledger none (s.settle t r).ledger := by
  cases r with
  | ok s' => exact h s' rfl
  | error e => exact change_keep (ledger_setPoint hidle.symm)

/-- A function that has come to its next access. -/
theorem change_setPoint (h : Ledger.Change t s.ledger none s'.ledger)
    (hpoint : (s'.threads t).point = (s.threads t).point)
    (hp : p.making = (s.threads t).point.making) :
    Ledger.Change t s.ledger none (s'.setPoint t p).ledger := by
  rwa [ledger_setPoint (hp.trans (congrArg Point.making hpoint.symm))]

theorem change_yieldTo {state : FiberState} {k : Code θ A}
    (hidle : (s.threads t).point.making = none) (h : yieldTo state s t k = .ok s') :
    Ledger.Change t s.ledger none s'.ledger := by
  obtain ⟨⟨s₁, cur⟩, hget, h⟩ := bind_eq_ok.1 h
  obtain rfl := Except.ok.inj h
  obtain ⟨hchange, hpoint⟩ := change_getThis hget
  exact change_setPoint hchange hpoint hidle.symm

theorem change_construct (hidle : (s.threads t).point.making = none) (cb : Callback A)
    (k : Code θ A) :
    Ledger.Change t s.ledger (some s.next) (s.newFiber t s.next cb k).ledger := by
  have heq : (s.newFiber t s.next cb k).ledger = { s.ledger with
      making := Function.update s.ledger.making t (some (s.next, (s.s_fiber_id + 1) % 2 ^ 64))
      next := s.next + 1
      id := (s.s_fiber_id + 1) % 2 ^ 64 } := by
    refine Ledger.ext rfl (funext fun u => ?_) rfl rfl rfl
    by_cases hu : u = t
    · simp [ledger, newFiber, hu, Point.making]
    · simp [ledger, newFiber, hu]
  rw [heq]
  exact .start hidle

/-- The operations of a main fiber's code. -/
theorem change_mainOp {op : FiberOp A} {k : Code θ A} (hidle : (s.threads t).point.making = none)
    (hfresh : s.freshFor op = true) : Ledger.Change t s.ledger (constructed (.main t op))
      (s.settle t (s.mainOp t k op)).ledger := by
  cases op with
  | getThis =>
      refine change_settle hidle fun s' h => ?_
      obtain ⟨⟨s₁, m⟩, hget, h⟩ := bind_eq_ok.1 h
      obtain rfl := Except.ok.inj h
      obtain ⟨hchange, hpoint⟩ := change_getThis hget
      exact change_setPoint hchange hpoint hidle.symm
  | construct f cb =>
      obtain rfl : f = s.next := of_decide_eq_true hfresh
      exact change_construct hidle cb k
  | reset f cb => exact change_keep (ledger_setPoint hidle.symm)
  | swapIn f =>
      refine change_keep ((ledger_setPoint ?_).trans (ledger_setThis (some f)))
      rw [setThis_threads_self]
      exact hidle.symm
  | yieldToReady => exact change_settle hidle fun s' h => change_yieldTo hidle h
  | yieldToHold => exact change_settle hidle fun s' h => change_yieldTo hidle h
  | destroy f =>
      refine change_settle hidle fun s' h => ?_
      obtain ⟨s₁, hdestruct, h⟩ := bind_eq_ok.1 h
      obtain rfl := Except.ok.inj h
      obtain ⟨hchange, hpoint⟩ := change_destruct hdestruct
      exact change_setPoint hchange hpoint hidle.symm
  | exit =>
      refine change_settle hidle fun s' h => ?_
      simp only [mainOp] at h
      split at h
      · obtain rfl := Except.ok.inj h
        exact change_keep (ledger_setPoint hidle.symm)
      · obtain ⟨s₁, hdestruct, h⟩ := bind_eq_ok.1 h
        obtain rfl := Except.ok.inj h
        obtain ⟨hchange, hpoint⟩ := change_destruct hdestruct
        have hledger :
            (s.setThread t { s.threads t with t_threadFiber := none }).ledger = s.ledger :=
          ledger_setThread rfl
        rw [hledger] at hchange
        rw [setThread_threads_self] at hpoint
        exact change_setPoint hchange hpoint hidle.symm
  | step a => exact change_keep (ledger_setPoint hidle.symm)

/-- The actions of a callback. -/
theorem change_cbAction {cur : FiberPtr} {cb : Callback A} {n : ℕ} {a : CbAction A}
    (hidle : (s.threads t).point.making = none) :
    Ledger.Change t s.ledger none (s.settle t (s.cbAction t f cur cb n a)).ledger := by
  cases a with
  | step a => exact change_keep (ledger_setPoint hidle.symm)
  | yieldToReady => exact change_settle hidle fun s' h => change_yieldTo hidle h
  | yieldToHold => exact change_settle hidle fun s' h => change_yieldTo hidle h
  | ret => exact change_keep (ledger_setPoint hidle.symm)
  | throw => exact change_keep (ledger_setPoint hidle.symm)

theorem change_modify {g : FiberObject θ A → FiberObject θ A} (hg : ∀ x, (g x).tag = x.tag)
    (hp : p.making = (s.threads t).point.making) :
    Ledger.Change t s.ledger none ((s.modify f g).setPoint t p).ledger :=
  change_keep ((ledger_setPoint (s := s.modify f g) hp).trans (ledger_modify hg))

/-- An access that sets a field of an object. -/
theorem change_set {g : FiberObject θ A → FiberObject θ A}
    (h : (do let _ ← s.deref f; pure ((s.modify f g).setPoint t p)) = .ok s')
    (hg : ∀ x, (g x).tag = x.tag) (hp : p.making = (s.threads t).point.making) :
    Ledger.Change t s.ledger none s'.ledger := by
  obtain ⟨x, -, h⟩ := bind_eq_ok.1 h
  obtain rfl := Except.ok.inj h
  exact change_modify hg hp

theorem change_mainFunc (hidle : (s.threads t).point.making = none) (h : s.mainFunc t f = .ok s') :
    Ledger.Change t s.ledger none s'.ledger := by
  obtain ⟨⟨s₁, cur⟩, hget, h⟩ := bind_eq_ok.1 h
  obtain ⟨x, -, h⟩ := bind_eq_ok.1 h
  obtain ⟨hchange, hpoint⟩ := change_getThis hget
  split at h <;> obtain rfl := Except.ok.inj h <;>
    exact change_setPoint hchange hpoint hidle.symm

theorem change_finish {id : ℕ} {cb : Callback A} {k : Code θ A}
    (hpoint : (s.threads t).point = .newFiber f id cb k) :
    Ledger.Change t s.ledger none (s.settle t (s.access t (.newFiber f id cb k))).ledger := by
  have hmade : s.ledger.making t = some (f, id) := congrArg Point.making hpoint
  have heq : (s.settle t (s.access t (.newFiber f id cb k))).ledger = { s.ledger with
      tags := Function.update s.ledger.tags f (some (id, true, false))
      making := Function.update s.ledger.making t none
      count := (s.ledger.count + 1) % 2 ^ 64 } := by
    simp only [access, settle, pure, Except.pure]
    refine Ledger.ext (funext fun g => ?_) (funext fun u => ?_) rfl rfl rfl
    · show (Function.update s.objects f _ g).map _ = Function.update s.ledger.tags f _ g
      by_cases hg : g = f
      · subst hg
        rw [Function.update_self, Function.update_self]
        rfl
      · rw [Function.update_of_ne hg, Function.update_of_ne hg]
        rfl
    · by_cases hu : u = t
      · simp [ledger, hu, Point.making]
      · simp [ledger, hu]
  rw [heq]
  exact .finish hmade

/-- The accesses of the functions of `Fiber`. -/
theorem change_access (hpoint : (s.threads t).point = p) :
    Ledger.Change t s.ledger none (s.settle t (s.access t p)).ledger := by
  by_cases hidle : p.making = none
  · have hidle' : (s.threads t).point.making = none := by rw [hpoint, hidle]
    refine change_settle hidle' fun s' h => ?_
    cases p with
    | code k =>
        cases k with
        | mainFunc f => exact change_mainFunc hidle' h
        | neverReach f => simp [access] at h
        | main u n => exact change_keep (congrArg ledger (Except.ok.inj h).symm)
        | getcontext => exact change_keep (congrArg ledger (Except.ok.inj h).symm)
        | callback g cur cb n => exact change_keep (congrArg ledger (Except.ok.inj h).symm)
    | newFiber f id cb k => simp [Point.making] at hidle
    | reset f cb k =>
        obtain ⟨x, -, h⟩ := bind_eq_ok.1 h
        obtain ⟨-, -, h⟩ := bind_eq_ok.1 h
        obtain ⟨-, -, h⟩ := bind_eq_ok.1 h
        obtain rfl := Except.ok.inj h
        exact change_keep (ledger_setPoint hidle'.symm)
    | resetCb f cb k => exact change_set h (fun _ => rfl) hidle'.symm
    | resetCtx f k => exact change_set h (fun _ => rfl) hidle'.symm
    | resetState f k => exact change_set h (fun _ => rfl) hidle'.symm
    | swapIn f k =>
        obtain ⟨x, -, h⟩ := bind_eq_ok.1 h
        obtain ⟨-, -, h⟩ := bind_eq_ok.1 h
        obtain rfl := Except.ok.inj h
        exact change_keep (ledger_setPoint hidle'.symm)
    | swapInExec f k =>
        obtain ⟨x, -, h⟩ := bind_eq_ok.1 h
        split at h
        · simp at h
        · obtain rfl := Except.ok.inj h
          exact change_modify (fun _ => rfl) hidle'.symm
    | yieldTo state f k =>
        obtain ⟨x, -, h⟩ := bind_eq_ok.1 h
        obtain ⟨-, -, h⟩ := bind_eq_ok.1 h
        obtain rfl := Except.ok.inj h
        exact change_keep (ledger_setPoint hidle'.symm)
    | term f k => exact change_set h (fun _ => rfl) hidle'.symm
    | leave state f k =>
        obtain ⟨x, -, h⟩ := bind_eq_ok.1 h
        simp only [swapOut] at h
        split at h
        · simp at h
        · next m hm =>
            obtain rfl := Except.ok.inj h
            refine change_keep (((ledger_setPoint ?_).trans (ledger_setThis (some m))).trans
              (ledger_modify fun _ => rfl))
            rw [setThis_threads_self]
            exact hidle'.symm
    | save f g k => exact change_set h (fun _ => rfl) hidle'.symm
    | load f g k =>
        obtain ⟨x, -, h⟩ := bind_eq_ok.1 h
        obtain rfl := Except.ok.inj h
        exact change_keep (ledger_setPoint hidle'.symm)
    | fault e => exact change_keep (congrArg ledger (Except.ok.inj h).symm)
    | exited => exact change_keep (congrArg ledger (Except.ok.inj h).symm)
  · cases p with
    | newFiber f id cb k => exact change_finish hpoint
    | _ => exact absurd rfl hidle

/-- Every step is a change of the ledger. -/
theorem change_step [DecidableEq A] {l : ThreadsLabel θ A} (h : s.step l = some s') :
    Ledger.Change (labelThread l) s.ledger (constructed l) s'.ledger := by
  cases l with
  | main t op =>
      obtain ⟨t', n, hpoint, hfresh, rfl⟩ := step_main h
      have hidle : (s.threads t).point.making = none := congrArg Point.making hpoint
      exact change_mainOp hidle hfresh
  | act t f a =>
      obtain ⟨cur, cb, k, hpoint, -, rfl⟩ := step_act h
      have hidle : (s.threads t).point.making = none := congrArg Point.making hpoint
      exact change_cbAction hidle
  | go t =>
      obtain ⟨-, rfl⟩ := step_go h
      exact change_access rfl

end

/-! ## Runs -/

/-- The sub-fibers whose constructors were called, in order. -/
def made (hist : List (ThreadsLabel θ A)) : List FiberPtr := hist.filterMap constructed

/-- The objects that are alive. -/
def aliveFibers (s : FiberThreads θ A) : Finset FiberPtr :=
  (Finset.range s.next).filter fun f => (s.fiber f).isSome

omit [DecidableEq θ] in
theorem ledger_init : Ledger.Inv [] (init : FiberThreads θ A).ledger := by
  have hnone : ∀ f, (init : FiberThreads θ A).ledger.tags f = none := fun _ => rfl
  have hidle : ∀ t, (init : FiberThreads θ A).ledger.making t = none := fun _ => rfl
  refine ⟨fun f _ => hnone f, fun t f id ht => ?_, fun t u f i j ht => ?_, ?_, rfl, by simp,
    List.nodup_nil, fun t f id ht => ?_, fun f id freed hf => ?_, fun f id freed hf => ?_⟩
  · exact absurd ((hidle t).symm.trans ht) (Option.some_ne_none _).symm
  · exact absurd ((hidle t).symm.trans ht) (Option.some_ne_none _).symm
  · rfl
  · exact absurd ((hidle t).symm.trans ht) (Option.some_ne_none _).symm
  · exact absurd ((hnone f).symm.trans hf) (Option.some_ne_none _).symm
  · exact absurd ((hnone f).symm.trans hf) (Option.some_ne_none _).symm

theorem ledger_run [DecidableEq A] {labels : List (ThreadsLabel θ A)} {s : FiberThreads θ A}
    (hrun : exec step init labels = some s) : Ledger.Inv (made labels) s.ledger := by
  refine exec_history (G := fun _ _ => True)
    (fun hist (s : FiberThreads θ A) => Ledger.Inv (made hist) s.ledger) ?_ [] ledger_init
    (along_of_forall (fun _ _ => trivial) init) hrun
  intro hist s l s' h _ hstep
  have hmade : made (hist ++ [l]) = made hist ++ (constructed l).toList := by
    cases hl : constructed l <;> simp [made, hl]
  rw [hmade]
  exact h.change (change_step hstep)

/-- **The counters.** In every state of every run of any number of threads, whatever their code
does: `TotalFibers` is the number of objects that are alive, modulo 2^64; the id of a sub-fiber is
the number of constructors of sub-fibers called up to its own, modulo 2^64; and while fewer than
2^64 were called, threads in which `GetFiberId` is the same and not 0 have the same current fiber.
-/
theorem counters_count [DecidableEq A] {labels : List (ThreadsLabel θ A)} {s : FiberThreads θ A}
    (hrun : exec step init labels = some s) :
    s.totalFibers = s.aliveFibers.card % 2 ^ 64 ∧
    (∀ f, f ∈ s.aliveFibers ↔ (s.fiber f).isSome) ∧
    (∀ f x, s.objects f = some x → x.m_stack = true →
      ∃ n, (made labels)[n]? = some f ∧ x.m_id = (n + 1) % 2 ^ 64) ∧
    (made labels).Nodup ∧
    ((made labels).length < 2 ^ 64 → ∀ t u i, s.getFiberId t = some i → s.getFiberId u = some i →
      i ≠ 0 → (s.threads t).t_fiber = (s.threads u).t_fiber) := by
  have h := ledger_run hrun
  have htag : ∀ {f x}, s.objects f = some x → s.ledger.tags f = some (x.m_id, x.m_stack, x.freed) :=
    fun hx => congrArg (Option.map FiberObject.tag) hx
  have hany : ∀ f, ((s.ledger.tags f).any fun x => !x.2.2) = (s.fiber f).isSome := fun f => by
    cases hf : s.objects f with
    | none => simp [ledger, fiber, hf]
    | some x => cases hx : x.freed <;> simp [ledger, fiber, hf, hx, FiberObject.tag]
  have halive : s.aliveFibers = s.ledger.alive := Finset.filter_congr fun f _ => by rw [hany f]
  have hids : ∀ f x, s.objects f = some x → x.m_stack = true →
      ∃ n, (made labels)[n]? = some f ∧ x.m_id = (n + 1) % 2 ^ 64 := fun f x hx hstack =>
    h.ids f x.m_id x.freed (hstack ▸ htag hx)
  refine ⟨halive ▸ h.count, fun f => ?_, hids, h.nodup, fun hfew t u i ht hu hi => ?_⟩
  · rw [halive, Ledger.mem_alive h.fresh, hany f]
  · -- a fiber whose id is not 0 is a sub-fiber, and has its place among the constructors
    have hplace : ∀ v, s.getFiberId v = some i →
        ∃ f n, (s.threads v).t_fiber = some f ∧ (made labels)[n]? = some f ∧ i = n + 1 := by
      intro v hv
      cases hcur : (s.threads v).t_fiber with
      | none =>
          simp only [getFiberId, hcur, Option.some.injEq] at hv
          exact absurd hv.symm hi
      | some f =>
          simp only [getFiberId, hcur] at hv
          obtain ⟨x, hx, rfl⟩ := Option.map_eq_some_iff.1 hv
          have hobj := (fiber_eq_some.1 hx).1
          have hstack : x.m_stack = true := by
            by_contra hnot
            exact hi (h.mains f x.m_id x.freed (Bool.eq_false_of_not_eq_true hnot ▸ htag hobj))
          obtain ⟨n, hn, hid⟩ := hids f x hobj hstack
          have hlt : n < (made labels).length := (List.getElem?_eq_some_iff.1 hn).1
          rw [Nat.mod_eq_of_lt] at hid
          · exact ⟨f, n, rfl, hn, hid⟩
          · refine Nat.lt_of_le_of_ne (Nat.succ_le_of_lt (Nat.lt_trans hlt hfew)) fun heq => hi ?_
            rw [hid, heq]
            rfl
    obtain ⟨f, n, hf, hn, hin⟩ := hplace t ht
    obtain ⟨g, m, hg, hm, him⟩ := hplace u hu
    obtain rfl : n = m := by omega
    rw [hf, hg, ← hn, ← hm]

theorem counters_count_sample :
    ∃ s, exec step init movedFiber = some s ∧ s.totalFibers = 3 ∧ s.getFiberId true = some 1 ∧
      ¬ s.getFiberId false = some 1 := by
  obtain ⟨htotal, -, -, -, hsame⟩ :=
    counters_count (show exec step init movedFiber = some _ from rfl)
  refine ⟨_, rfl, htotal, rfl, fun hfalse => ?_⟩
  exact absurd (hsame (by decide) true false 1 rfl hfalse (by decide)) (by decide)

end FiberThreads

end Ipmsg
