import Ipmsg.Basic
import Ipmsg.Fiber.Machine

set_option autoImplicit false

/-! # What the fiber functions do

Each function, called where the pointers it uses are valid and its assertions hold, as one equation
between states; and what a run says about the callbacks it executed. -/

namespace Ipmsg

namespace Fibers

variable {A : Type}

/-! ## Lookups -/

@[simp] theorem goto_control (s : Fibers A) (k : Cont A) : (s.goto k).control = .running k := rfl

@[simp] theorem goto_fiber (s : Fibers A) (k : Cont A) (f : FiberPtr) :
    (s.goto k).fiber f = s.fiber f := rfl

@[simp] theorem goto_t_fiber (s : Fibers A) (k : Cont A) : (s.goto k).t_fiber = s.t_fiber := rfl

@[simp] theorem goto_t_threadFiber (s : Fibers A) (k : Cont A) :
    (s.goto k).t_threadFiber = s.t_threadFiber := rfl

@[simp] theorem setThis_t_threadFiber (s : Fibers A) (p : Option FiberPtr) :
    (s.setThis p).t_threadFiber = s.t_threadFiber := rfl

@[simp] theorem setThis_fiber (s : Fibers A) (p : Option FiberPtr) (f : FiberPtr) :
    (s.setThis p).fiber f = s.fiber f := rfl

@[simp] theorem modify_t_threadFiber (s : Fibers A) (f : FiberPtr) (g : Fiber A → Fiber A) :
    (s.modify f g).t_threadFiber = s.t_threadFiber := rfl

theorem modify_fiber_self {s : Fibers A} {f : FiberPtr} {x : Fiber A} (h : s.fiber f = some x)
    (g : Fiber A → Fiber A) : (s.modify f g).fiber f = some (g x) := by
  show (s.fibers.modify f g)[f]? = some (g x)
  rw [List.getElem?_modify_eq, show s.fibers[f]? = some x from h]
  rfl

theorem modify_fiber_of_ne {f f' : FiberPtr} (h : f ≠ f') (s : Fibers A) (g : Fiber A → Fiber A) :
    (s.modify f g).fiber f' = s.fiber f' :=
  List.getElem?_modify_ne g s.fibers h

theorem modify_fiber_none {s : Fibers A} {f f' : FiberPtr} {g : Fiber A → Fiber A} :
    (s.modify f g).fiber f' = none ↔ s.fiber f' = none := by
  show (s.fibers.modify f g)[f']? = none ↔ s.fibers[f']? = none
  rw [List.getElem?_eq_none_iff, List.getElem?_eq_none_iff, List.length_modify]

/-- A pointer leads to the fiber that changed, or where it led before. -/
theorem fiber_of_modify {s : Fibers A} {f f' : FiberPtr} {g : Fiber A → Fiber A} {y : Fiber A}
    (h : (s.modify f g).fiber f' = some y) :
    (f' = f ∧ ∃ x, s.fiber f = some x ∧ y = g x) ∨ (f' ≠ f ∧ s.fiber f' = some y) := by
  by_cases hf : f' = f
  · subst hf
    cases hx : s.fiber f' with
    | none => simp [modify_fiber_none.2 hx] at h
    | some x => exact .inl ⟨rfl, x, rfl, Option.some.inj (h.symm.trans (modify_fiber_self hx g))⟩
  · exact .inr ⟨hf, (modify_fiber_of_ne (Ne.symm hf) s g).symm.trans h⟩

theorem lt_length_of_fiber {s : Fibers A} {f : FiberPtr} {x : Fiber A} (h : s.fiber f = some x) :
    f < s.fibers.length :=
  (List.getElem?_eq_some_iff.1 h).1

theorem newFiber_fiber (s : Fibers A) (cb : Callback A) (f : FiberPtr) :
    (s.newFiber cb).fiber f = if f = s.fibers.length then
      some { m_state := .init, m_ctx := .mainFunc f, m_stack := true, m_cb := some cb }
    else s.fiber f := by
  show (s.fibers ++ [_])[f]? = _
  rw [getElem?_concat]
  split_ifs with h
  · rw [h]
  · rfl

theorem newFiber_fiber_of_some {s : Fibers A} {f : FiberPtr} {x : Fiber A} (h : s.fiber f = some x)
    (cb : Callback A) : (s.newFiber cb).fiber f = some x := by
  rw [newFiber_fiber, if_neg (Nat.ne_of_lt (lt_length_of_fiber h)), h]

/-- A pointer leads to the new fiber, or where it led before. -/
theorem fiber_of_newFiber {s : Fibers A} {cb : Callback A} {f : FiberPtr} {y : Fiber A}
    (h : (s.newFiber cb).fiber f = some y) :
    (f = s.fibers.length ∧
      y = { m_state := .init, m_ctx := .mainFunc f, m_stack := true, m_cb := some cb }) ∨
    (f ≠ s.fibers.length ∧ s.fiber f = some y) := by
  rw [newFiber_fiber] at h
  split_ifs at h with hf
  · exact .inl ⟨hf, (Option.some.inj h).symm⟩
  · exact .inr ⟨hf, h⟩

/-! ## The functions -/

section
variable {s : Fibers A} {f main : FiberPtr} {x m : Fiber A}

theorem deref_some (h : s.fiber f = some x) : s.deref f = .ok x := by
  simp only [deref, Option.bind_some, h]

theorem assertMacro_ok {p : Prop} [Decidable p] (h : p) (text : String) :
    assertMacro p text = .ok () :=
  if_pos h

theorem getThis_eq (h : s.t_fiber = some f) : s.getThis = .ok (s, f) := by
  simp only [getThis, h]

/-- Leaving for another fiber. -/
theorem swapcontext_eq (hx : s.fiber f = some x) (hm : s.fiber main = some m) (hne : f ≠ main)
    (k : Cont A) :
    s.swapcontext f main k = .ok ((s.modify f fun x => { x with m_ctx := k }).goto m.m_ctx) := by
  have hm' : (s.modify f fun x => { x with m_ctx := k }).fiber main = some m := by
    rw [modify_fiber_of_ne hne, hm]
  simp only [swapcontext, deref_some hx, deref_some hm', bind, Except.bind, pure, Except.pure]

/-- Leaving for the context just saved. -/
theorem swapcontext_self (hx : s.fiber f = some x) (k : Cont A) :
    s.swapcontext f f k = .ok ((s.modify f fun x => { x with m_ctx := k }).goto k) := by
  have hx' : (s.modify f fun x => { x with m_ctx := k }).fiber f = some { x with m_ctx := k } :=
    modify_fiber_self hx _
  simp only [swapcontext, deref_some hx, deref_some hx', bind, Except.bind, pure, Except.pure]

theorem swapIn_eq (hthread : s.t_threadFiber = some main) (hx : s.fiber f = some x)
    (hm : s.fiber main = some m) (hne : main ≠ f) (hstate : x.m_state ≠ .exec) (k : Cont A) :
    s.swapIn f k = .ok ((((s.setThis f).modify f fun x => { x with m_state := .exec }).modify main
      fun x => { x with m_ctx := k }).goto x.m_ctx) := by
  have hx' : (s.setThis f).fiber f = some x := hx
  have hf : ((s.setThis f).modify f fun x => { x with m_state := .exec }).fiber f =
      some { x with m_state := .exec } := modify_fiber_self hx' _
  have hmain : ((s.setThis f).modify f fun x => { x with m_state := .exec }).fiber main = some m := by
    rw [modify_fiber_of_ne hne.symm]
    exact hm
  have hthread' : ((s.setThis f).modify f fun x => { x with m_state := .exec }).t_threadFiber =
      some main := hthread
  simp only [swapIn, deref_some hx', assertMacro_ok hstate, hthread', swapcontext_eq hmain hf hne,
    bind, Except.bind]

/-- The main fiber swaps in itself. -/
theorem swapIn_self (hthread : s.t_threadFiber = some main) (hm : s.fiber main = some m)
    (hstate : m.m_state ≠ .exec) (k : Cont A) :
    s.swapIn main k = .ok ((((s.setThis main).modify main fun x => { x with m_state := .exec }).modify
      main fun x => { x with m_ctx := k }).goto k) := by
  have hm' : (s.setThis main).fiber main = some m := hm
  have hself : ((s.setThis main).modify main fun x => { x with m_state := .exec }).fiber main =
      some { m with m_state := .exec } := modify_fiber_self hm' _
  have hthread' : ((s.setThis main).modify main fun x => { x with m_state := .exec }).t_threadFiber =
      some main := hthread
  simp only [swapIn, deref_some hm', assertMacro_ok hstate, hthread', swapcontext_self hself, bind,
    Except.bind]

theorem swapOut_eq (hthread : s.t_threadFiber = some main) (hx : s.fiber f = some x)
    (hm : s.fiber main = some m) (hne : f ≠ main) (k : Cont A) :
    s.swapOut f k =
      .ok (((s.setThis main).modify f fun x => { x with m_ctx := k }).goto m.m_ctx) := by
  have hx' : (s.setThis main).fiber f = some x := hx
  have hm' : (s.setThis main).fiber main = some m := hm
  simp only [swapOut, setThis_t_threadFiber, hthread, swapcontext_eq hx' hm' hne]

/-- The main fiber swaps out to itself. -/
theorem swapOut_self (hthread : s.t_threadFiber = some main) (hm : s.fiber main = some m)
    (k : Cont A) :
    s.swapOut main k =
      .ok (((s.setThis main).modify main fun x => { x with m_ctx := k }).goto k) := by
  have hm' : (s.setThis main).fiber main = some m := hm
  simp only [swapOut, setThis_t_threadFiber, hthread, swapcontext_self hm']

/-- A sub-fiber that changes its own fields and swaps out. -/
theorem swapOut_modify (hthread : s.t_threadFiber = some main) (hx : s.fiber f = some x)
    (hm : s.fiber main = some m) (hne : f ≠ main) (g : Fiber A → Fiber A) (k : Cont A) :
    ∃ s', (s.modify f g).swapOut f k = .ok s' ∧ s'.t_threadFiber = some main ∧
      s'.t_fiber = some main ∧ s'.control = .running m.m_ctx ∧
      s'.fiber f = some { g x with m_ctx := k } ∧ ∀ f', f' ≠ f → s'.fiber f' = s.fiber f' := by
  have hx' : (s.modify f g).fiber f = some (g x) := modify_fiber_self hx g
  have hm' : (s.modify f g).fiber main = some m := by rw [modify_fiber_of_ne hne, hm]
  have hthread' : (s.modify f g).t_threadFiber = some main := hthread
  refine ⟨_, swapOut_eq hthread' hx' hm' hne k, hthread, rfl, rfl, ?_, fun f' hf' => ?_⟩
  · rw [goto_fiber]
    exact modify_fiber_self hx' _
  · rw [goto_fiber, modify_fiber_of_ne hf'.symm, setThis_fiber, modify_fiber_of_ne hf'.symm]

theorem reset_eq (hx : s.fiber f = some x) (hstack : x.m_stack = true)
    (hstate : x.m_state = .term ∨ x.m_state = .except ∨ x.m_state = .init) (cb : Callback A) :
    s.reset f cb = .ok (s.modify f fun x =>
      { x with m_cb := some cb, m_ctx := .mainFunc f, m_state := .init }) := by
  simp only [reset, deref_some hx, assertMacro_ok hstack, assertMacro_ok hstate, bind, Except.bind,
    pure, Except.pure]

theorem yieldTo_eq (hcur : s.t_fiber = some f) (hx : s.fiber f = some x) (hstate : x.m_state = .exec)
    (state : FiberState) (k : Cont A) :
    s.yieldTo state k = (s.modify f fun x => { x with m_state := state }).swapOut f k := by
  simp only [yieldTo, getThis_eq hcur, deref_some hx, assertMacro_ok hstate, bind, Except.bind]

/-- A fiber that is not in state `EXEC` cannot yield. -/
theorem yieldTo_fault (hcur : s.t_fiber = some f) (hx : s.fiber f = some x)
    (hstate : x.m_state ≠ .exec) (state : FiberState) (k : Cont A) :
    s.yieldTo state k = .error (.assertion "cur->m_state == STATE_EXEC") := by
  simp only [yieldTo, getThis_eq hcur, deref_some hx, assertMacro, if_neg hstate, bind, Except.bind]

theorem mainFunc_eq (hcur : s.t_fiber = some f) (hx : s.fiber f = some x) {cb : Callback A}
    (hcb : x.m_cb = some cb) : s.mainFunc f = .ok (s.goto (.callback f f cb 0)) := by
  simp only [mainFunc, getThis_eq hcur, deref_some hx, hcb, bind, Except.bind, pure, Except.pure]

end

/-! ## Steps -/

section
variable [DecidableEq A] {s s' : Fibers A} {f : FiberPtr}

theorem step_main {op : MainOp A} (h : s.step (.main op) = some s') :
    ∃ n, s.control = .running (.main n) ∧ s.freshFor op = true ∧
      s' = s.settle (s.mainOp (.main (n + 1)) op) := by
  simp only [step] at h
  split at h
  · next n hcontrol =>
      split_ifs at h with hfresh
      exact ⟨n, hcontrol, hfresh, (Option.some.inj h).symm⟩
  · simp at h

theorem step_enter (h : s.step (.enter f) = some s') :
    s.control = .running (.mainFunc f) ∧ s' = s.settle (s.mainFunc f) := by
  simp only [step] at h
  split at h
  · next f' hcontrol =>
      split_ifs at h with hf
      subst hf
      exact ⟨hcontrol, (Option.some.inj h).symm⟩
  · simp at h

theorem step_act {a : CbAction A} (h : s.step (.act f a) = some s') :
    ∃ cur cb k, s.control = .running (.callback f cur cb k) ∧ cb k = a ∧
      s' = s.settle (s.cbAction f cur cb k a) := by
  simp only [step] at h
  split at h
  · next f' cur cb k hcontrol =>
      split_ifs at h with hf
      obtain ⟨rfl, ha⟩ := hf
      exact ⟨cur, cb, k, hcontrol, ha, (Option.some.inj h).symm⟩
  · simp at h

theorem step_neverReach (h : s.step (.neverReach f) = some s') :
    s.control = .running (.neverReach f) := by
  simp only [step] at h
  split at h
  · next f' hcontrol =>
      split_ifs at h with hf
      subst hf
      exact hcontrol
  · simp at h

end

end Fibers

/-! ## Histories -/

variable {A : Type}

/-- The operations of the main fiber's code, in order. -/
def mainOps (hist : List (FiberLabel A)) : List (MainOp A) :=
  hist.filterMap fun l => match l with
    | .main op => some op
    | _ => none

@[simp] theorem mainOps_concat_main (hist : List (FiberLabel A)) (op : MainOp A) :
    mainOps (hist ++ [.main op]) = mainOps hist ++ [op] := by
  simp [mainOps]

@[simp] theorem mainOps_concat_enter (hist : List (FiberLabel A)) (f : FiberPtr) :
    mainOps (hist ++ [.enter f]) = mainOps hist := by
  simp [mainOps]

@[simp] theorem mainOps_concat_act (hist : List (FiberLabel A)) (f : FiberPtr) (a : CbAction A) :
    mainOps (hist ++ [.act f a]) = mainOps hist := by
  simp [mainOps]

/-- What a step adds to the callback `f` was given last and the actions done since. -/
def recordOf (f : FiberPtr) (r : Option (Callback A × List (CbAction A))) :
    FiberLabel A → Option (Callback A × List (CbAction A))
  | .main (.construct g cb) => if g = f then some (cb, []) else r
  | .main (.reset g cb) => if g = f then some (cb, []) else r
  | .act g a => if g = f then r.map fun r => (r.1, r.2 ++ [a]) else r
  | _ => r

/-- The callback the fiber `f` was given last, at its construction or by a reset, and the actions it
    has done since. -/
def ranSince (f : FiberPtr) (hist : List (FiberLabel A)) :
    Option (Callback A × List (CbAction A)) :=
  hist.foldl (recordOf f) none

theorem ranSince_concat (f : FiberPtr) (hist : List (FiberLabel A)) (l : FiberLabel A) :
    ranSince f (hist ++ [l]) = recordOf f (ranSince f hist) l := by
  simp [ranSince, List.foldl_append]

end Ipmsg
