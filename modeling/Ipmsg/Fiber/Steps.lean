import Ipmsg.Fiber.Invariant

set_option autoImplicit false

/-! # Every step keeps the invariant

One lemma for each kind of step: an operation of the main fiber, the start of `MainFunc`, an action
of a callback. The preconditions documented for `swapIn` and `reset` are assumed, and that no
finished fiber is swapped in. -/

namespace Ipmsg

variable {A : Type}

namespace Fibers

/-- The step meets what `fiber.h` documents as its precondition; `swapIn` and `reset` are called on
    sub-fibers. -/
def Documented (s : Fibers A) : FiberLabel A → Prop
  | .main (.reset f _) => s.t_threadFiber ≠ some f ∧ ∃ x, s.fiber f = some x ∧
      (x.m_state = .init ∨ x.m_state = .term ∨ x.m_state = .except)
  | .main (.swapIn f) => s.t_threadFiber ≠ some f ∧ ∃ x, s.fiber f = some x ∧ x.m_state ≠ .exec
  | _ => True

/-- The step does not swap a finished fiber in. -/
def Unfinished (s : Fibers A) : FiberLabel A → Prop
  | .main (.swapIn f) => ∀ x, s.fiber f = some x → x.m_state ≠ .term ∧ x.m_state ≠ .except
  | _ => True

/-- The main fiber yielded although it was not in state `EXEC`. -/
def Halted (s : Fibers A) : Prop := s.control = .fault (.assertion "cur->m_state == STATE_EXEC")

end Fibers

/-- The action gives control up. -/
def CbAction.leaves : CbAction A → Bool
  | .step _ => false
  | _ => true

theorem CbAction.eq_step_of_leaves {a : CbAction A} (h : a.leaves = false) : ∃ b, a = .step b := by
  cases a with
  | step b => exact ⟨b, rfl⟩
  | _ => simp [leaves] at h

namespace Inv

variable {hist : List (FiberLabel A)} {s s' : Fibers A}

/-! ## The main fiber -/

/-- Operations that touch neither the fibers nor the pointers. -/
theorem step_idle (h : Inv hist s) (hcur : s.t_fiber = some 0) {op : MainOp A}
    (hran : ∀ f, ranSince f (hist ++ [.main op]) = ranSince f hist) :
    Inv (hist ++ [.main op]) (s.goto (.main ((mainOps hist).length + 1))) := by
  obtain ⟨m, hm, -⟩ := h.main
  refine h.mainDone hcur rfl hcur rfl ⟨m, hm, fun _ m' hm' => ?_⟩ fun f x _ hx => ?_
  · rw [Option.some.inj (hm.symm.trans hm')]
  · exact Or.inl ⟨hx, hran f⟩

theorem step_construct (h : Inv hist s) (hcur : s.t_fiber = some 0) {f : FiberPtr} (cb : Callback A)
    (hfresh : f = s.fibers.length) :
    Inv (hist ++ [.main (.construct f cb)])
      ((s.newFiber cb).goto (.main ((mainOps hist).length + 1))) := by
  obtain ⟨m, hm, -⟩ := h.main
  refine h.mainDone hcur rfl hcur rfl ⟨m, ?_, fun _ m' hm' => ?_⟩ fun g x _ hx => ?_
  · rw [Fibers.goto_fiber, Fibers.newFiber_fiber_of_some hm]
  · rw [Option.some.inj (hm.symm.trans hm')]
  · rw [ranSince_concat]
    rcases Fibers.fiber_of_newFiber hx with ⟨hg, rfl⟩ | ⟨hg, hx⟩
    · exact Or.inr ⟨cb, rfl, if_pos (hfresh.trans hg.symm)⟩
    · exact Or.inl ⟨hx, if_neg fun hfg => hg (hfg.symm.trans hfresh)⟩

theorem step_reset (h : Inv hist s) (hcur : s.t_fiber = some 0) {f : FiberPtr} (hf : f ≠ 0)
    (cb : Callback A) : Inv (hist ++ [.main (.reset f cb)])
      ((s.modify f fun x => { x with m_cb := some cb, m_ctx := .mainFunc f, m_state := .init }).goto
        (.main ((mainOps hist).length + 1))) := by
  obtain ⟨m, hm, -⟩ := h.main
  refine h.mainDone hcur rfl hcur rfl ⟨m, ?_, fun _ m' hm' => ?_⟩ fun g y hg hy => ?_
  · rw [Fibers.goto_fiber, Fibers.modify_fiber_of_ne hf, hm]
  · rw [Option.some.inj (hm.symm.trans hm')]
  · rw [ranSince_concat]
    rcases Fibers.fiber_of_modify hy with ⟨rfl, x', hx', rfl⟩ | ⟨hgf, hy⟩
    · refine Or.inr ⟨cb, ?_, if_pos rfl⟩
      rw [(h.subs g x' hf hx').stack]
    · exact Or.inl ⟨hy, if_neg (Ne.symm hgf)⟩

/-- The main fiber yields: it goes on at once, but it is left in the state of a suspended fiber. -/
theorem step_mainYield (h : Inv hist s) (hcur : s.t_fiber = some 0) {op : MainOp A}
    (hop : op.yields = true) (state : FiberState)
    (hran : ∀ f, ranSince f (hist ++ [.main op]) = ranSince f hist) :
    Inv (hist ++ [.main op])
        (s.settle (s.yieldTo state (.main ((mainOps hist).length + 1)))) ∨
      (s.settle (s.yieldTo state (.main ((mainOps hist).length + 1)))).Halted := by
  obtain ⟨m, hm, -⟩ := h.main
  by_cases hstate : m.m_state = .exec
  · have hm' := Fibers.modify_fiber_self hm fun x => { x with m_state := state }
    have hthread : (s.modify 0 fun x => { x with m_state := state }).t_threadFiber = some 0 :=
      h.thread
    rw [Fibers.yieldTo_eq hcur hm hstate, Fibers.swapOut_self hthread hm']
    refine Or.inl (h.mainDone hcur rfl rfl rfl ⟨_, Fibers.modify_fiber_self hm' _, ?_⟩ ?_)
    · intro hno
      rw [hop] at hno
      exact absurd hno (by simp)
    · intro f x hf hx
      refine Or.inl ⟨?_, hran f⟩
      rw [← hx]
      show s.fiber f = ((s.modify 0 _).modify 0 _).fiber f
      rw [Fibers.modify_fiber_of_ne (Ne.symm hf), Fibers.modify_fiber_of_ne (Ne.symm hf)]
  · rw [Fibers.yieldTo_fault hcur hm hstate]
    exact Or.inr rfl

variable [DecidableEq A]

/-- An operation of the main fiber. -/
theorem step_main (h : Inv hist s) {op : MainOp A} (hdoc : s.Documented (.main op))
    (hunf : s.Unfinished (.main op)) (hstep : s.step (.main op) = some s') :
    Inv (hist ++ [.main op]) s' ∨ (op.yields = true ∧ s'.Halted) := by
  obtain ⟨n, hcontrol, hfresh, rfl⟩ := Fibers.step_main hstep
  obtain ⟨rfl, hcur⟩ := h.turn_main hcontrol
  have hran : ∀ f, recordOf f (ranSince f hist) (.main op) = ranSince f hist →
      ranSince f (hist ++ [.main op]) = ranSince f hist := fun f hf => (ranSince_concat ..).trans hf
  cases op with
  | getThis =>
      simp only [Fibers.mainOp, Fibers.getThis_eq hcur, bind, Except.bind]
      exact Or.inl (h.step_idle hcur fun f => hran f rfl)
  | step a => exact Or.inl (h.step_idle hcur fun f => hran f rfl)
  | construct f cb => exact Or.inl (h.step_construct hcur cb (by simpa [Fibers.freshFor] using hfresh))
  | reset f cb =>
      obtain ⟨hne, x, hx, hstate⟩ := hdoc
      have hf : f ≠ 0 := fun hf => hne (by rw [hf, h.thread])
      have hstate' : x.m_state = .term ∨ x.m_state = .except ∨ x.m_state = .init := by tauto
      simp only [Fibers.mainOp, Fibers.reset_eq hx (h.subs f x hf hx).stack hstate', bind, Except.bind]
      exact Or.inl (h.step_reset hcur hf cb)
  | swapIn f =>
      obtain ⟨hne, x, hx, hexec⟩ := hdoc
      obtain ⟨hterm, hexcept⟩ := hunf x hx
      obtain ⟨m, hm, -⟩ := h.main
      have hf : f ≠ 0 := fun hf => hne (by rw [hf, h.thread])
      have hstate : x.m_state = .init ∨ x.m_state = .ready ∨ x.m_state = .hold := by
        cases hs : x.m_state <;> simp_all
      simp only [Fibers.mainOp, Fibers.swapIn_eq h.thread hx hm (Ne.symm hf) hexec]
      exact Or.inl (h.swapIn hcur hf hx hstate)
  | yieldToReady =>
      exact (h.step_mainYield hcur rfl .ready fun f => hran f rfl).imp_right fun hh => ⟨rfl, hh⟩
  | yieldToHold =>
      exact (h.step_mainYield hcur rfl .hold fun f => hran f rfl).imp_right fun hh => ⟨rfl, hh⟩

/-! ## The sub-fibers -/

/-- `MainFunc` starts and calls the callback the fiber was given. -/
theorem step_enter (h : Inv hist s) {f : FiberPtr} (hstep : s.step (.enter f) = some s') :
    Inv (hist ++ [.enter f]) s' := by
  obtain ⟨hcontrol, rfl⟩ := Fibers.step_enter hstep
  obtain ⟨x, m, cb, as, he, hstage⟩ := h.turn_sub (f := f) hcontrol (by simp) rfl
  have hran : ∀ g, ranSince g (hist ++ [.enter f]) = ranSince g hist := fun g => ranSince_concat ..
  rcases hstage with ⟨hs, -⟩ | ⟨-, -, hnil, hcb⟩ | ⟨-, hk, -⟩ | ⟨-, hk, -⟩ | ⟨-, hk, -⟩
  · simp [he.state] at hs
  · subst hnil
    rw [Fibers.mainFunc_eq he.current he.obj hcb]
    exact h.advance he (mainOps_concat_enter hist f) (fun g _ => hran g) ((hran f).trans he.ran) rfl
      (by simp)
  all_goals simp at hk

omit [DecidableEq A] in
/-- What an action that gives control up leaves behind. -/
theorem cbAction_leave {f : FiberPtr} {x : Fiber A} (hcur : s.t_fiber = some f)
    (hx : s.fiber f = some x) (hexec : x.m_state = .exec) (cb : Callback A) (k : ℕ) {a : CbAction A}
    (ha : a.leaves = true) :
    ∃ g k', s.cbAction f f cb k a = (s.modify f g).swapOut f k' ∧ (g x).m_stack = x.m_stack ∧
      ((a.ends = true ∧ ((g x).m_state = .term ∨ (g x).m_state = .except) ∧ k' = .neverReach f) ∨
        (a.ends = false ∧ ((g x).m_state = .ready ∨ (g x).m_state = .hold) ∧
          k' = .callback f f cb (k + 1))) := by
  cases a with
  | step a => simp [CbAction.leaves] at ha
  | yieldToReady =>
      exact ⟨_, _, Fibers.yieldTo_eq hcur hx hexec _ _, rfl, Or.inr ⟨rfl, Or.inl rfl, rfl⟩⟩
  | yieldToHold =>
      exact ⟨_, _, Fibers.yieldTo_eq hcur hx hexec _ _, rfl, Or.inr ⟨rfl, Or.inr rfl, rfl⟩⟩
  | ret => exact ⟨_, _, rfl, rfl, Or.inl ⟨rfl, Or.inl rfl, rfl⟩⟩
  | throw => exact ⟨_, _, rfl, rfl, Or.inl ⟨rfl, Or.inr rfl, rfl⟩⟩

/-- The fiber whose callback acts, with what it has done before and does now. -/
theorem acting (h : Inv hist s) {f : FiberPtr} {a : CbAction A}
    (hstep : s.step (.act f a) = some s') :
    ∃ x m cb as, Executing hist s f x m cb as ∧ a = cb as.length ∧ (∀ b ∈ as, b.ends = false) ∧
      s' = s.settle (s.cbAction f f cb as.length a) := by
  obtain ⟨cur, cb, k, hcontrol, hact, rfl⟩ := Fibers.step_act hstep
  obtain ⟨x, m, cb', as, he, hstage⟩ := h.turn_sub (f := f) hcontrol (by simp) rfl
  rcases hstage with ⟨hs, -⟩ | ⟨-, hk, -, -⟩ | ⟨-, hk, hgo⟩ | ⟨hs, -, -⟩ | ⟨-, hk, -⟩
  · simp [he.state] at hs
  · simp at hk
  · -- the only stage left is that of a running callback
    injection hk with _ hcur hcb hk
    subst hcb hk
    rw [hcur]
    exact ⟨x, m, cb, as, he, hact.symm, hgo, rfl⟩
  · rcases hs with hs | hs <;> simp [he.state] at hs
  · simp at hk

omit [DecidableEq A] in
/-- The history after the next action of the executing callback. -/
theorem ran_act {f : FiberPtr} {x m : Fiber A} {cb : Callback A} {as : List (CbAction A)}
    (he : Executing hist s f x m cb as) :
    ranSince f (hist ++ [.act f (cb as.length)]) = some (cb, as ++ [cb as.length]) ∧
      as ++ [cb as.length] = (List.range (as ++ [cb as.length]).length).map cb ∧
      ∀ g, g ≠ f → ranSince g (hist ++ [.act f (cb as.length)]) = ranSince g hist := by
  refine ⟨?_, ?_, fun g hg => ?_⟩
  · rw [ranSince_concat, he.ran]
    exact if_pos rfl
  · rw [List.length_append, List.length_singleton, List.range_succ, List.map_append, ← he.inOrder]
    rfl
  · rw [ranSince_concat]
    exact if_neg (Ne.symm hg)

/-- An action of a callback; one that gives control up continues the main fiber after its `swapIn`.
-/
theorem step_act (h : Inv hist s) {f : FiberPtr} {a : CbAction A}
    (hstep : s.step (.act f a) = some s') :
    Inv (hist ++ [.act f a]) s' ∧ (a.leaves = true →
      s'.control = .running (.main (mainOps hist).length) ∧ s'.t_fiber = some 0 ∧
        (mainOps hist).getLast? = some (.swapIn f)) := by
  obtain ⟨x, m, cb, as, he, rfl, hgo, rfl⟩ := h.acting hstep
  obtain ⟨hran, has, hother⟩ := ran_act he
  have hlen : (as ++ [cb as.length]).length = as.length + 1 := List.length_append
  have hops := mainOps_concat_act hist f (cb as.length)
  have hgo' : (cb as.length).ends = false → ∀ b ∈ as ++ [cb as.length], b.ends = false := by
    intro hends b hb
    rcases List.mem_append.1 hb with hb | hb
    · exact hgo b hb
    · rw [List.mem_singleton.1 hb, hends]
  cases hleave : (cb as.length).leaves with
  | false =>
      obtain ⟨b, hb⟩ := CbAction.eq_step_of_leaves hleave
      have hresult : s.settle (s.cbAction f f cb as.length (cb as.length)) =
          s.goto (.callback f f cb (as ++ [cb as.length]).length) := by
        rw [hlen, hb]
        rfl
      rw [hresult]
      exact ⟨h.advance he hops hother hran has (hgo' (by rw [hb]; rfl)), fun h => absurd h (by simp)⟩
  | true =>
      obtain ⟨g, k', hact, hstack, hafter⟩ :=
        cbAction_leave he.current he.obj he.state cb as.length hleave
      obtain ⟨t, ht, hthread, hcur, hcontrol, hx', hframe⟩ :=
        Fibers.swapOut_modify h.thread he.obj he.mainObj he.ne g k'
      rw [hact, ht]
      refine ⟨?_, fun _ => ⟨he.saved ▸ hcontrol, hcur, he.resumed⟩⟩
      refine h.leave he hops hother hran has { g x with m_ctx := k' } (hstack.trans he.stack) ?_ ?_
        hthread hcur hcontrol hx' hframe
      · rcases hafter with ⟨-, hs | hs, -⟩ | ⟨-, hs | hs, -⟩ <;> simp [hs]
      · rcases hafter with ⟨hends, hs, hk⟩ | ⟨hends, hs, hk⟩
        · exact .finished hs hk ⟨as, cb as.length, rfl, hends, hgo⟩
        · exact .suspended hs (by rw [hlen]; exact hk) (hgo' hends)

omit [DecidableEq A] in
/-- No sub-fiber is about to go on after its last `swapOut`. -/
theorem not_neverReach (h : Inv hist s) (f : FiberPtr) : s.control ≠ .running (.neverReach f) := by
  intro hcontrol
  obtain ⟨x, m, cb, as, he, hstage⟩ := h.turn_sub (f := f) hcontrol (by simp) rfl
  rcases hstage with ⟨-, hk, -⟩ | ⟨-, hk, -⟩ | ⟨-, hk, -⟩ | ⟨-, hk, -⟩ | ⟨hs | hs, -, -⟩
  all_goals first | simp at hk | simp [he.state] at hs

/-- Every step keeps the invariant, unless the main fiber itself yields in a state other than
`EXEC`. -/
theorem step (h : Inv hist s) {l : FiberLabel A} (hdoc : s.Documented l) (hunf : s.Unfinished l)
    (hstep : s.step l = some s') :
    Inv (hist ++ [l]) s' ∨ ((∃ op, l = .main op ∧ op.yields = true) ∧ s'.Halted) := by
  cases l with
  | main op => exact (h.step_main hdoc hunf hstep).imp_right fun hh => ⟨⟨op, rfl, hh.1⟩, hh.2⟩
  | enter f => exact Or.inl (h.step_enter hstep)
  | act f a => exact Or.inl (h.step_act hstep).1
  | neverReach f => exact absurd (Fibers.step_neverReach hstep) (h.not_neverReach f)

end Inv

end Ipmsg
