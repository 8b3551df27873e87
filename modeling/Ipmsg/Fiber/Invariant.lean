import Ipmsg.Fiber.Spec

set_option autoImplicit false

/-! # Who executes, and where everyone else goes on

The invariant ties together the thread-local pointer, the states, the saved contexts and the
control. Either the main fiber executes, or one sub-fiber does and the context saved in the main
fiber is the point after the `swapIn` that resumed it. Every sub-fiber is at a definite stage of the
callback it was given last; that of the executing fiber is told by the control, that of any other by
its context. -/

namespace Ipmsg

variable {A : Type}

/-- The action ends the callback. -/
def CbAction.ends : CbAction A → Bool
  | .ret => true
  | .throw => true
  | _ => false

/-- The operation is a yield of the main fiber itself. -/
def MainOp.yields : MainOp A → Bool
  | .yieldToReady => true
  | .yieldToHold => true
  | _ => false

/-- The fiber whose code goes on at `k`. -/
def Cont.runner (main : FiberPtr) : Cont A → FiberPtr
  | .main _ => main
  | .getcontext => main
  | .mainFunc f => f
  | .callback f _ _ _ => f
  | .neverReach f => f

/-! ## Stages of a sub-fiber -/

/-- The sub-fiber `f`, which goes on at `k`, was given `cb` last and has done `as` since. -/
inductive Stage (f : FiberPtr) (x : Fiber A) (k : Cont A) (cb : Callback A) (as : List (CbAction A)) :
    Prop
  | waiting (state : x.m_state = .init) (cont : k = .mainFunc f) (nothing : as = [])
      (given : x.m_cb = some cb)
  | entered (state : x.m_state = .exec) (cont : k = .mainFunc f) (nothing : as = [])
      (given : x.m_cb = some cb)
  | running (state : x.m_state = .exec) (cont : k = .callback f f cb as.length)
      (goesOn : ∀ a ∈ as, a.ends = false)
  | suspended (state : x.m_state = .ready ∨ x.m_state = .hold)
      (cont : k = .callback f f cb as.length) (goesOn : ∀ a ∈ as, a.ends = false)
  | finished (state : x.m_state = .term ∨ x.m_state = .except) (cont : k = .neverReach f)
      (ended : ∃ as' a, as = as' ++ [a] ∧ a.ends = true ∧ ∀ b ∈ as', b.ends = false)

/-- A callback does nothing after an action that ends it, and the state tells whether it has ended.
-/
theorem Stage.ends {f : FiberPtr} {x : Fiber A} {k : Cont A} {cb : Callback A}
    {as : List (CbAction A)} (h : Stage f x k cb as) :
    (∀ a ∈ as.dropLast, a.ends = false) ∧
      ((x.m_state = .term ∨ x.m_state = .except) ↔ ∃ a ∈ as, a.ends = true) := by
  have hlive : (∀ a ∈ as, a.ends = false) → ¬ (x.m_state = .term ∨ x.m_state = .except) →
      (∀ a ∈ as.dropLast, a.ends = false) ∧
        ((x.m_state = .term ∨ x.m_state = .except) ↔ ∃ a ∈ as, a.ends = true) := by
    refine fun hgo hstate => ⟨fun a ha => hgo a (List.dropLast_subset as ha), iff_of_false hstate ?_⟩
    rintro ⟨a, ha, hends⟩
    rw [hgo a ha] at hends
    exact absurd hends (by simp)
  rcases h with ⟨hs, -, rfl, -⟩ | ⟨hs, -, rfl, -⟩ | ⟨hs, -, hgo⟩ | ⟨hs, -, hgo⟩ | ⟨hs, -, hended⟩
  · exact hlive (by simp) (by simp [hs])
  · exact hlive (by simp) (by simp [hs])
  · exact hlive hgo (by simp [hs])
  · refine hlive hgo ?_
    rcases hs with hs | hs <;> simp [hs]
  · obtain ⟨as', a, rfl, ha, hgo⟩ := hended
    rw [List.dropLast_concat]
    exact ⟨hgo, iff_of_true hs ⟨a, by simp, ha⟩⟩

/-- A sub-fiber goes on in its own code. -/
theorem Stage.runner_eq {f main : FiberPtr} {x : Fiber A} {k : Cont A} {cb : Callback A}
    {as : List (CbAction A)} (h : Stage f x k cb as) : k.runner main = f := by
  cases h with
  | waiting _ hk => rw [hk]; rfl
  | entered _ hk => rw [hk]; rfl
  | running _ hk => rw [hk]; rfl
  | suspended _ hk => rw [hk]; rfl
  | finished _ hk => rw [hk]; rfl

/-- A sub-fiber that was waiting or suspended goes on where it stopped. -/
theorem Stage.resume {f : FiberPtr} {x : Fiber A} {k : Cont A} {cb : Callback A}
    {as : List (CbAction A)} (h : Stage f x k cb as)
    (hstate : x.m_state = .init ∨ x.m_state = .ready ∨ x.m_state = .hold) :
    Stage f { x with m_state := .exec } k cb as := by
  cases h with
  | waiting _ hk hnil hcb => exact .entered rfl hk hnil hcb
  | entered hs => simp [hs] at hstate
  | running hs => simp [hs] at hstate
  | suspended _ hk hgo => exact .running rfl hk hgo
  | finished hs => rcases hs with hs | hs <;> simp [hs] at hstate

/-- Where the fiber `f` goes on. -/
def Fibers.point (s : Fibers A) (f : FiberPtr) (x : Fiber A) : Cont A :=
  match s.control with
  | .running k => if s.t_fiber = some f then k else x.m_ctx
  | .fault _ => x.m_ctx

theorem Fibers.point_executing {s : Fibers A} {k : Cont A} {f : FiberPtr} (x : Fiber A)
    (hcontrol : s.control = .running k) (hcur : s.t_fiber = some f) : s.point f x = k := by
  simp only [point, hcontrol, if_pos hcur]

theorem Fibers.point_saved {s : Fibers A} {f : FiberPtr} (x : Fiber A) (hcur : s.t_fiber ≠ some f) :
    s.point f x = x.m_ctx := by
  unfold point
  split
  · exact if_neg hcur
  · rfl

theorem Fibers.current_ne {s : Fibers A} {f g : FiberPtr} (hcur : s.t_fiber = some f) (hg : g ≠ f) :
    s.t_fiber ≠ some g := by
  rw [hcur]
  exact fun heq => hg (Option.some.inj heq).symm

/-- The sub-fiber `f` is where the history says. -/
structure Tracks (hist : List (FiberLabel A)) (s : Fibers A) (f : FiberPtr) (x : Fiber A) : Prop where
  stack : x.m_stack = true
  exec : x.m_state = .exec ↔ s.t_fiber = some f
  ran : ∃ cb as, ranSince f hist = some (cb, as) ∧ as = (List.range as.length).map cb ∧
    Stage f x (s.point f x) cb as

/-- A fiber that neither executed nor executes and that the history does not mention stays. -/
theorem Tracks.frame {hist hist' : List (FiberLabel A)} {s s' : Fibers A} {f : FiberPtr}
    {x : Fiber A} (h : Tracks hist s f x) (hran : ranSince f hist' = ranSince f hist)
    (hs : s.t_fiber ≠ some f) (hs' : s'.t_fiber ≠ some f) : Tracks hist' s' f x := by
  obtain ⟨cb, as, hr, has, hstage⟩ := h.ran
  refine ⟨h.stack, iff_of_false (fun hx => hs (h.exec.1 hx)) hs', cb, as, hran.trans hr, has, ?_⟩
  rw [Fibers.point_saved x hs']
  rwa [Fibers.point_saved x hs] at hstage

/-- A fiber that was just given a callback. -/
theorem Tracks.fresh {hist : List (FiberLabel A)} {s : Fibers A} {f : FiberPtr} {x : Fiber A}
    {cb : Callback A} (hstack : x.m_stack = true) (hstate : x.m_state = .init)
    (hctx : x.m_ctx = .mainFunc f) (hcb : x.m_cb = some cb) (hran : ranSince f hist = some (cb, []))
    (hs : s.t_fiber ≠ some f) : Tracks hist s f x := by
  refine ⟨hstack, iff_of_false (by simp [hstate]) hs, cb, [], hran, rfl, ?_⟩
  rw [Fibers.point_saved x hs]
  exact .waiting hstate hctx rfl hcb

/-! ## The invariant -/

/-- Whose turn it is: the main fiber's, or a sub-fiber's that the main fiber waits for. -/
inductive Turn (hist : List (FiberLabel A)) (s : Fibers A) : Prop
  | main (control : s.control = .running (.main (mainOps hist).length)) (current : s.t_fiber = some 0)
  | sub (f : FiberPtr) (x m : Fiber A) (k : Cont A) (ne : f ≠ 0) (control : s.control = .running k)
      (runner : k.runner 0 = f) (current : s.t_fiber = some f) (obj : s.fiber f = some x)
      (mainObj : s.fiber 0 = some m) (saved : m.m_ctx = .main (mainOps hist).length)
      (resumed : (mainOps hist).getLast? = some (.swapIn f))

structure Inv (hist : List (FiberLabel A)) (s : Fibers A) : Prop where
  thread : s.t_threadFiber = some 0
  main : ∃ m, s.fiber 0 = some m ∧ ((∀ op ∈ mainOps hist, op.yields = false) → m.m_state = .exec)
  turn : Turn hist s
  subs : ∀ f x, f ≠ 0 → s.fiber f = some x → Tracks hist s f x

/-- The sub-fiber `f` executes: `x` is its object and `m` that of the main fiber, it was given `cb`
    last and has done `as` since. -/
structure Executing (hist : List (FiberLabel A)) (s : Fibers A) (f : FiberPtr) (x m : Fiber A)
    (cb : Callback A) (as : List (CbAction A)) : Prop where
  ne : f ≠ 0
  current : s.t_fiber = some f
  obj : s.fiber f = some x
  mainObj : s.fiber 0 = some m
  saved : m.m_ctx = .main (mainOps hist).length
  resumed : (mainOps hist).getLast? = some (.swapIn f)
  stack : x.m_stack = true
  state : x.m_state = .exec
  ran : ranSince f hist = some (cb, as)
  inOrder : as = (List.range as.length).map cb

namespace Inv

variable {hist : List (FiberLabel A)} {s s' : Fibers A}

theorem turn_main (h : Inv hist s) {n : ℕ} (hcontrol : s.control = .running (.main n)) :
    n = (mainOps hist).length ∧ s.t_fiber = some 0 := by
  rcases h.turn with ⟨hc, hcur⟩ | ⟨f, x, m, k, hne, hc, hrunner, -⟩
  · rw [hcontrol] at hc
    injection hc with hc
    injection hc with hn
    exact ⟨hn, hcur⟩
  · rw [hcontrol] at hc
    injection hc with hk
    subst hk
    exact absurd hrunner.symm hne

/-- The sub-fiber that executes, with its stage. -/
theorem turn_sub (h : Inv hist s) {k : Cont A} (hcontrol : s.control = .running k)
    (hk : ∀ n, k ≠ .main n) {f : FiberPtr} (hf : k.runner 0 = f) :
    ∃ x m cb as, Executing hist s f x m cb as ∧ Stage f x k cb as := by
  subst hf
  rcases h.turn with ⟨hc, -⟩ | ⟨f, x, m, k', hne, hc, hrunner, hcur, hx, hm, hsaved, hlast⟩
  · rw [hcontrol] at hc
    injection hc with hc
    exact absurd hc (hk _)
  · rw [hcontrol] at hc
    injection hc with hkk
    subst hkk hrunner
    have htr := h.subs _ x hne hx
    obtain ⟨cb, as, hran, has, hstage⟩ := htr.ran
    rw [Fibers.point_executing x hcontrol hcur] at hstage
    exact ⟨x, m, cb, as, ⟨hne, hcur, hx, hm, hsaved, hlast, htr.stack, htr.exec.2 hcur, hran, has⟩,
      hstage⟩

/-! ### Steps of the main fiber -/

/-- The main fiber did `op` and executes again. -/
theorem mainDone (h : Inv hist s) {op : MainOp A} (hcur : s.t_fiber = some 0)
    (hthread : s'.t_threadFiber = s.t_threadFiber) (hcur' : s'.t_fiber = some 0)
    (hcontrol : s'.control = .running (.main ((mainOps hist).length + 1)))
    (hmain : ∃ m', s'.fiber 0 = some m' ∧
      (op.yields = false → ∀ m, s.fiber 0 = some m → m'.m_state = m.m_state))
    (hsubs : ∀ f x, f ≠ 0 → s'.fiber f = some x →
      (s.fiber f = some x ∧ ranSince f (hist ++ [.main op]) = ranSince f hist) ∨
        ∃ cb, x = { m_state := .init, m_ctx := .mainFunc f, m_stack := true, m_cb := some cb } ∧
          ranSince f (hist ++ [.main op]) = some (cb, [])) : Inv (hist ++ [.main op]) s' := by
  obtain ⟨m, hm, hexec⟩ := h.main
  obtain ⟨m', hm', hstate⟩ := hmain
  refine ⟨hthread.trans h.thread, ⟨m', hm', fun hno => ?_⟩, .main ?_ hcur', fun f x hf hx => ?_⟩
  · rw [mainOps_concat_main] at hno
    rw [hstate (hno op (by simp)) m hm]
    exact hexec fun o ho => hno o (List.mem_append_left _ ho)
  · rw [hcontrol, mainOps_concat_main, List.length_append, List.length_singleton]
  · have hnot : s'.t_fiber ≠ some f := Fibers.current_ne hcur' hf
    rcases hsubs f x hf hx with ⟨hold, hran⟩ | ⟨cb, rfl, hran⟩
    · exact (h.subs f x hf hold).frame hran (Fibers.current_ne hcur hf) hnot
    · exact .fresh rfl rfl rfl rfl hran hnot

/-- The main fiber resumes a sub-fiber that is waiting or suspended. -/
theorem swapIn (h : Inv hist s) (hcur : s.t_fiber = some 0) {f : FiberPtr} (hf : f ≠ 0)
    {x : Fiber A} (hx : s.fiber f = some x)
    (hstate : x.m_state = .init ∨ x.m_state = .ready ∨ x.m_state = .hold) :
    Inv (hist ++ [.main (.swapIn f)])
      ((((s.setThis f).modify f fun x => { x with m_state := .exec }).modify 0
        fun x => { x with m_ctx := .main ((mainOps hist).length + 1) }).goto x.m_ctx) := by
  obtain ⟨m, hm, hexec⟩ := h.main
  -- the objects after the step
  have hf' : ((s.setThis f).modify f fun x => { x with m_state := .exec }).fiber f =
      some { x with m_state := .exec } := Fibers.modify_fiber_self hx _
  have hm' : ((s.setThis f).modify f fun x => { x with m_state := .exec }).fiber 0 = some m := by
    rw [Fibers.modify_fiber_of_ne hf]
    exact hm
  have hmain := Fibers.modify_fiber_self hm'
    fun x => { x with m_ctx := .main ((mainOps hist).length + 1) }
  have hsub := hf'
  rw [← Fibers.modify_fiber_of_ne (Ne.symm hf) _
    fun x => { x with m_ctx := .main ((mainOps hist).length + 1) }] at hsub
  -- the stage of the resumed fiber
  obtain ⟨hstack, -, cb, as, hran, has, hstage⟩ := h.subs f x hf hx
  rw [Fibers.point_saved x (Fibers.current_ne hcur hf)] at hstage
  have hstage' : Stage f { x with m_state := .exec } x.m_ctx cb as := hstage.resume hstate
  refine ⟨h.thread, ⟨_, hmain, fun hno => hexec fun o ho => ?_⟩, ?_, fun g y hg hy => ?_⟩
  · exact hno o (by rw [mainOps_concat_main]; exact List.mem_append_left _ ho)
  · refine .sub f _ _ x.m_ctx hf rfl hstage.runner_eq rfl hsub hmain ?_ ?_
    · rw [mainOps_concat_main, List.length_append, List.length_singleton]
    · rw [mainOps_concat_main, List.getLast?_concat]
  · have hran' : ranSince g (hist ++ [.main (.swapIn f)]) = ranSince g hist := ranSince_concat ..
    by_cases hgf : g = f
    · -- the resumed fiber executes
      subst hgf
      obtain rfl := Option.some.inj (hsub.symm.trans hy)
      refine ⟨hstack, iff_of_true rfl rfl, cb, as, hran'.trans hran, has, ?_⟩
      rwa [Fibers.point_executing _ rfl rfl]
    · have hy' : s.fiber g = some y := by
        rw [← hy, Fibers.goto_fiber, Fibers.modify_fiber_of_ne (Ne.symm hg),
          Fibers.modify_fiber_of_ne (Ne.symm hgf)]
        rfl
      exact (h.subs g y hg hy').frame hran' (Fibers.current_ne hcur hg)
        (Fibers.current_ne rfl hgf)

/-! ### Steps of a sub-fiber -/

section
variable {f : FiberPtr} {x m : Fiber A} {cb : Callback A} {as as' : List (CbAction A)}
  {l : FiberLabel A}

/-- The executing sub-fiber goes on in its callback, with `as'` done. -/
theorem advance (h : Inv hist s) (he : Executing hist s f x m cb as)
    (hops : mainOps (hist ++ [l]) = mainOps hist)
    (hother : ∀ g, g ≠ f → ranSince g (hist ++ [l]) = ranSince g hist)
    (hran : ranSince f (hist ++ [l]) = some (cb, as')) (has : as' = (List.range as'.length).map cb)
    (hgo : ∀ a ∈ as', a.ends = false) :
    Inv (hist ++ [l]) (s.goto (.callback f f cb as'.length)) := by
  refine ⟨h.thread, ?_, ?_, fun g y hg hy => ?_⟩
  · rw [hops]
    exact h.main
  · exact .sub f x m _ he.ne rfl rfl he.current he.obj he.mainObj (hops ▸ he.saved)
      (hops ▸ he.resumed)
  · by_cases hgf : g = f
    · subst hgf
      obtain rfl := Option.some.inj (he.obj.symm.trans hy)
      refine ⟨he.stack, iff_of_true he.state he.current, cb, as', hran, has, ?_⟩
      rw [Fibers.point_executing x (Fibers.goto_control s _) he.current]
      exact .running he.state rfl hgo
    · -- the others neither execute nor are mentioned
      have hnot : s.t_fiber ≠ some g := Fibers.current_ne he.current hgf
      exact (h.subs g y hg hy).frame (hother g hgf) hnot hnot

/-- The executing sub-fiber swaps out, and the main fiber goes on after its `swapIn`. -/
theorem leave (h : Inv hist s) (he : Executing hist s f x m cb as)
    (hops : mainOps (hist ++ [l]) = mainOps hist)
    (hother : ∀ g, g ≠ f → ranSince g (hist ++ [l]) = ranSince g hist)
    (hran : ranSince f (hist ++ [l]) = some (cb, as')) (has : as' = (List.range as'.length).map cb)
    (x' : Fiber A) (hstack : x'.m_stack = true) (hstate : x'.m_state ≠ .exec)
    (hstage : Stage f x' x'.m_ctx cb as') (hthread : s'.t_threadFiber = some 0)
    (hcur : s'.t_fiber = some 0) (hcontrol : s'.control = .running m.m_ctx)
    (hx' : s'.fiber f = some x') (hframe : ∀ g, g ≠ f → s'.fiber g = s.fiber g) :
    Inv (hist ++ [l]) s' := by
  have hnot : ∀ g, g ≠ 0 → s'.t_fiber ≠ some g := fun g => Fibers.current_ne hcur
  refine ⟨hthread, ?_, .main ?_ hcur, fun g y hg hy => ?_⟩
  · rw [hops, hframe 0 (Ne.symm he.ne)]
    exact h.main
  · rw [hcontrol, he.saved, hops]
  · by_cases hgf : g = f
    · subst hgf
      obtain rfl := Option.some.inj (hx'.symm.trans hy)
      refine ⟨hstack, iff_of_false hstate (hnot g hg), cb, as', hran, has, ?_⟩
      rwa [Fibers.point_saved x' (hnot g hg)]
    · rw [hframe g hgf] at hy
      exact (h.subs g y hg hy).frame (hother g hgf) (Fibers.current_ne he.current hgf) (hnot g hg)

end

end Inv

end Ipmsg
