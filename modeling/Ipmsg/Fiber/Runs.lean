import Ipmsg.Fiber.Steps
import Ipmsg.Lib.Run

set_option autoImplicit false

/-! # Runs of a thread

From the state after the first `GetThis`, over every run: while the main fiber swaps in only fibers
that are waiting or suspended, the thread-local pointer, the states and the contexts agree with what
executes, and every callback runs in order. With the documented preconditions alone this can fail,
in just one way: a finished fiber may be swapped in, and `MainFunc` then goes on after its last
`swapOut`. -/

namespace Ipmsg

variable {A : Type}

namespace Fibers

/-- The thread after `GetThis` has made its main fiber. -/
def start : Fibers A := init.settle (init.mainOp (.main 1) .getThis)

/-- Code of the fiber `f` executes. -/
def Executes (s : Fibers A) (f : FiberPtr) : Prop :=
  ∃ main k, s.t_threadFiber = some main ∧ s.control = .running k ∧ k.runner main = f

/-- The main fiber constructs, resets and swaps in sub-fibers; it swaps in only what is waiting or
    suspended, resets only what is waiting or finished, and does not yield. -/
def Allowed (s : Fibers A) : FiberLabel A → Prop
  | .main (.reset f _) => s.t_threadFiber ≠ some f ∧ ∃ x, s.fiber f = some x ∧
      (x.m_state = .init ∨ x.m_state = .term ∨ x.m_state = .except)
  | .main (.swapIn f) => s.t_threadFiber ≠ some f ∧ ∃ x, s.fiber f = some x ∧
      (x.m_state = .init ∨ x.m_state = .ready ∨ x.m_state = .hold)
  | .main .yieldToReady => False
  | .main .yieldToHold => False
  | _ => True

theorem Allowed.documented {s : Fibers A} {l : FiberLabel A} (h : s.Allowed l) : s.Documented l := by
  cases l with
  | main op =>
      cases op with
      | swapIn f =>
          obtain ⟨hne, x, hx, hstate⟩ := h
          refine ⟨hne, x, hx, fun hexec => ?_⟩
          simp [hexec] at hstate
      | reset f cb => exact h
      | _ => trivial
  | _ => trivial

theorem Allowed.unfinished {s : Fibers A} {l : FiberLabel A} (h : s.Allowed l) : s.Unfinished l := by
  cases l with
  | main op =>
      cases op with
      | swapIn f =>
          obtain ⟨-, x, hx, hstate⟩ := h
          intro y hy
          obtain rfl := Option.some.inj (hx.symm.trans hy)
          constructor <;> intro hs <;> simp [hs] at hstate
      | _ => trivial
  | _ => trivial

theorem Allowed.not_yields {s : Fibers A} {op : MainOp A} (h : s.Allowed (.main op)) :
    op.yields = false := by
  cases op with
  | yieldToReady => exact h.elim
  | yieldToHold => exact h.elim
  | _ => rfl

end Fibers

theorem Inv.start : Inv (A := A) [.main .getThis] Fibers.start := by
  refine ⟨rfl, ⟨_, rfl, fun _ => rfl⟩, .main rfl rfl, fun f x hf hx => ?_⟩
  obtain ⟨f, rfl⟩ := Nat.exists_eq_succ_of_ne_zero hf
  exact absurd hx (by simp [Fibers.fiber, Fibers.start, Fibers.init, Fibers.settle, Fibers.mainOp,
    Fibers.getThis, Fibers.newMain, Fibers.setThis, Fibers.goto, assertMacro, bind, Except.bind,
    pure, Except.pure])

/-- The fiber that executes, according to the invariant, is the current one. -/
theorem Inv.executes_iff {hist : List (FiberLabel A)} {s : Fibers A} (h : Inv hist s) (f : FiberPtr) :
    s.Executes f ↔ s.t_fiber = some f := by
  have hexec : ∀ k, s.control = .running k → s.t_fiber = some (k.runner 0) → 
      (s.Executes f ↔ s.t_fiber = some f) := by
    intro k hk hcur
    constructor
    · rintro ⟨main, k', hmain, hk', rfl⟩
      rw [h.thread] at hmain
      obtain rfl := Option.some.inj hmain
      rw [hk] at hk'
      injection hk' with hkk
      rw [hcur, hkk]
    · intro hf
      rw [hcur] at hf
      exact ⟨0, k, h.thread, hk, Option.some.inj hf⟩
  rcases h.turn with ⟨hc, hcur⟩ | ⟨f', x, m, k, hne, hc, hrunner, hcur, -⟩
  · exact hexec _ hc hcur
  · exact hexec k hc (hrunner ▸ hcur)

section
variable [DecidableEq A]

/-- A run whose steps are allowed keeps the invariant, and the main fiber does not yield. -/
theorem Inv.run {labels : List (FiberLabel A)} {s : Fibers A}
    (hallowed : Along Fibers.step Fibers.Allowed Fibers.start labels)
    (hrun : exec Fibers.step Fibers.start labels = some s) :
    Inv (.main .getThis :: labels) s ∧ ∀ op ∈ mainOps (.main .getThis :: labels), op.yields = false := by
  refine exec_history (fun hist s => Inv hist s ∧ ∀ op ∈ mainOps hist, op.yields = false)
    (fun hist s l s' hinv hguard hstep => ?_) [.main .getThis] ⟨Inv.start, ?_⟩ hallowed hrun
  · obtain ⟨h, hno⟩ := hinv
    have hno' : ∀ op ∈ mainOps (hist ++ [l]), op.yields = false := by
      intro op hop
      cases l with
      | main op' =>
          rw [mainOps_concat_main, List.mem_append, List.mem_singleton] at hop
          rcases hop with hop | rfl
          · exact hno op hop
          · exact hguard.not_yields
      | enter f => exact hno op (by simpa using hop)
      | act f a => exact hno op (by simpa using hop)
      | neverReach f => exact hno op (by simpa [mainOps] using hop)
    rcases h.step hguard.documented hguard.unfinished hstep with h' | ⟨⟨op, rfl, hyields⟩, -⟩
    · exact ⟨h', hno'⟩
    · rw [hguard.not_yields] at hyields
      exact absurd hyields (by simp)
  · intro op hop
    obtain rfl : op = .getThis := by simpa [mainOps] using hop
    rfl

/-- **Whose turn it is.** In every state of an allowed run the current fiber is the one that
executes, the main fiber is in state `EXEC` and a sub-fiber is exactly when it executes, and the
main fiber then goes on after the `swapIn` that resumed it: there every yield, return or exception
continues, with the main fiber current. Every sub-fiber has done the first actions of the callback
it was given last, in order, up to where that callback ends. -/
theorem fibers_in_turn {labels : List (FiberLabel A)} {s : Fibers A}
    (hallowed : Along Fibers.step Fibers.Allowed Fibers.start labels)
    (hrun : exec Fibers.step Fibers.start labels = some s) :
    ∃ main m, s.t_threadFiber = some main ∧ s.fiber main = some m ∧
      (∃ f, s.t_fiber = some f ∧ s.Executes f) ∧
      m.m_state = .exec ∧
      (∀ f x, f ≠ main → s.fiber f = some x → (x.m_state = .exec ↔ s.Executes f)) ∧
      (∀ f, f ≠ main → s.Executes f →
        m.m_ctx = .main (mainOps (.main .getThis :: labels)).length ∧
          (mainOps (.main .getThis :: labels)).getLast? = some (.swapIn f)) ∧
      (∀ f a s', a.leaves = true → s.step (.act f a) = some s' →
        s'.control = .running (.main (mainOps (.main .getThis :: labels)).length) ∧
          s'.t_fiber = some main ∧
          (mainOps (.main .getThis :: labels)).getLast? = some (.swapIn f)) ∧
      ∀ f x, f ≠ main → s.fiber f = some x →
        ∃ cb as, ranSince f (.main .getThis :: labels) = some (cb, as) ∧
          as = (List.range as.length).map cb ∧ (∀ a ∈ as.dropLast, a.ends = false) ∧
          ((x.m_state = .term ∨ x.m_state = .except) ↔ ∃ a ∈ as, a.ends = true) := by
  obtain ⟨h, hno⟩ := Inv.run hallowed hrun
  obtain ⟨m, hm, hexec⟩ := h.main
  refine ⟨0, m, h.thread, hm, ?_, hexec hno, fun f x hf hx => ?_, fun f hf hexecutes => ?_,
    fun f a s' hleave hstep => (h.step_act hstep).2 hleave, fun f x hf hx => ?_⟩
  · rcases h.turn with ⟨-, hcur⟩ | ⟨f, x, m, k, -, -, -, hcur, -⟩
    · exact ⟨0, hcur, (h.executes_iff 0).2 hcur⟩
    · exact ⟨f, hcur, (h.executes_iff f).2 hcur⟩
  · exact (h.subs f x hf hx).exec.trans (h.executes_iff f).symm
  · have hcur := (h.executes_iff f).1 hexecutes
    rcases h.turn with ⟨-, hcur'⟩ | ⟨f', x, m', k, -, -, -, hcur', -, hm', hsaved, hlast⟩
    · rw [hcur] at hcur'
      exact absurd (Option.some.inj hcur') hf
    · obtain rfl : f = f' := Option.some.inj (hcur.symm.trans hcur')
      obtain rfl : m = m' := Option.some.inj (hm.symm.trans hm')
      exact ⟨hsaved, hlast⟩
  · obtain ⟨cb, as, hran, has, hstage⟩ := (h.subs f x hf hx).ran
    exact ⟨cb, as, hran, has, hstage.ends⟩

end

/-- `run_in_fiber` of the test. -/
def runInFiber : Callback String
  | 0 => .step "run_in_fiber begin"
  | 1 => .yieldToHold
  | 2 => .step "run_in_fiber end"
  | 3 => .yieldToHold
  | _ => .ret

/-- What `test_fiber` does after its `GetThis`. -/
def testFiber : List (FiberLabel String) :=
  [.main (.step "main begin"), .main (.construct 1 runInFiber), .main (.swapIn 1), .enter 1,
    .act 1 (.step "run_in_fiber begin"), .act 1 .yieldToHold, .main (.step "main after swapIn"),
    .main (.swapIn 1), .act 1 (.step "run_in_fiber end"), .act 1 .yieldToHold,
    .main (.step "main after end"), .main (.swapIn 1), .act 1 .ret]

theorem fibers_in_turn_sample :
    ∃ s main m, exec Fibers.step Fibers.start testFiber = some s ∧ s.t_threadFiber = some main ∧
      s.fiber main = some m ∧ m.m_state = .exec := by
  have hallowed : Along Fibers.step Fibers.Allowed Fibers.start testFiber := by
    refine (along_cons_of_step rfl).2 ⟨trivial, ?_⟩
    refine (along_cons_of_step rfl).2 ⟨trivial, ?_⟩
    refine (along_cons_of_step rfl).2 ⟨⟨by decide, _, rfl, Or.inl rfl⟩, ?_⟩
    iterate 4 refine (along_cons_of_step rfl).2 ⟨trivial, ?_⟩
    refine (along_cons_of_step rfl).2 ⟨⟨by decide, _, rfl, Or.inr (Or.inr rfl)⟩, ?_⟩
    iterate 3 refine (along_cons_of_step rfl).2 ⟨trivial, ?_⟩
    refine (along_cons_of_step rfl).2 ⟨⟨by decide, _, rfl, Or.inr (Or.inr rfl)⟩, ?_⟩
    refine (along_cons_of_step rfl).2 ⟨trivial, trivial⟩
  obtain ⟨main, m, hmain, hm, -, hexec, -⟩ := fibers_in_turn hallowed rfl
  exact ⟨_, main, m, rfl, hmain, hm, hexec⟩

/-! ## Finished fibers -/

/-- `MainFunc` has not gone on after its last `swapOut`, and no code executes of a sub-fiber whose
    last given callback has ended. -/
def Fibers.FinishedRest (hist : List (FiberLabel A)) (s : Fibers A) : Prop :=
  (∀ f, s.control ≠ .running (.neverReach f)) ∧
    s.control ≠ .fault (.assertion "never reach here") ∧
    ∀ f cb as, s.t_threadFiber ≠ some f → ranSince f hist = some (cb, as) →
      (∃ a ∈ as, a.ends = true) → ¬ s.Executes f

theorem Inv.finishedRest {hist : List (FiberLabel A)} {s : Fibers A} (h : Inv hist s) :
    s.FinishedRest hist := by
  refine ⟨h.not_neverReach, ?_, fun f cb as hne hran hends hexecutes => ?_⟩
  · rcases h.turn with ⟨hc, -⟩ | ⟨f, x, m, k, -, hc, -⟩ <;> rw [hc] <;> simp
  · have hcur := (h.executes_iff f).1 hexecutes
    rcases h.turn with ⟨-, hcur'⟩ | ⟨f', x, m, k, hf, -, -, hcur', hx, -⟩
    · exact hne (h.thread.trans (hcur'.symm.trans hcur))
    · obtain rfl : f = f' := Option.some.inj (hcur.symm.trans hcur')
      have htr := h.subs f x hf hx
      obtain ⟨cb', as', hran', -, hstage⟩ := htr.ran
      rw [hran] at hran'
      obtain ⟨rfl, rfl⟩ := Prod.mk.inj (Option.some.inj hran')
      rcases hstage.ends.2.2 hends with hs | hs <;> simp [htr.exec.2 hcur] at hs

theorem Fibers.Halted.finishedRest {s : Fibers A} (h : s.Halted) (hist : List (FiberLabel A)) :
    s.FinishedRest hist := by
  unfold Fibers.Halted at h
  refine ⟨fun f => by simp [h], by simp [h], fun f cb as _ _ _ hexecutes => ?_⟩
  obtain ⟨main, k, -, hk, -⟩ := hexecutes
  rw [h] at hk
  simp at hk

variable [DecidableEq A]

/-- After a fault nothing happens. -/
theorem Fibers.Halted.step_eq {s : Fibers A} (h : s.Halted) (l : FiberLabel A) : s.step l = none := by
  unfold Fibers.Halted at h
  cases l <;> simp only [Fibers.step, h]

/-- Swapping a finished fiber in makes `MainFunc` go on after its last `swapOut`. -/
theorem Inv.not_finishedRest {hist : List (FiberLabel A)} {s s' : Fibers A} (h : Inv hist s)
    {l : FiberLabel A} (hdoc : s.Documented l) (hfinished : ¬ s.Unfinished l)
    (hstep : s.step l = some s') (hist' : List (FiberLabel A)) : ¬ s'.FinishedRest hist' := by
  cases l with
  | main op =>
      cases op with
      | swapIn f =>
          obtain ⟨n, hcontrol, -, rfl⟩ := Fibers.step_main hstep
          obtain ⟨-, hcur⟩ := h.turn_main hcontrol
          obtain ⟨hne, x, hx, hexec⟩ := hdoc
          obtain ⟨m, hm, -⟩ := h.main
          have hf : f ≠ 0 := fun hf => hne (by rw [hf, h.thread])
          have hnot : s.t_fiber ≠ some f := Fibers.current_ne hcur hf
          have hstate : x.m_state = .term ∨ x.m_state = .except := by
            by_contra hno
            refine hfinished fun y hy => ?_
            obtain rfl := Option.some.inj (hx.symm.trans hy)
            exact not_or.1 hno
          -- the saved context of a finished fiber
          obtain ⟨cb, as, -, -, hstage⟩ := (h.subs f x hf hx).ran
          rw [Fibers.point_saved x hnot] at hstage
          have hctx : x.m_ctx = .neverReach f := by
            rcases hstage with ⟨hs, -⟩ | ⟨hs, -⟩ | ⟨hs, -⟩ | ⟨hs, -⟩ | ⟨-, hk, -⟩
            · simp [hs] at hstate
            · exact absurd hs hexec
            · exact absurd hs hexec
            · rcases hs with hs | hs <;> simp [hs] at hstate
            · exact hk
          intro hrest
          refine hrest.1 f ?_
          simp only [Fibers.mainOp, Fibers.swapIn_eq h.thread hx hm (Ne.symm hf) hexec, Fibers.settle,
            Fibers.goto_control, hctx]
      | _ => exact absurd trivial hfinished
  | _ => exact absurd trivial hfinished

/-- **Finished fibers.** In a run that meets the documented preconditions, `MainFunc` never goes on
after its last `swapOut` and finished fibers rest, in every state, exactly when no step swaps a
finished fiber in. -/
theorem finishedRest_iff (labels : List (FiberLabel A)) {s : Fibers A}
    (hdoc : Along Fibers.step Fibers.Documented Fibers.start labels)
    (hrun : exec Fibers.step Fibers.start labels = some s) :
    (∀ before u, before <+: labels → exec Fibers.step Fibers.start before = some u →
        u.FinishedRest (.main .getThis :: before)) ↔
      Along Fibers.step Fibers.Unfinished Fibers.start labels := by
  refine forall_reached_iff_along (fun hist s => Inv hist s ∨ s.Halted)
    (fun hist s => s.FinishedRest hist) (fun hist s hinv => ?_)
    (fun hist s l s' hinv hdoc hunf hstep => ?_) (fun hist s l s' hinv hdoc hfinished hstep => ?_)
    [.main .getThis] (Or.inl Inv.start) hdoc hrun
  · rcases hinv with h | h
    · exact h.finishedRest
    · exact h.finishedRest hist
  · rcases hinv with h | h
    · exact (h.step hdoc hunf hstep).imp_right And.right
    · rw [h.step_eq l] at hstep
      simp at hstep
  · rcases hinv with h | h
    · exact h.not_finishedRest hdoc hfinished hstep _
    · rw [h.step_eq l] at hstep
      simp at hstep

/-- A fiber returns, is reset, and throws. -/
def resetAndRun : List (FiberLabel Unit) :=
  [.main (.construct 1 fun _ => .ret), .main (.swapIn 1), .enter 1, .act 1 .ret,
    .main (.reset 1 fun _ => .throw), .main (.swapIn 1), .enter 1, .act 1 .throw]

theorem finishedRest_iff_sample :
    ∃ s, exec Fibers.step Fibers.start resetAndRun = some s ∧
      s.FinishedRest (.main .getThis :: resetAndRun) := by
  have hallowed : Along Fibers.step Fibers.Allowed Fibers.start resetAndRun := by
    refine (along_cons_of_step rfl).2 ⟨trivial, ?_⟩
    refine (along_cons_of_step rfl).2 ⟨⟨by decide, _, rfl, Or.inl rfl⟩, ?_⟩
    iterate 2 refine (along_cons_of_step rfl).2 ⟨trivial, ?_⟩
    refine (along_cons_of_step rfl).2 ⟨⟨by decide, _, rfl, Or.inr (Or.inl rfl)⟩, ?_⟩
    refine (along_cons_of_step rfl).2 ⟨⟨by decide, _, rfl, Or.inl rfl⟩, ?_⟩
    iterate 2 refine (along_cons_of_step rfl).2 ⟨trivial, ?_⟩
    trivial
  have hall := (finishedRest_iff resetAndRun (hallowed.mono fun _ _ h => h.documented) rfl).2
    (hallowed.mono fun _ _ h => h.unfinished)
  exact ⟨_, rfl, hall resetAndRun _ (List.prefix_refl _) rfl⟩

/-- A finished fiber is swapped in, which the documented precondition allows. -/
theorem not_finishedRest :
    ¬ ∀ (labels : List (FiberLabel Unit)) (s : Fibers Unit),
      Along Fibers.step Fibers.Documented Fibers.start labels →
      exec Fibers.step Fibers.start labels = some s →
        s.FinishedRest (.main .getThis :: labels) := by
  intro h
  refine (h [.main (.construct 1 fun _ => .ret), .main (.swapIn 1), .enter 1, .act 1 .ret,
    .main (.swapIn 1)] _ ?_ rfl).1 1 rfl
  refine (along_cons_of_step rfl).2 ⟨trivial, ?_⟩
  refine (along_cons_of_step rfl).2 ⟨⟨by decide, _, rfl, by decide⟩, ?_⟩
  iterate 2 refine (along_cons_of_step rfl).2 ⟨trivial, ?_⟩
  exact (along_cons_of_step rfl).2 ⟨⟨by decide, _, rfl, by decide⟩, trivial⟩

end Ipmsg
