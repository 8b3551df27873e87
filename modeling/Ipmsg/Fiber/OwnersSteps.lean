import Ipmsg.Fiber.OwnersInvariant

set_option autoImplicit false

/-! # The invariant, step by step

What each step makes of a state in which every pointer is counted. Two things can end a run: the
main fiber yields after it has left state `EXEC`, and `MainFunc` gives up the last pointer to the
fiber it runs on. -/

namespace Ipmsg

variable {A : Type}

namespace Owned

/-! ## The code outside `Fiber` -/

section
variable {Q : FiberState → Prop} {s s' : Owned A} {k k' : Cont A} {f : FiberPtr} {x : Fiber A}

theorem step_user {op : UserOp A} (h : s.step (.user op) = some s') :
    ∃ k k', s.control = .running k ∧ k.next = some k' ∧ s.freshFor op = true ∧
      s' = s.settle (s.userOp k' op) := by
  simp only [step] at h
  split at h
  · next k hk =>
      split at h
      · next k' hnext =>
          split_ifs at h with hfresh
          exact ⟨k, k', hk, hnext, hfresh, (Option.some.inj h).symm⟩
      · simp at h
  · simp at h

theorem getThis_eq (hcur : s.t_fiber = some f) (hpos : 0 < s.use_count f) :
    s.getThis = .ok (s.withCount f (s.use_count f + 1), f) := by
  simp only [getThis, hcur, acquire_eq hpos, bind, Except.bind, pure, Except.pure]

/-- The thread with its main fiber, which only `t_threadFiber` holds. -/
def born (s : Owned A) : Owned A :=
  (s.withFibers { s.newMain.1 with t_threadFiber := some s.fibers.length }).withCount
    s.fibers.length 1

theorem born_fiber (s : Owned A) (f : FiberPtr) : s.born.fiber f =
    if f = s.fibers.length then
      some { m_state := .exec, m_ctx := .getcontext, m_stack := false, m_cb := none }
    else s.fiber f := by
  show (s.fibers ++ [_])[f]? = _
  rw [getElem?_concat]
  rfl

theorem getThis_new (hcur : s.t_fiber = none) :
    s.getThis = .ok (s.born.withCount s.fibers.length 2, s.fibers.length) := by
  have hbase : s.toFibers.getThis =
      .ok ({ s.newMain.1 with t_threadFiber := some s.fibers.length }, s.fibers.length) := by
    simp only [Fibers.getThis, hcur]
    rw [Fibers.assertMacro_ok (show s.newMain.1.t_fiber = some s.newMain.2 from rfl)]
    rfl
  have hbirth : ∀ n, (s.withFibers { s.newMain.1 with t_threadFiber := some s.fibers.length }).withCount
      s.fibers.length n = s.born.withCount s.fibers.length n := by
    intro n
    simp [born, withCount]
  have hacquire : (s.born.withCount s.fibers.length 2).acquire s.fibers.length =
      .ok (s.born.withCount s.fibers.length 3) := by
    rw [acquire_eq (by simp)]
    simp [withCount]
  have hrelease : (s.born.withCount s.fibers.length 3).release s.fibers.length =
      .ok (s.born.withCount s.fibers.length 2) := by
    rw [release_shared (by simp)]
    simp [withCount]
  simp only [getThis, hcur, hbase, bind, Except.bind, pure, Except.pure, hbirth, hacquire, hrelease]

/-- The pointer a new object gets is not in use. -/
theorem Proper.fresh (h : Proper Q s) : s.fiber s.fibers.length = none ∧
    s.owners s.fibers.length = 0 ∧ s.locals s.fibers.length = [] ∧
    s.t_threadFiber ≠ some s.fibers.length := by
  have hnone : s.fiber s.fibers.length = none := List.getElem?_eq_none (Nat.le_refl _)
  have hcount := h.count s.fibers.length
  rw [h.unborn _ hnone] at hcount
  refine ⟨hnone, by omega, List.eq_nil_of_length_eq_zero (by omega), fun hthread => ?_⟩
  obtain ⟨m, hm, -⟩ := h.main _ hthread
  rw [hnone] at hm
  simp at hm

/-- Where no fiber is current, the thread has none of its own yet. -/
theorem Proper.nobody (h : Proper Q s) (hcur : s.t_fiber = none) :
    s.t_threadFiber = none ∧ ∃ n, s.control = .running (.main n) := by
  cases h.executing with
  | thread n hc hsame => exact ⟨hsame ▸ hcur, n, hc⟩
  | entering _ _ _ _ hcur' => simp [hcur'] at hcur
  | callback _ _ _ _ _ hcur' => simp [hcur'] at hcur

theorem Proper.born (h : Proper Q s) (hQ : Q .exec) (hcur : s.t_fiber = none) :
    Proper Q s.born := by
  obtain ⟨hnone, howners, hlocals, -⟩ := h.fresh
  obtain ⟨hthread, n, hc⟩ := h.nobody hcur
  refine ⟨fun g => ?_, fun g hg => ?_, fun g y hg hstack => ?_, fun main hmain => ?_,
    fun g y hg hstack hne => ?_, .thread n hc rfl⟩
  · by_cases hgm : g = s.fibers.length
    · subst hgm
      simp [Owned.born, threadRefs, howners, hlocals]
    · have hcount := h.count g
      simpa [Owned.born, threadRefs, hgm, hthread, Ne.symm hgm] using hcount
  · rw [born_fiber] at hg
    split_ifs at hg with hgm
    simpa [Owned.born, hgm] using h.unborn g hg
  · rw [born_fiber] at hg
    split_ifs at hg with hgm
    · subst hgm
      rfl
    · have := h.stackless g y hg hstack
      simp [hthread] at this
  · obtain rfl : s.fibers.length = main := Option.some.inj hmain
    exact ⟨_, (born_fiber s _).trans (if_pos rfl), rfl, rfl, hlocals, hQ, fun hne => absurd rfl hne⟩
  · rw [born_fiber] at hg
    split_ifs at hg with hgm
    · obtain rfl := Option.some.inj hg
      simp at hstack
    · exact h.parked g y hg hstack (by simp [hcur])

/-- `GetThis` returns one more pointer to the current fiber, which it makes if there is none. -/
theorem Proper.getThis (h : Proper Q s) (hQ : Q .exec) :
    ∃ t f, s.getThis = .ok (t.withCount f (t.use_count f + 1), f) ∧ Proper Q t ∧
      t.t_fiber = some f ∧ t.control = s.control ∧ (s.t_fiber ≠ none → t = s) := by
  cases hcur : s.t_fiber with
  | none =>
      refine ⟨s.born, s.fibers.length, ?_, h.born hQ hcur, rfl, rfl, by simp⟩
      rw [getThis_new hcur]
      simp [Owned.born]
  | some f => exact ⟨s, f, getThis_eq hcur (h.alive hcur), h, hcur, rfl, fun _ => rfl⟩

/-- A fiber with a pointer to it exists. -/
theorem Proper.exists_fiber (h : Proper Q s) (hpos : 0 < s.use_count f) :
    ∃ x, s.fiber f = some x := by
  cases hx : s.fiber f with
  | some x => exact ⟨x, rfl⟩
  | none =>
      have hzero := h.unborn f hx
      omega

theorem Proper.owned (h : Proper Q s) (hown : 0 < s.owners f) : 0 < s.use_count f := by
  have hcount := h.count f
  omega

theorem Proper.user_getThis (h : Proper Q s) (hQ : Q .exec) (hk : s.control = .running k)
    (hnext : k.next = some k') : Proper Q (s.settle (s.userOp k' .getThis)) := by
  obtain ⟨t, f, heq, ht, hcur, hcontrol, -⟩ := h.getThis hQ
  obtain ⟨x, hx⟩ := ht.exists_fiber (ht.alive hcur)
  simp only [userOp, heq, bind, Except.bind, pure, Except.pure, settle]
  exact ht.recount (hcontrol.trans hk) hnext (by simp; omega) hx

theorem Proper.user_copy (h : Proper Q s) (hk : s.control = .running k)
    (hnext : k.next = some k') (hown : 0 < s.owners f) :
    Proper Q (s.settle (s.userOp k' (.copy f))) := by
  obtain ⟨x, hx⟩ := h.exists_fiber (h.owned hown)
  simp only [userOp, acquire_eq (h.owned hown), bind, Except.bind, pure, Except.pure, settle]
  exact h.recount hk hnext (by simp; omega) hx

theorem Proper.user_drop (h : Proper Q s) (hk : s.control = .running k)
    (hnext : k.next = some k') (hown : 0 < s.owners f) :
    Proper Q (s.settle (s.userOp k' (.drop f))) := by
  obtain ⟨x, hx⟩ := h.exists_fiber (h.owned hown)
  have hcount := h.count f
  have hcontrol : s.control ≠ .running (.mainFunc f) := by
    rw [hk]
    rintro ⟨⟩
    simp [Cont.next] at hnext
  simp only [userOp, h.counted.drop_eq hown hcontrol, bind, Except.bind, pure, Except.pure, settle]
  exact h.recount hk hnext (by omega) hx

theorem Proper.user_construct (h : Proper Q s) (hk : s.control = .running k)
    (hnext : k.next = some k') (hfresh : f = s.fibers.length) (cb : Callback A) :
    Proper Q (s.settle (s.userOp k' (.construct f cb))) := by
  subst hfresh
  obtain ⟨hnone, howners, hlocals, hthread⟩ := h.fresh
  refine ⟨fun g => ?_, fun g hg => ?_, fun g x hg hstack => ?_, fun main hmain => ?_,
    fun g x hg hstack hne => ?_, h.executing.next hk hnext rfl rfl rfl rfl
      fun g x _ hg => Fibers.newFiber_fiber_of_some hg cb⟩
  · rw [show (s.settle (s.userOp k' (.construct s.fibers.length cb))).threadRefs g =
      s.threadRefs g from rfl]
    by_cases hgf : g = s.fibers.length
    · subst hgf
      simp [userOp, settle, hlocals, threadRefs, hthread]
    · simpa [userOp, settle, hgf] using h.count g
  · have hg : (s.newFiber cb).fiber g = none := hg
    rw [Fibers.newFiber_fiber] at hg
    split_ifs at hg with hgf
    simpa [userOp, settle, hgf] using h.unborn g hg
  · rcases Fibers.fiber_of_newFiber hg with ⟨-, rfl⟩ | ⟨-, hg⟩
    · simp at hstack
    · exact h.stackless g x hg hstack
  · obtain ⟨m, hm, hm'⟩ := h.main main hmain
    exact ⟨m, Fibers.newFiber_fiber_of_some hm cb, hm'.frame rfl id⟩
  · rcases Fibers.fiber_of_newFiber hg with ⟨rfl, rfl⟩ | ⟨-, hg⟩
    · exact .waiting rfl rfl ⟨cb, rfl⟩ hlocals
    · exact h.parked g x hg hstack hne

theorem Proper.user_reset (h : Proper Q s) (hk : s.control = .running k)
    (hnext : k.next = some k') (hx : s.fiber f = some x) (hstack : x.m_stack = true)
    (hstate : x.m_state = .term ∨ x.m_state = .except ∨ x.m_state = .init) (cb : Callback A) :
    Proper Q (s.settle (s.userOp k' (.reset f cb))) := by
  have hcur : s.t_fiber ≠ some f := by
    refine h.not_current hx hstack fun hexec => ?_
    simp [hexec] at hstate
  have hframes : s.locals f = [] := by
    cases h.parked f x hx hstack hcur with
    | waiting _ _ _ hframes => exact hframes
    | suspended hs => rcases hs with hs | hs <;> simp [hs] at hstate
    | finished _ hframes => exact hframes
  simp only [userOp, Fibers.reset_eq hx hstack hstate, bind, Except.bind, pure, Except.pure, settle]
  set g' : Fiber A → Fiber A := fun x =>
    { x with m_cb := some cb, m_ctx := .mainFunc f, m_state := .init } with hg'
  have hother : ∀ g, g ≠ f → (s.modify f g').fiber g = s.fiber g := fun g hne =>
    Fibers.modify_fiber_of_ne hne.symm _ g'
  refine ⟨h.count, fun g hg => h.unborn g (Fibers.modify_fiber_none.1 hg), fun g y hg hgs => ?_,
    fun main hmain => ?_, fun g y hg hgs hne => ?_,
    h.executing.next hk hnext rfl rfl rfl rfl fun g y hgcur hg => ?_⟩
  · rcases Fibers.fiber_of_modify hg with ⟨rfl, x', hx', rfl⟩ | ⟨-, hg⟩
    · obtain rfl := Option.some.inj (hx.symm.trans hx')
      rw [hg', show (g' x).m_stack = x.m_stack from rfl, hstack] at hgs
      simp at hgs
    · exact h.stackless g y hg hgs
  · obtain ⟨m, hm, hm'⟩ := h.main main hmain
    have hne : main ≠ f := (h.ne_main hmain hx hstack).symm
    exact ⟨m, (hother main hne).trans hm, hm'.frame rfl id⟩
  · rcases Fibers.fiber_of_modify hg with ⟨rfl, x', -, rfl⟩ | ⟨-, hg⟩
    · exact .waiting rfl rfl ⟨cb, rfl⟩ hframes
    · exact h.parked g y hg hgs hne
  · have hne : g ≠ f := by
      rintro rfl
      exact hcur hgcur
    exact (hother g hne).trans hg

end

/-! ## Switches -/

section
variable {Q : FiberState → Prop} {s s' : Owned A} {f main : FiberPtr} {x x' m m' : Fiber A}

/-- The callback that runs is that of the current fiber, on whose stack `MainFunc` holds it. -/
theorem Proper.running_callback (h : Proper Q s) {cur : FiberPtr} {cb : Callback A} {k : ℕ}
    (hk : s.control = .running (.callback f cur cb k)) : ∃ x main, cur = f ∧ s.t_fiber = some f ∧
      s.t_threadFiber = some main ∧ s.fiber f = some x ∧ x.m_stack = true ∧ x.m_state = .exec ∧
      s.locals f = [f] := by
  cases h.executing with
  | thread _ hc => simp [hk] at hc
  | entering _ _ _ hc => simp [hk] at hc
  | callback f' x cb' k' hc hcur hborn hx hstack hexec hframes =>
      rw [hk] at hc
      injection hc with hc
      injection hc with hf hcur'
      subst hf hcur'
      obtain ⟨main, hmain⟩ := Option.isSome_iff_exists.1 hborn
      exact ⟨x, main, rfl, hcur, hmain, hx, hstack, hexec, hframes⟩

theorem Proper.current_main (h : Proper Q s) {n : ℕ} (hk : s.control = .running (.main n))
    (hthread : s.t_threadFiber = some main) : s.t_fiber = some main := by
  cases h.executing with
  | thread _ _ hsame => rw [hsame, hthread]
  | entering _ _ _ hc => simp [hk] at hc
  | callback _ _ _ _ hc => simp [hk] at hc

/-- Only the main fiber changes. -/
theorem Proper.change_main (h : Proper Q s) (hthread : s.t_threadFiber = some main)
    (hcur : s.t_fiber = some main) (hthread' : s'.t_threadFiber = some main)
    (hcur' : s'.t_fiber = some main) (hm : s'.fiber main = some m') (hm' : MainFiber Q s' main m')
    (hother : ∀ g, g ≠ main → s'.fiber g = s.fiber g) (hcount : s'.use_count = s.use_count)
    (howners : s'.owners = s.owners) (hlocals : s'.locals = s.locals) {n : ℕ}
    (hcontrol : s'.control = .running (.main n)) : Proper Q s' := by
  refine ⟨fun g => ?_, fun g hg => ?_, fun g y hg hstack => ?_, fun g hg => ?_,
    fun g y hg hstack hne => ?_, .thread n hcontrol (hcur'.trans hthread'.symm)⟩
  · have hrefs : s'.threadRefs g = s.threadRefs g := by simp only [threadRefs, hthread, hthread']
    rw [hcount, howners, hlocals, hrefs, h.count g]
  · have hne : g ≠ main := by
      rintro rfl
      simp [hm] at hg
    rw [hcount, h.unborn g (hother g hne ▸ hg)]
  · by_cases hgm : g = main
    · rw [hthread', hgm]
    · rw [hthread', ← hthread]
      exact h.stackless g y (hother g hgm ▸ hg) hstack
  · obtain rfl := Option.some.inj (hthread'.symm.trans hg)
    exact ⟨m', hm, hm'⟩
  · have hgm : g ≠ main := by
      rintro rfl
      exact hne hcur'
    rw [hlocals]
    exact h.parked g y (hother g hgm ▸ hg) hstack (by simpa [hcur] using Ne.symm hgm)

/-- A sub-fiber takes over from the main fiber, or gives back to it, or stays: only the two change.
-/
theorem Proper.switch (h : Proper Q s) (hthread : s.t_threadFiber = some main) (hne : f ≠ main)
    (hcur : s.t_fiber = some main ∨ s.t_fiber = some f) (hthread' : s'.t_threadFiber = some main)
    (hcur' : s'.t_fiber = some main ∨ s'.t_fiber = some f) (hx : s'.fiber f = some x')
    (hstack : x'.m_stack = true) (hparked : s'.t_fiber ≠ some f → Parked f x' (s'.locals f))
    (hm : s'.fiber main = some m') (hm' : MainFiber Q s' main m')
    (hother : ∀ g, g ≠ f → g ≠ main → s'.fiber g = s.fiber g) (howners : s'.owners = s.owners)
    (hlocals : ∀ g, g ≠ f → s'.locals g = s.locals g)
    (hcount : ∀ g, s'.use_count g + (s.locals g).length = s.use_count g + (s'.locals g).length)
    (hexec : Executing s') : Proper Q s' := by
  have hothers : ∀ g, g ≠ f → g ≠ main → s.t_fiber ≠ some g := by
    intro g hgf hgm heq
    rcases hcur with hcur | hcur
    · exact hgm (Option.some.inj (heq.symm.trans hcur))
    · exact hgf (Option.some.inj (heq.symm.trans hcur))
  refine ⟨fun g => ?_, fun g hg => ?_, fun g y hg hgs => ?_, fun g hg => ?_,
    fun g y hg hgs hgcur => ?_, hexec⟩
  · have hrefs : s'.threadRefs g = s.threadRefs g := by simp only [threadRefs, hthread, hthread']
    have h1 := h.count g
    have h2 := hcount g
    rw [howners, hrefs]
    omega
  · have hgf : g ≠ f := by
      rintro rfl
      simp [hx] at hg
    have hgm : g ≠ main := by
      rintro rfl
      simp [hm] at hg
    have h1 := h.unborn g (hother g hgf hgm ▸ hg)
    have h2 := hcount g
    rw [hlocals g hgf] at h2
    omega
  · by_cases hgm : g = main
    · rw [hthread', hgm]
    · by_cases hgf : g = f
      · subst hgf
        obtain rfl := Option.some.inj (hx.symm.trans hg)
        rw [hstack] at hgs
        simp at hgs
      · rw [hthread', ← hthread]
        exact h.stackless g y (hother g hgf hgm ▸ hg) hgs
  · obtain rfl := Option.some.inj (hthread'.symm.trans hg)
    exact ⟨m', hm, hm'⟩
  · by_cases hgf : g = f
    · subst hgf
      obtain rfl := Option.some.inj (hx.symm.trans hg)
      exact hparked hgcur
    · have hgm : g ≠ main := by
        rintro rfl
        obtain rfl := Option.some.inj (hm.symm.trans hg)
        rw [hm'.stack] at hgs
        simp at hgs
      rw [hlocals g hgf]
      exact h.parked g y (hother g hgf hgm ▸ hg) hgs (hothers g hgf hgm)

theorem yieldTo_eq {t : Owned A} {state : FiberState} {k : Cont A} {base : Fibers A}
    (hthis : s.getThis = .ok (t, f)) (hx : t.fiber f = some x) (hexec : x.m_state = .exec)
    (hswap : (t.modify f fun x => { x with m_state := state }).swapOut f k = .ok base) :
    s.yieldTo state k = if base.t_threadFiber = some f then (t.withFibers base).release f
      else .ok ((t.withFibers base).withLocals (k.runner f) (f :: t.locals (k.runner f))) := by
  simp only [yieldTo, hthis, Fibers.deref_some hx, Fibers.assertMacro_ok hexec, hswap, bind,
    Except.bind, pure, Except.pure, withFibers_toFibers, withFibers_locals]
  rfl

/-- The main fiber yields to itself, unless it has done so before. -/
theorem Proper.yield_main (h : Proper Q s) (hQ : Q .exec) {n : ℕ}
    (hk : s.control = .running (.main n)) (state : FiberState) (hstate : Q state) :
    (∃ t f m, s.yieldTo state (.main (n + 1)) = .ok t ∧ Proper Q t ∧
      t.control = .running (.main (n + 1)) ∧ t.t_fiber = some f ∧ t.fiber f = some m ∧
      m.m_state = state) ∨
    ((∃ st, Q st ∧ st ≠ .exec) ∧ s.yieldTo state (.main (n + 1)) =
      .error (.assertion "cur->m_state == STATE_EXEC")) := by
  obtain ⟨t, main, heq, ht, hcur, hcontrol, -⟩ := h.getThis hQ
  have hthread : t.t_threadFiber = some main := by
    cases ht.executing with
    | thread _ _ hsame => rw [← hsame, hcur]
    | entering _ _ _ hc => simp [hcontrol, hk] at hc
    | callback _ _ _ _ hc => simp [hcontrol, hk] at hc
  obtain ⟨m, hm, hm'⟩ := ht.main main hthread
  by_cases hexec : m.m_state = .exec
  · have hself : (t.modify main fun x => { x with m_state := state }).fiber main =
        some { m with m_state := state } := Fibers.modify_fiber_self hm _
    have hswap := Fibers.swapOut_self (s := t.modify main fun x => { x with m_state := state })
      hthread hself (.main (n + 1))
    generalize hbase : (((t.modify main fun x => { x with m_state := state }).setThis main).modify
      main fun x => { x with m_ctx := .main (n + 1) }).goto (.main (n + 1)) = base at hswap
    have hfiber : base.fiber main = some { m with m_state := state, m_ctx := .main (n + 1) } := by
      rw [← hbase, Fibers.goto_fiber]
      exact Fibers.modify_fiber_self (x := { m with m_state := state }) hself _
    have hother : ∀ g, g ≠ main → base.fiber g = t.fiber g := by
      intro g hg
      rw [← hbase, Fibers.goto_fiber, Fibers.modify_fiber_of_ne hg.symm, Fibers.setThis_fiber,
        Fibers.modify_fiber_of_ne hg.symm]
    have hthread' : base.t_threadFiber = some main := by rw [← hbase]; exact hthread
    have hcur' : base.t_fiber = some main := by rw [← hbase]; rfl
    have hcontrol' : base.control = .running (.main (n + 1)) := by rw [← hbase]; rfl
    have hrelease : ((t.withCount main (t.use_count main + 1)).withFibers base).release main =
        .ok (t.withFibers base) := by
      have halive := ht.alive hcur
      rw [release_shared (by simp; omega)]
      simp [withCount, withFibers]
    -- the switch from the main fiber to itself returns, in the state set before
    refine .inl ⟨t.withFibers base, main, _, ?_, ?_, hcontrol', hcur', hfiber, rfl⟩
    · rw [yieldTo_eq heq (t := t.withCount main (t.use_count main + 1)) hm hexec hswap,
        if_pos hthread', hrelease]
    · refine ht.change_main hthread hcur hthread' hcur' hfiber ?_ hother rfl rfl rfl hcontrol'
      exact ⟨hm'.stack, hm'.cb, hm'.frames, hstate, fun hne => absurd hcur' hne⟩
  · refine .inr ⟨⟨m.m_state, hm'.state, hexec⟩, ?_⟩
    simp only [yieldTo, heq, withCount_toFibers, Fibers.deref_some hm, assertMacro, if_neg hexec,
      bind, Except.bind]

/-- A callback yields: its stack keeps one more pointer to the fiber. -/
theorem Proper.yield_callback (h : Proper Q s) {cb : Callback A} {k : ℕ}
    (hk : s.control = .running (.callback f f cb k)) {state : FiberState}
    (hstate : state = .ready ∨ state = .hold) :
    ∃ t, s.yieldTo state (.callback f f cb (k + 1)) = .ok t ∧ Proper Q t := by
  obtain ⟨x, main, -, hcur, hthread, hx, hstack, hexec, hframes⟩ := h.running_callback hk
  obtain ⟨m, hm, hm'⟩ := h.main main hthread
  have hne : f ≠ main := h.ne_main hthread hx hstack
  obtain ⟨n, hn⟩ := hm'.cont (by simpa [hcur] using hne)
  obtain ⟨base, hswap, hthread', hcur', hcontrol, hf, hother⟩ := Fibers.swapOut_modify hthread hx hm
    hne (fun x => { x with m_state := state }) (.callback f f cb (k + 1))
  refine ⟨_, (yieldTo_eq (getThis_eq hcur (h.alive hcur)) hx hexec hswap).trans (if_neg ?_), ?_⟩
  · rw [hthread']
    exact fun heq => hne (Option.some.inj heq).symm
  · refine h.switch hthread hne (.inr hcur) hthread' (.inl hcur') hf hstack (fun _ => ?_)
      ((hother main hne.symm).trans hm) ?_ (fun g hgf _ => hother g hgf) rfl (fun g hg => ?_)
      (fun g => ?_) (.thread n (hcontrol.trans (congrArg _ hn)) (hcur'.trans hthread'.symm))
    · exact .suspended hstate ⟨cb, k + 1, rfl⟩ (by simp [Cont.runner, hframes])
    · exact hm'.frame (by simp [Cont.runner, hne.symm]) fun hne' => absurd hcur' hne'
    · simp [Cont.runner, hg]
    · by_cases hgf : g = f
      · subst hgf
        simp [Cont.runner]
        omega
      · simp [Cont.runner, hgf]

/-- The main fiber goes on where it stands, in state `EXEC` again. -/
theorem Proper.swapIn_main (h : Proper Q s) (hQ : Q .exec) {n : ℕ}
    (hk : s.control = .running (.main n)) (hthread : s.t_threadFiber = some main)
    (hm : s.fiber main = some m) (hstate : m.m_state ≠ .exec) :
    ∃ t, s.swapIn main (.main (n + 1)) = .ok t ∧ Proper Q t := by
  have hcur := h.current_main hk hthread
  obtain ⟨m', hm', hmain⟩ := h.main main hthread
  obtain rfl := Option.some.inj (hm.symm.trans hm')
  have hswap := Fibers.swapIn_self hthread hm hstate (.main (n + 1))
  generalize hbase : (((s.setThis main).modify main fun x => { x with m_state := .exec }).modify
    main fun x => { x with m_ctx := .main (n + 1) }).goto (.main (n + 1)) = base at hswap
  have hfiber : base.fiber main = some { m with m_state := .exec, m_ctx := .main (n + 1) } := by
    have hm1 : (s.setThis main).fiber main = some m := hm
    rw [← hbase, Fibers.goto_fiber,
      Fibers.modify_fiber_self (x := { m with m_state := .exec }) (Fibers.modify_fiber_self hm1 _)]
  have hother : ∀ g, g ≠ main → base.fiber g = s.fiber g := by
    intro g hg
    rw [← hbase, Fibers.goto_fiber, Fibers.modify_fiber_of_ne hg.symm,
      Fibers.modify_fiber_of_ne hg.symm, Fibers.setThis_fiber]
  have hthread' : base.t_threadFiber = some main := by rw [← hbase]; exact hthread
  have hcur' : base.t_fiber = some main := by rw [← hbase]; rfl
  have hcontrol : base.control = .running (.main (n + 1)) := by rw [← hbase]; rfl
  refine ⟨s.withFibers base, ?_, h.change_main hthread hcur hthread' hcur' hfiber ?_ hother rfl rfl
    rfl hcontrol⟩
  · simp only [swapIn, hswap, hcontrol, bind, Except.bind, pure, Except.pure]
  · exact ⟨hmain.stack, hmain.cb, hmain.frames, hQ, fun hne => absurd hcur' hne⟩

/-- The main fiber swaps in a sub-fiber, which starts or returns from its yield. -/
theorem Proper.swapIn_sub (h : Proper Q s) {n : ℕ} (hk : s.control = .running (.main n))
    (hthread : s.t_threadFiber = some main) (hown : 0 < s.owners f) (hx : s.fiber f = some x)
    (hstack : x.m_stack = true)
    (hstate : x.m_state = .init ∨ x.m_state = .ready ∨ x.m_state = .hold) :
    ∃ t, s.swapIn f (.main (n + 1)) = .ok t ∧ Proper Q t := by
  obtain ⟨m, hm, hm'⟩ := h.main main hthread
  have hcur := h.current_main hk hthread
  have hne : f ≠ main := h.ne_main hthread hx hstack
  have hexec : x.m_state ≠ .exec := by
    rintro hs
    simp [hs] at hstate
  have hswap := Fibers.swapIn_eq hthread hx hm hne.symm hexec (.main (n + 1))
  generalize hbase : (((s.setThis f).modify f fun x => { x with m_state := .exec }).modify main
    fun x => { x with m_ctx := .main (n + 1) }).goto x.m_ctx = base at hswap
  have hx1 : (s.setThis f).fiber f = some x := hx
  have hm1 : ((s.setThis f).modify f fun x => { x with m_state := .exec }).fiber main = some m := by
    rw [Fibers.modify_fiber_of_ne hne]
    exact hm
  have hf : base.fiber f = some { x with m_state := .exec } := by
    rw [← hbase, Fibers.goto_fiber, Fibers.modify_fiber_of_ne hne.symm]
    exact Fibers.modify_fiber_self hx1 _
  have hmain : base.fiber main = some { m with m_ctx := .main (n + 1) } := by
    rw [← hbase, Fibers.goto_fiber]
    exact Fibers.modify_fiber_self hm1 _
  have hother : ∀ g, g ≠ f → g ≠ main → base.fiber g = s.fiber g := by
    intro g hgf hgm
    rw [← hbase, Fibers.goto_fiber, Fibers.modify_fiber_of_ne hgm.symm,
      Fibers.modify_fiber_of_ne hgf.symm, Fibers.setThis_fiber]
  have hthread' : base.t_threadFiber = some main := by rw [← hbase]; exact hthread
  have hcur' : base.t_fiber = some f := by rw [← hbase]; rfl
  have hcontrol : base.control = .running x.m_ctx := by rw [← hbase]; rfl
  have hborn : base.t_threadFiber.isSome := by rw [hthread']; rfl
  have hmain' : ∀ t : Owned A, t.t_fiber = some f → t.locals main = s.locals main →
      MainFiber Q t main { m with m_ctx := .main (n + 1) } := fun t _ hl =>
    ⟨hm'.stack, hm'.cb, hl.trans hm'.frames, hm'.state, fun _ => ⟨n + 1, rfl⟩⟩
  cases h.parked f x hx hstack (by simpa [hcur] using hne.symm) with
  | waiting _ hctx hgiven hframes =>
      -- `MainFunc` is entered; until it takes a pointer only owners have one
      obtain ⟨cb, hcb⟩ := hgiven
      rw [hctx] at hcontrol
      refine ⟨s.withFibers base, ?_, ?_⟩
      · simp only [swapIn, hswap, hcontrol, bind, Except.bind, pure, Except.pure]
      · exact h.switch hthread hne (.inl hcur) hthread' (.inr hcur') hf hstack
          (fun hne' => absurd hcur' hne') hmain (hmain' _ hcur' rfl) hother rfl (fun _ _ => rfl)
          (fun _ => rfl) (.entering f _ cb hcontrol hcur' hborn hf hstack rfl hcb hframes hown)
  | suspended _ hctx hframes =>
      -- the yield returns, and its pointer goes
      obtain ⟨cb, k, hctx⟩ := hctx
      rw [hctx] at hcontrol
      have hcount := h.count f
      rw [hframes] at hcount
      have hcount : s.use_count f = s.owners f + 2 + s.threadRefs f := hcount
      refine ⟨((s.withFibers base).withLocals f [f]).withCount f (s.use_count f - 1), ?_, ?_⟩
      · simp only [swapIn, hswap, hcontrol, bind, Except.bind, leave, withFibers_locals, hframes]
        exact release_shared (show 1 < s.use_count f by omega)
      · refine h.switch hthread hne (.inl hcur) hthread' (.inr hcur') hf hstack
          (fun hne' => absurd hcur' hne') hmain (hmain' _ hcur' (by simp [hne.symm])) hother rfl
          (fun g hg => by simp [hg]) (fun g => ?_)
          (.callback f _ cb k hcontrol hcur' hborn hf hstack rfl (by simp))
        by_cases hgf : g = f
        · subst hgf
          simp [hframes]
          omega
        · simp [hgf]
  | finished hs => rcases hs with hs | hs <;> simp [hs] at hstate

/-- `MainFunc` takes a pointer to the fiber it runs on and calls its callback. -/
theorem Proper.mainFunc (h : Proper Q s) (hk : s.control = .running (.mainFunc f)) :
    ∃ t, s.mainFunc f = .ok t ∧ Proper Q t := by
  cases h.executing with
  | thread _ hc => simp [hk] at hc
  | callback _ _ _ _ hc => simp [hk] at hc
  | entering f' x cb hc hcur hborn hx hstack hexec hcb hframes howned =>
      rw [hk] at hc
      injection hc with hc
      injection hc with hf
      subst hf
      obtain ⟨main, hthread⟩ := Option.isSome_iff_exists.1 hborn
      obtain ⟨m, hm, hm'⟩ := h.main main hthread
      have hne : f ≠ main := h.ne_main hthread hx hstack
      refine ⟨((s.withCount f (s.use_count f + 1)).withLocals f [f]).withFibers
        (s.goto (.callback f f cb 0)), ?_, ?_⟩
      · simp only [Owned.mainFunc, getThis_eq hcur (h.alive hcur), withCount_locals, hframes,
          withLocals_toFibers, withCount_toFibers, Fibers.deref_some hx, hcb, bind, Except.bind, pure,
          Except.pure]
      · refine h.switch hthread hne (.inr hcur) hthread (.inr hcur) hx hstack
          (fun hne' => absurd hcur hne') hm ?_ (fun _ _ _ => rfl) rfl (fun g hg => by simp [hg])
          (fun g => ?_) (.callback f x cb 0 rfl hcur hborn hx hstack hexec (by simp))
        · exact hm'.frame (by simp [hne.symm]) id
        · by_cases hgf : g = f
          · subst hgf
            simp [hframes]
          · simp [hgf]

/-- A callback that runs lets go of pointers. -/
theorem Proper.drops (h : Proper Q s) {cb : Callback A} {k : ℕ}
    (hk : s.control = .running (.callback f f cb k)) {captured : List FiberPtr}
    (hown : ∀ g, captured.count g ≤ s.owners g) :
    ∃ t, captured.foldlM drop s = .ok t ∧ Proper Q t ∧ t.toFibers = s.toFibers ∧
      ∀ g, t.owners g = s.owners g - captured.count g := by
  obtain ⟨t, ht, hcounted, hbase, hlocals, howners⟩ := h.counted.drops (by simp [hk]) hown
  refine ⟨t, ht, ⟨hcounted.count, hcounted.unborn, hcounted.stackless, ?_, ?_, ?_⟩, hbase, howners⟩
  · rw [hbase]
    intro main hmain
    obtain ⟨m, hm, hm'⟩ := h.main main hmain
    exact ⟨m, hm, hm'.frame (congrFun hlocals main) (hbase ▸ id)⟩
  · rw [hbase, hlocals]
    exact h.parked
  · obtain ⟨x, main, -, hcur, hthread, hx, hstack, hexec, hframes⟩ := h.running_callback hk
    exact .callback f x cb k (hbase ▸ hk) (hbase ▸ hcur) (by rw [hbase, hthread]; rfl) (hbase ▸ hx)
      hstack hexec (hlocals ▸ hframes)

/-- The end of `MainFunc` destroyed the fiber it runs on. -/
def Freed (s : Owned A) : Prop :=
  s.control = .fault .badPointer ∧ (∃ f, s.t_fiber = some f ∧ s.use_count f = 0) ∧ Counted s

section
variable {cb : Callback A} {k : ℕ} {g : Fiber A → Fiber A} (captured : List FiberPtr)

/-- The fiber a callback ran on, after the callback and without the pointer of `MainFunc`. -/
def left (s : Owned A) (f : FiberPtr) (g : Fiber A → Fiber A) : Owned A :=
  ((s.withFibers (s.modify f g)).withLocals f []).withCount f (s.owners f)

/-- `cur.reset()`, which may be the last pointer: the state is one that `~Fiber` accepts. -/
theorem Proper.leave_eq (h : Proper Q s) (hk : s.control = .running (.callback f f cb k))
    (hg : ∀ x, (g x).m_stack = x.m_stack) (hended : ∀ x, (g x).m_state.AtRest) :
    (s.withFibers (s.modify f g)).leave f = .ok (s.left f g) := by
  obtain ⟨x, main, -, hcur, hthread, hx, hstack, hexec, hframes⟩ := h.running_callback hk
  have hne : main ≠ f := (h.ne_main hthread hx hstack).symm
  have hcount := h.count f
  rw [hframes, show s.threadRefs f = 0 from if_neg (by simpa [hthread] using hne)] at hcount
  have hcount : s.use_count f = s.owners f + 1 := hcount
  have hself : (s.modify f g).fiber f = some (g x) := Fibers.modify_fiber_self hx g
  simp only [Owned.leave, withFibers_locals, hframes]
  rw [release_eq (by simp [hcount]) fun _ => ⟨g x, hself, (hg x).trans hstack, hended x⟩]
  simp [left, hcount]

/-- Where an owner is left, the main fiber goes on. -/
theorem Proper.leave_shared (h : Proper Q s) (hk : s.control = .running (.callback f f cb k))
    (hg : ∀ x, (g x).m_stack = x.m_stack)
    (hended : ∀ x, (g x).m_state = .term ∨ (g x).m_state = .except) (hpos : 0 < s.owners f) :
    ∃ t, (s.withFibers (s.modify f g)).mainFuncLeave f f captured = .ok t ∧ Proper Q t := by
  obtain ⟨x, main, -, hcur, hthread, hx, hstack, hexec, hframes⟩ := h.running_callback hk
  obtain ⟨m, hm, hm'⟩ := h.main main hthread
  have hne : f ≠ main := h.ne_main hthread hx hstack
  obtain ⟨n, hn⟩ := hm'.cont (by simpa [hcur] using hne)
  obtain ⟨base, hswap, hthread', hcur', hcontrol, hf, hother⟩ := Fibers.swapOut_modify hthread hx hm
    hne g (.neverReach f)
  refine ⟨(s.left f g).withFibers base, ?_, ?_⟩
  · have hcount : (s.left f g).use_count f ≠ 0 := by
      simp [left]
      omega
    simp only [mainFuncLeave, h.leave_eq hk hg fun x => (hended x).imp_right .inl, bind, Except.bind,
      if_neg hcount]
    rw [show (s.left f g).swapOut f (.neverReach f) = .ok base from hswap]
    rfl
  · refine h.switch hthread hne (.inr hcur) hthread' (.inl hcur') hf ((hg x).trans hstack)
      (fun _ => .finished (hended x) (by simp [left])) ((hother main hne.symm).trans hm) ?_
      (fun p hp _ => hother p hp) rfl (fun p hp => by simp [left, hp]) (fun p => ?_)
      (.thread n (hcontrol.trans (congrArg _ hn)) (hcur'.trans hthread'.symm))
    · exact hm'.frame (by simp [left, hne.symm]) fun hne' => absurd hcur' hne'
    · have hcount := h.count p
      by_cases hpf : p = f
      · subst hpf
        rw [hframes, show s.threadRefs p = 0 from
          if_neg (by simpa [hthread] using hne.symm)] at hcount
        simp [left, hframes, hcount]
      · simp [left, hpf]

/-- Where no owner is left, the fiber is destroyed while it executes. -/
theorem Proper.leave_last (h : Proper Q s) (hk : s.control = .running (.callback f f cb k))
    (hg : ∀ x, (g x).m_stack = x.m_stack) (hended : ∀ x, (g x).m_state.AtRest)
    (hown : ∀ p, captured.count p ≤ s.owners p) (hzero : s.owners f = 0) :
    ∃ t, (s.withFibers (s.modify f g)).mainFuncLeave f f captured = .ok t ∧ Freed t := by
  obtain ⟨x, main, -, hcur, hthread, hx, hstack, hexec, hframes⟩ := h.running_callback hk
  have hne : main ≠ f := (h.ne_main hthread hx hstack).symm
  have hcounted : Counted (s.left f g) := by
    refine ⟨fun p => ?_, fun p q hq => ?_, fun p hp => ?_, fun p y hp hps => ?_,
      fun p y hp hps hlocals hnot => ?_⟩
    · rw [show (s.left f g).threadRefs p = s.threadRefs p from rfl]
      by_cases hpf : p = f
      · subst hpf
        simp [left, threadRefs, hthread, hne]
      · simpa [left, hpf] using h.count p
    · by_cases hpf : p = f
      · simp [left, hpf] at hq
      · exact h.counted.own p q (by simpa [left, hpf] using hq)
    · by_cases hpf : p = f
      · subst hpf
        simp [left, hzero]
      · simpa [left, hpf] using h.unborn p (Fibers.modify_fiber_none.1 hp)
    · rcases Fibers.fiber_of_modify hp with ⟨rfl, x', hx', rfl⟩ | ⟨-, hp⟩
      · obtain rfl := Option.some.inj (hx.symm.trans hx')
        rw [hg, hstack] at hps
        simp at hps
      · exact h.stackless p y hp hps
    · rcases Fibers.fiber_of_modify hp with ⟨rfl, x', -, rfl⟩ | ⟨hpf, hp⟩
      · exact hended x'
      · exact h.counted.rest p y hp hps (by simpa [left, hpf] using hlocals) (by simp [hk])
  -- what its callback captured goes with it
  obtain ⟨t, ht, hcounted', hbase, hlocals, howners⟩ := hcounted.drops
    (fun p => show s.control ≠ _ by simp [hk]) hown
  refine ⟨t.withFibers { t.toFibers with control := .fault .badPointer }, ?_, rfl, ⟨f, ?_, ?_⟩, ?_⟩
  · have hcount : (s.left f g).use_count f = 0 := by simp [left, hzero]
    simp only [mainFuncLeave, h.leave_eq hk hg hended, bind, Except.bind, if_pos hcount, ht, pure,
      Except.pure]
  · show t.t_fiber = some f
    rw [hbase]
    exact hcur
  · have hcount := hcounted'.count f
    have hown : t.owners f = 0 := (howners f).trans (by simp [left, hzero])
    rw [hown, hlocals,
      show t.threadRefs f = 0 by simp [threadRefs, hbase, left, hthread, hne]] at hcount
    simpa [left] using hcount
  · refine ⟨hcounted'.count, hcounted'.own, hcounted'.unborn, hcounted'.stackless,
      fun p y hp hps hl _ => ?_⟩
    refine hcounted'.rest p y hp hps hl ?_
    rw [hbase]
    show s.control ≠ _
    simp [hk]

end

end

end Owned

end Ipmsg
