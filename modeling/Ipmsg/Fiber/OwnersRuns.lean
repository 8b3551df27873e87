import Ipmsg.Fiber.OwnersSteps
import Ipmsg.Lib.Run

set_option autoImplicit false

/-! # Runs of a thread and its owners

Over every run in which code uses only pointers it has: the main fiber's own yields are the only way
for the executing fiber to be in another state than `EXEC`; no order of dropping owners brings
`~Fiber` to a callback that has started and not ended; and a fiber is destroyed while it executes
exactly when its callback ends without an owner left. -/

namespace Ipmsg

variable {A : Type}

namespace Owned

/-! ## The invariant along a run -/

/-- The main fiber yielded in another state than `EXEC`, which ended the run. -/
def Yielded (Q : FiberState → Prop) (s : Owned A) : Prop :=
  ∃ t n, Proper Q t ∧ t.control = .running (.main n) ∧ (∃ state, Q state ∧ state ≠ .exec) ∧
    s = t.withFibers { t.toFibers with control := .fault (.assertion "cur->m_state == STATE_EXEC") }

/-- When a callback ends, and its captured pointers are gone, an owner of its fiber is left. -/
def KeepsOwner (s : Owned A) : OwnedLabel A → Prop
  | .ret captured => ∀ f cur cb k, s.control = .running (.callback f cur cb k) →
      captured.count f < s.owners f
  | .throw _ => ∀ f cur cb k, s.control = .running (.callback f cur cb k) → 0 < s.owners f
  | _ => True

/-- The main fiber does not yield. -/
def MainStays (s : Owned A) : OwnedLabel A → Prop
  | .user op => ∀ n, s.control = .running (.main n) → op.yields = false
  | _ => True

section
variable {Q : FiberState → Prop} {s s' : Owned A} {f : FiberPtr}

theorem Proper.mono {Q' : FiberState → Prop} (h : Proper Q s) (himp : ∀ state, Q state → Q' state) :
    Proper Q' s := by
  refine ⟨h.count, h.unborn, h.stackless, fun main hmain => ?_, h.parked, h.executing⟩
  obtain ⟨m, hm, hm'⟩ := h.main main hmain
  exact ⟨m, hm, hm'.stack, hm'.cb, hm'.frames, himp _ hm'.state, hm'.cont⟩

/-- Code outside `Fiber` runs on the main fiber or in a callback of the current one. -/
theorem Proper.user_code (h : Proper Q s) {k k' : Cont A} (hk : s.control = .running k)
    (hnext : k.next = some k') : (∃ n, k = .main n ∧ k' = .main (n + 1)) ∨
      ∃ f cb n, k = .callback f f cb n ∧ k' = .callback f f cb (n + 1) := by
  cases k with
  | main n => exact .inl ⟨n, rfl, (Option.some.inj hnext).symm⟩
  | callback f cur cb n =>
      obtain ⟨-, -, rfl, -⟩ := h.running_callback hk
      exact .inr ⟨cur, cb, n, rfl, (Option.some.inj hnext).symm⟩
  | getcontext => simp [Cont.next] at hnext
  | mainFunc f => simp [Cont.next] at hnext
  | neverReach f => simp [Cont.next] at hnext

theorem Proper.user_yield (h : Proper Q s) (hQ : Q .exec) {k k' : Cont A}
    (hk : s.control = .running k) (hnext : k.next = some k') {state : FiberState}
    (hstate : state = .ready ∨ state = .hold) (hmain : ∀ n, k = .main n → Q state) :
    Proper Q (s.settle (s.yieldTo state k')) ∨ Yielded Q (s.settle (s.yieldTo state k')) := by
  rcases h.user_code hk hnext with ⟨n, rfl, rfl⟩ | ⟨f, cb, n, rfl, rfl⟩
  · rcases h.yield_main hQ hk _ (hmain n rfl) with ⟨t, f, m, ht, hproper, -⟩ | ⟨hleft, herror⟩
    · rw [ht]
      exact .inl hproper
    · rw [herror]
      exact .inr ⟨s, n, h, hk, hleft, rfl⟩
  · obtain ⟨t, ht, hproper⟩ := h.yield_callback hk hstate
    rw [ht]
    exact .inl hproper

theorem Proper.user (h : Proper Q s) (hQ : Q .exec) {op : UserOp A}
    (hpermitted : s.Permitted (.user op)) (hmain : ∀ state, Q state ∨ s.MainStays (.user op))
    (hstep : s.step (.user op) = some s') : Proper Q s' ∨ Yielded Q s' := by
  obtain ⟨k, k', hk, hnext, hfresh, rfl⟩ := step_user hstep
  have hyields : op.yields = true → ∀ state n, k = .main n → Q state := by
    rintro hop state n rfl
    refine (hmain state).resolve_right fun hstays => ?_
    rw [hstays n hk] at hop
    exact absurd hop (by simp)
  cases op with
  | getThis => exact .inl (h.user_getThis hQ hk hnext)
  | construct f cb => exact .inl (h.user_construct hk hnext (by simpa [freshFor] using hfresh) cb)
  | reset f cb =>
      obtain ⟨-, x, hx, hstack, hstate⟩ := hpermitted
      exact .inl (h.user_reset hk hnext hx hstack hstate cb)
  | copy f => exact .inl (h.user_copy hk hnext hpermitted)
  | drop f => exact .inl (h.user_drop hk hnext hpermitted)
  | yieldToReady => exact h.user_yield hQ hk hnext (.inl rfl) (hyields rfl .ready)
  | yieldToHold => exact h.user_yield hQ hk hnext (.inr rfl) (hyields rfl .hold)

theorem Proper.swapIn (h : Proper Q s) (hQ : Q .exec) (hpermitted : s.Permitted (.swapIn f))
    (hstep : s.step (.swapIn f) = some s') : Proper Q s' := by
  obtain ⟨hborn, hown, x, hx, hstate⟩ := hpermitted
  obtain ⟨main, hthread⟩ := Option.isSome_iff_exists.1 hborn
  simp only [step] at hstep
  split at hstep
  · next n hk =>
      obtain rfl := Option.some.inj hstep
      by_cases hmain : f = main
      · subst hmain
        obtain ⟨t, ht, hproper⟩ := h.swapIn_main hQ hk hthread hx fun hs => by simp [hs] at hstate
        rw [ht]
        exact hproper
      · have hstack : x.m_stack = true := by
          by_contra hno
          have := h.stackless f x hx (by simpa using hno)
          exact hmain (Option.some.inj (this.symm.trans hthread))
        obtain ⟨t, ht, hproper⟩ := h.swapIn_sub hk hthread hown hx hstack hstate
        rw [ht]
        exact hproper
  · simp at hstep

/-- The end of `MainFunc` after a callback returned. -/
theorem Proper.ret (h : Proper Q s) {captured : List FiberPtr}
    (hown : ∀ g, captured.count g ≤ s.owners g) (hstep : s.step (.ret captured) = some s') :
    (s.KeepsOwner (.ret captured) ∧ Proper Q s') ∨ (¬ s.KeepsOwner (.ret captured) ∧ Freed s') := by
  simp only [step] at hstep
  split at hstep
  · next f cur cb k hk =>
      obtain ⟨-, -, rfl, -⟩ := h.running_callback hk
      obtain rfl := Option.some.inj hstep
      obtain ⟨t, ht, hproper, hbase, howners⟩ := h.drops hk hown
      have hkt : t.control = .running (.callback cur cur cb k) := hbase ▸ hk
      have hsettle : s.settle (s.mainFuncTerm cur cur captured) = s.settle
          ((t.withFibers (t.modify cur fun x => { x with m_cb := none, m_state := .term })).mainFuncLeave
            cur cur []) := by
        simp only [mainFuncTerm, ht, bind, Except.bind]
      rw [hsettle]
      by_cases hpos : captured.count cur < s.owners cur
      · left
        refine ⟨fun f' cur' cb' k' hk' => ?_, ?_⟩
        · rw [hk] at hk'
          injection hk' with hk'
          injection hk' with hf
          rwa [← hf]
        · obtain ⟨u, hu, hu'⟩ := hproper.leave_shared []
            (g := fun x => { x with m_cb := none, m_state := .term }) hkt (fun _ => rfl)
            (fun _ => .inl rfl) (by rw [howners]; omega)
          rw [hu]
          exact hu'
      · right
        refine ⟨fun hkeeps => hpos (hkeeps cur cur cb k hk), ?_⟩
        obtain ⟨u, hu, hu'⟩ := hproper.leave_last []
          (g := fun x => { x with m_cb := none, m_state := .term }) hkt (fun _ => rfl)
          (fun _ => .inl rfl) (by simp) (by rw [howners]; omega)
        rw [hu]
        exact hu'
  · simp at hstep

/-- The end of `MainFunc` after an exception was caught. -/
theorem Proper.throw (h : Proper Q s) {captured : List FiberPtr}
    (hown : ∀ g, captured.count g ≤ s.owners g) (hstep : s.step (.throw captured) = some s') :
    (s.KeepsOwner (.throw captured) ∧ Proper Q s') ∨
      (¬ s.KeepsOwner (.throw captured) ∧ Freed s') := by
  simp only [step] at hstep
  split at hstep
  · next f cur cb k hk =>
      obtain ⟨-, -, rfl, -⟩ := h.running_callback hk
      obtain rfl := Option.some.inj hstep
      simp only [mainFuncExcept]
      by_cases hpos : 0 < s.owners cur
      · left
        refine ⟨fun f' cur' cb' k' hk' => ?_, ?_⟩
        · rw [hk] at hk'
          injection hk' with hk'
          injection hk' with hf
          rwa [← hf]
        · obtain ⟨u, hu, hu'⟩ := h.leave_shared captured
            (g := fun x => { x with m_state := .except }) hk (fun _ => rfl) (fun _ => .inr rfl) hpos
          rw [hu]
          exact hu'
      · right
        refine ⟨fun hkeeps => hpos (hkeeps cur cur cb k hk), ?_⟩
        obtain ⟨u, hu, hu'⟩ := h.leave_last captured
          (g := fun x => { x with m_state := .except }) hk (fun _ => rfl)
          (fun _ => .inr (.inl rfl)) hown (by omega)
        rw [hu]
        exact hu'
  · simp at hstep

/-- What a permitted step makes of a state in which code runs. -/
theorem Proper.step (h : Proper Q s) (hQ : Q .exec) {l : OwnedLabel A} (hpermitted : s.Permitted l)
    (hmain : ∀ state, Q state ∨ s.MainStays l) (hstep : s.step l = some s') :
    (s.KeepsOwner l ∧ (Proper Q s' ∨ Yielded Q s')) ∨ (¬ s.KeepsOwner l ∧ Freed s') := by
  cases l with
  | user op => exact .inl ⟨trivial, h.user hQ hpermitted hmain hstep⟩
  | swapIn f => exact .inl ⟨trivial, .inl (h.swapIn hQ hpermitted hstep)⟩
  | enter =>
      simp only [Owned.step] at hstep
      split at hstep
      · next f hk =>
          obtain rfl := Option.some.inj hstep
          obtain ⟨t, ht, hproper⟩ := h.mainFunc hk
          rw [ht]
          exact .inl ⟨trivial, .inl hproper⟩
      · simp at hstep
  | ret captured => exact (h.ret hpermitted hstep).imp_left fun h => ⟨h.1, .inl h.2⟩
  | throw captured => exact (h.throw hpermitted hstep).imp_left fun h => ⟨h.1, .inl h.2⟩

/-- A fault ends the run. -/
theorem step_fault {e : Fault} (h : s.control = .fault e) (l : OwnedLabel A) : s.step l = none := by
  cases l <;> simp only [Owned.step, h]

/-- Every state of a run: code runs, or one of the two ends has come. -/
def Accounted (Q : FiberState → Prop) (s : Owned A) : Prop := Proper Q s ∨ Yielded Q s ∨ Freed s

theorem Proper.init : Proper Q (init : Owned A) := by
  refine ⟨fun _ => rfl, fun _ _ => rfl, fun f x hx => ?_, fun _ hmain => ?_, fun f x hx => ?_,
    .thread 0 rfl rfl⟩
  · exact absurd hx (by simp [Fibers.fiber, Owned.init, Fibers.init])
  · exact absurd hmain (by simp [Owned.init, Fibers.init])
  · exact absurd hx (by simp [Fibers.fiber, Owned.init, Fibers.init])

/-- Only where code runs does the run go on. -/
theorem Accounted.proper (h : Accounted Q s) {l : OwnedLabel A} (hstep : s.step l = some s') :
    Proper Q s := by
  rcases h with h | ⟨t, n, -, -, -, rfl⟩ | h
  · exact h
  · rw [step_fault rfl l] at hstep
    simp at hstep
  · rw [step_fault h.1 l] at hstep
    simp at hstep

/-- `MainFunc` starts on a fiber that an owner holds. -/
theorem Accounted.running_mainFunc (h : Accounted Q s) (hk : s.control = .running (.mainFunc f)) :
    s.t_fiber = some f ∧ 0 < s.owners f := by
  rcases h with h | ⟨t, n, -, -, -, rfl⟩ | h
  · cases h.executing with
    | thread _ hc => simp [hk] at hc
    | callback _ _ _ _ hc => simp [hk] at hc
    | entering f' _ _ hc hcur _ _ _ _ _ _ howned =>
        rw [hk] at hc
        injection hc with hc
        injection hc with hf
        subst hf
        exact ⟨hcur, howned⟩
  · simp [withFibers] at hk
  · simp [h.1] at hk

theorem Accounted.step (h : Accounted Q s) (hQ : Q .exec) {l : OwnedLabel A}
    (hpermitted : s.Permitted l) (hmain : ∀ state, Q state ∨ s.MainStays l)
    (hstep : s.step l = some s') : Accounted Q s' := by
  rcases (h.proper hstep).step hQ hpermitted hmain hstep with ⟨-, h'⟩ | ⟨-, h'⟩
  · exact h'.imp_right .inl
  · exact .inr (.inr h')

theorem Accounted.counted (h : Accounted Q s) : Counted s := by
  rcases h with h | ⟨t, n, ht, hk, -, rfl⟩ | h
  · exact h.counted
  · refine ⟨ht.count, ht.counted.own, ht.unborn, ht.stackless, fun f x hx hstack hlocals _ => ?_⟩
    exact ht.counted.rest f x hx hstack hlocals (by simp [hk])
  · exact h.2.2

/-- Every state of a run in which code uses only pointers it has is accounted for. -/
theorem Accounted.run {labels : List (OwnedLabel A)}
    (hpermitted : Along Owned.step Permitted Owned.init labels)
    (hrun : exec Owned.step Owned.init labels = some s) : Accounted (fun _ => True) s :=
  exec_history (fun _ s => Accounted (fun _ => True) s)
    (fun _ _ _ _ h hl hstep => h.step trivial hl (fun _ => .inl trivial) hstep) []
    (.inl Proper.init) hpermitted hrun

/-! ## The destructor -/

/-- **Nobody destroys a started callback.** Whenever and wherever owners drop their pointers, the
assertion of `~Fiber` about a sub-fiber never fails: what is destroyed has not started or has
ended, since a fiber that has started and not ended is held by the frames on its own stack, and
between `swapIn` and `MainFunc` by an owner. -/
theorem destroyed_at_rest {labels : List (OwnedLabel A)}
    (hpermitted : Along Owned.step Permitted Owned.init labels)
    (hrun : exec Owned.step Owned.init labels = some s) :
    s.control ≠ .fault (.assertion
      "m_state == STATE_TERM || m_state == STATE_EXCEPT || m_state == STATE_INIT") ∧
    ∀ f x, s.fiber f = some x → x.m_stack = true →
      (s.use_count f = 0 → x.m_state.AtRest) ∧
      (x.m_state = .exec ∨ x.m_state = .ready ∨ x.m_state = .hold →
        f ∈ s.locals f ∨ s.control = .running (.mainFunc f) ∧ 0 < s.owners f) := by
  have h := Accounted.run hpermitted hrun
  have hcounted := h.counted
  refine ⟨fun hfault => ?_, fun f x hx hstack => ⟨fun hgone => ?_, fun hstate => ?_⟩⟩
  · -- neither of the two ends of a run is this assertion
    rcases h with h | ⟨t, n, -, -, -, rfl⟩ | h
    · obtain ⟨k, hk⟩ := h.running
      rw [hk] at hfault
      simp at hfault
    · simp [withFibers] at hfault
    · rw [h.1] at hfault
      simp at hfault
  · by_cases hcontrol : s.control = .running (.mainFunc f)
    · have howned := (h.running_mainFunc hcontrol).2
      have hcount := hcounted.count f
      omega
    · exact hcounted.atRest hx hstack hgone hcontrol
  · by_cases hcontrol : s.control = .running (.mainFunc f)
    · -- `MainFunc` has not taken its pointer yet
      exact .inr ⟨hcontrol, (h.running_mainFunc hcontrol).2⟩
    · refine .inl ?_
      cases hlocals : s.locals f with
      | nil =>
          have hrest := hcounted.rest f x hx hstack hlocals hcontrol
          rcases hstate with hs | hs | hs <;> simp [FiberState.AtRest, hs] at hrest
      | cons p ps =>
          have hp : p = f := hcounted.own f p (by simp [hlocals])
          simp [hp]

end

/-- A callback copies its pointer and yields; the main fiber drops its own while the callback is
    suspended, and the copy after it has ended. -/
def letGo : List (OwnedLabel Unit) :=
  [.user .getThis, .user (.construct 1 fun _ => .ret), .swapIn 1, .enter, .user (.copy 1),
    .user .yieldToReady, .user (.drop 1), .swapIn 1, .ret [], .user (.drop 1)]

theorem letGo_permitted : Along Owned.step Permitted Owned.init letGo := by
  iterate 2 refine (along_cons_of_step rfl).2 ⟨trivial, ?_⟩
  refine (along_cons_of_step rfl).2 ⟨⟨rfl, by decide, _, rfl, Or.inl rfl⟩, ?_⟩
  refine (along_cons_of_step rfl).2 ⟨trivial, ?_⟩
  refine (along_cons_of_step rfl).2 ⟨Nat.zero_lt_one, ?_⟩
  refine (along_cons_of_step rfl).2 ⟨trivial, ?_⟩
  refine (along_cons_of_step rfl).2 ⟨Nat.zero_lt_two, ?_⟩
  refine (along_cons_of_step rfl).2 ⟨⟨rfl, by decide, _, rfl, Or.inr (Or.inl rfl)⟩, ?_⟩
  refine (along_cons_of_step rfl).2 ⟨fun _ => Nat.zero_le _, ?_⟩
  exact (along_cons_of_step rfl).2 ⟨Nat.zero_lt_one, trivial⟩

theorem destroyed_at_rest_sample :
    ∃ s x, exec Owned.step Owned.init letGo = some s ∧ s.fiber 1 = some x ∧ s.use_count 1 = 0 ∧
      x.m_state.AtRest :=
  ⟨_, _, rfl, rfl, rfl, ((destroyed_at_rest letGo_permitted rfl).2 1 _ rfl rfl).1 rfl⟩

section
variable {Q : FiberState → Prop} {s s' : Owned A} {f : FiberPtr}

/-! ## The state of the executing fiber -/

/-- The fiber whose code runs is in state `EXEC`, no yield found it in another, and the end of the
    thread would find the main fiber in it. -/
def RunsInExec (s : Owned A) : Prop :=
  (∀ k k' f, s.control = .running k → k.next = some k' → s.t_fiber = some f →
    ∃ x, s.fiber f = some x ∧ x.m_state = .exec) ∧
  s.control ≠ .fault (.assertion "cur->m_state == STATE_EXEC") ∧
  ∀ n, s.control = .running (.main n) → ∃ s', s.exitThread = .ok s'

/-- The end of the thread destroys a main fiber in state `EXEC`. -/
theorem Proper.exitThread (h : Proper (· = .exec) s) {n : ℕ} (hk : s.control = .running (.main n)) :
    ∃ s', s.exitThread = .ok s' := by
  cases hthread : s.t_threadFiber with
  | none => exact ⟨s, by simp only [Owned.exitThread, hthread]⟩
  | some main =>
      obtain ⟨m, hm, hm'⟩ := h.main main hthread
      have halive := h.alive (h.current_main hk hthread)
      simp only [Owned.exitThread, hthread]
      set t := s.withFibers { s.toFibers with t_threadFiber := none } with ht
      by_cases hlast : s.use_count main = 1
      · -- the thread holds the last pointer, so `~Fiber` looks at the state
        have hm1 : (t.withCount main 0).fiber main = some m := hm
        have hlast' : t.use_count main = 1 := hlast
        simp only [release, hlast', destruct, Fibers.deref_some hm1, hm'.stack, hm'.cb,
          Fibers.assertMacro_ok hm'.state, bind, Except.bind, pure, Except.pure, Option.isNone_none,
          Fibers.assertMacro_ok, Bool.false_eq_true, if_false]
        exact ⟨_, rfl⟩
      · exact ⟨_, release_shared (show 1 < s.use_count main by omega)⟩

theorem Proper.runsInExec (h : Proper (· = .exec) s) : s.RunsInExec := by
  refine ⟨fun k k' f hk hnext hcur => ?_, ?_, fun n hk => h.exitThread hk⟩
  · rcases h.user_code hk hnext with ⟨n, rfl, -⟩ | ⟨g, cb, n, rfl, -⟩
    · obtain ⟨x, hx⟩ := h.exists_fiber (h.alive hcur)
      cases hthread : s.t_threadFiber with
      | none =>
          cases h.executing with
          | thread _ _ hsame => simp [hsame, hthread] at hcur
          | entering _ _ _ hc => simp [hk] at hc
          | callback _ _ _ _ hc => simp [hk] at hc
      | some main =>
          obtain ⟨m, hm, hm'⟩ := h.main main hthread
          obtain rfl := Option.some.inj (hcur.symm.trans (h.current_main hk hthread))
          exact ⟨m, hm, hm'.state⟩
    · obtain ⟨x, main, -, hcur', -, hx, -, hexec, -⟩ := h.running_callback hk
      obtain rfl := Option.some.inj (hcur'.symm.trans hcur)
      exact ⟨x, hx, hexec⟩
  · obtain ⟨k, hk⟩ := h.running
    rw [hk]
    simp

theorem Accounted.runsInExec (h : Accounted (· = .exec) s) : s.RunsInExec := by
  rcases h with h | ⟨t, n, -, -, ⟨state, hstate, hne⟩, -⟩ | h
  · exact h.runsInExec
  · exact absurd hstate hne
  · exact ⟨by simp [h.1], by simp [h.1], by simp [h.1]⟩

/-- A yield of the main fiber comes back with the state it set. -/
theorem Proper.not_runsInExec (h : Proper (· = .exec) s) {l : OwnedLabel A}
    (hyields : ¬ s.MainStays l) (hstep : s.step l = some s') : ¬ s'.RunsInExec := by
  cases l with
  | user op =>
      obtain ⟨n, hk, hop⟩ : ∃ n, s.control = .running (.main n) ∧ op.yields = true := by
        by_contra hno
        refine hyields fun n hk => ?_
        by_contra hop
        exact hno ⟨n, hk, by simpa using hop⟩
      have h' : Proper (fun _ => True) s := h.mono fun _ _ => trivial
      -- the main fiber is back at once, or an earlier yield has left it in the wrong state
      have key : ∀ state, (state = .ready ∨ state = .hold) →
          ¬ (s.settle (s.yieldTo state (.main (n + 1)))).RunsInExec := by
        intro state hstate hruns
        rcases h'.yield_main trivial hk state trivial with
          ⟨t, f, m, ht, -, hcontrol, hcur, hm, hms⟩ | ⟨-, herror⟩
        · rw [ht] at hruns
          obtain ⟨x, hx, hexec⟩ := hruns.1 _ _ f hcontrol rfl hcur
          obtain rfl := Option.some.inj (hm.symm.trans hx)
          rw [hms] at hexec
          rcases hstate with hs | hs <;> simp [hs] at hexec
        · rw [herror] at hruns
          exact hruns.2.1 rfl
      obtain ⟨k, k', hk', hnext, -, rfl⟩ := step_user hstep
      obtain rfl : Cont.main n = k := by simpa [hk] using hk'
      obtain rfl : Cont.main (n + 1) = k' := Option.some.inj hnext
      cases op with
      | yieldToReady => exact key .ready (.inl rfl)
      | yieldToHold => exact key .hold (.inr rfl)
      | _ => simp [UserOp.yields] at hop
  | _ => exact absurd trivial hyields

/-- **The state of the executing fiber.** In a run in which code uses only pointers it has and swaps
in only what waits or is suspended, the fiber whose code runs is in state `EXEC` in every state, and
no assertion about that fails, at a yield or at the end of the thread, exactly when the main fiber
never yields. -/
theorem runsInExec_iff (labels : List (OwnedLabel A)) {s : Owned A}
    (hpermitted : Along Owned.step Permitted Owned.init labels)
    (hrun : exec Owned.step Owned.init labels = some s) :
    (∀ before u, before <+: labels → exec Owned.step Owned.init before = some u → u.RunsInExec) ↔
      Along Owned.step MainStays Owned.init labels :=
  forall_reached_iff_along (fun _ s => Accounted (· = .exec) s) (fun _ s => s.RunsInExec)
    (fun _ _ h => h.runsInExec)
    (fun _ _ _ _ h hl hstays hstep => h.step rfl hl (fun _ => .inr hstays) hstep)
    (fun _ _ _ _ h _ hyields hstep => (h.proper hstep).not_runsInExec hyields hstep)
    [] (.inl Proper.init) hpermitted hrun

end

theorem runsInExec_iff_sample :
    ∃ s, exec Owned.step Owned.init letGo = some s ∧ s.RunsInExec := by
  have hstays : Along Owned.step MainStays Owned.init letGo := by
    unfold letGo
    iterate 2 refine (along_cons_of_step rfl).2 ⟨fun _ _ => rfl, ?_⟩
    iterate 2 refine (along_cons_of_step rfl).2 ⟨trivial, ?_⟩
    refine (along_cons_of_step rfl).2 ⟨fun _ _ => rfl, ?_⟩
    refine (along_cons_of_step rfl).2 ⟨nofun, ?_⟩
    refine (along_cons_of_step rfl).2 ⟨fun _ _ => rfl, ?_⟩
    iterate 2 refine (along_cons_of_step rfl).2 ⟨trivial, ?_⟩
    exact (along_cons_of_step rfl).2 ⟨fun _ _ => rfl, trivial⟩
  have hall := (runsInExec_iff letGo letGo_permitted rfl).2 hstays
  exact ⟨_, rfl, hall letGo _ (List.prefix_refl _) rfl⟩

/-- The main fiber yields twice, and the assertion of the second yield fails. -/
theorem not_runsInExec :
    ¬ ∀ (labels : List (OwnedLabel Unit)) (s : Owned Unit),
      Along Owned.step Permitted Owned.init labels → exec Owned.step Owned.init labels = some s →
        s.RunsInExec := by
  intro h
  refine (h [.user .getThis, .user .yieldToReady, .user .yieldToHold] _ ?_ rfl).2.1 rfl
  exact ⟨trivial, fun _ _ => ⟨trivial, fun _ _ => ⟨trivial, fun _ _ => trivial⟩⟩⟩

/-! ## The life of the executing fiber -/

section
variable {Q : FiberState → Prop} {s s' : Owned A} {f : FiberPtr}

/-- The current fiber is not destroyed. -/
def Alive (s : Owned A) : Prop := ∀ f, s.t_fiber = some f → 0 < s.use_count f

theorem alive_of_not_freed (h : Proper Q s ∨ Yielded Q s) : s.Alive := by
  rcases h with h | ⟨t, n, ht, -, -, rfl⟩
  · exact fun f hcur => h.alive hcur
  · exact fun f hcur => ht.alive hcur

theorem Freed.not_alive (h : Freed s) : ¬ s.Alive := by
  obtain ⟨-, ⟨f, hcur, hgone⟩, -⟩ := h
  intro halive
  have := halive f hcur
  omega

/-- **The life of the executing fiber.** In a run in which code uses only pointers it has, the
current fiber is alive in every state, up to and including the last `swapOut` of `MainFunc`, exactly
when every callback that ends leaves an owner of its fiber behind. -/
theorem alive_iff (labels : List (OwnedLabel A)) {s : Owned A}
    (hpermitted : Along Owned.step Permitted Owned.init labels)
    (hrun : exec Owned.step Owned.init labels = some s) :
    (∀ before u, before <+: labels → exec Owned.step Owned.init before = some u → u.Alive) ↔
      Along Owned.step KeepsOwner Owned.init labels := by
  refine forall_reached_iff_along (fun _ s => Accounted (fun _ => True) s ∧ s.Alive)
    (fun _ s => s.Alive) (fun _ _ h => h.2) (fun _ s l s' h hl hkeeps hstep => ?_)
    (fun _ s l s' h hl hkeeps hstep => ?_) [] ⟨.inl Proper.init, fun f hcur => ?_⟩ hpermitted hrun
  · rcases (h.1.proper hstep).step trivial hl (fun _ => .inl trivial) hstep with ⟨-, h'⟩ | ⟨hno, -⟩
    · exact ⟨h'.imp_right .inl, alive_of_not_freed h'⟩
    · exact absurd hkeeps hno
  · rcases (h.1.proper hstep).step trivial hl (fun _ => .inl trivial) hstep with ⟨hyes, -⟩ | ⟨-, h'⟩
    · exact absurd hyes hkeeps
    · exact h'.not_alive
  · simp [Owned.init, Fibers.init] at hcur

end

theorem alive_iff_sample : ∃ s, exec Owned.step Owned.init letGo = some s ∧ s.Alive := by
  have hkeeps : Along Owned.step KeepsOwner Owned.init letGo := by
    unfold letGo
    iterate 8 refine (along_cons_of_step rfl).2 ⟨trivial, ?_⟩
    refine (along_cons_of_step rfl).2 ⟨fun f cur cb k hk => ?_, ?_⟩
    · injection hk with hk
      injection hk with hf
      rw [← hf]
      decide
    · exact (along_cons_of_step rfl).2 ⟨trivial, trivial⟩
  have hall := (alive_iff letGo letGo_permitted rfl).2 hkeeps
  exact ⟨_, rfl, hall letGo _ (List.prefix_refl _) rfl⟩

/-- The running callback drops the only owner of its fiber and returns. -/
theorem not_alive :
    ¬ ∀ (labels : List (OwnedLabel Unit)) (s : Owned Unit),
      Along Owned.step Permitted Owned.init labels → exec Owned.step Owned.init labels = some s →
        s.Alive := by
  intro h
  refine absurd (h [.user .getThis, .user (.construct 1 fun _ => .ret), .swapIn 1, .enter,
    .user (.drop 1), .ret []] _ ?_ rfl 1 rfl) (by decide)
  iterate 2 refine (along_cons_of_step rfl).2 ⟨trivial, ?_⟩
  refine (along_cons_of_step rfl).2 ⟨⟨rfl, by decide, _, rfl, Or.inl rfl⟩, ?_⟩
  refine (along_cons_of_step rfl).2 ⟨trivial, ?_⟩
  refine (along_cons_of_step rfl).2 ⟨Nat.zero_lt_one, ?_⟩
  exact (along_cons_of_step rfl).2 ⟨fun _ => Nat.zero_le _, trivial⟩

end Owned

end Ipmsg
