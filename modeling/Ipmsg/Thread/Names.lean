import Ipmsg.Thread.Handshake

set_option autoImplicit false

/-! # The names of threads

A thread has its name in two places: in the `Thread` object that started it, and in a thread-local
string, which the logger prints. -/

namespace Ipmsg

namespace Process

/-- A callback starts only in a thread whose object is there and has the name `UNKNOW`, and no
    object is destroyed while the callback of its thread runs. -/
def Nameless (s : Process) : ThreadStep → Prop
  | .call u => ∃ o, s.objects u = some o ∧ o.m_name = "UNKNOW"
  | .destroy _ p => ∀ x, s.pthreads p = some x → x.stage ≠ .callback
  | _ => True

/-! ## The invariant -/

/-- The variables of thread `u`: `run` sets the pointer, and nothing sets the name before the
    callback. -/
structure Started (u : ℕ) (x : Pthread) : Prop where
  this : x.t_thread = if x.stage = .main ∨ x.stage = .created then none else some u
  name : x.stage = .created ∨ x.stage = .entered ∨ x.stage = .notified → x.t_thread_name = "UNKNOW"

/-- The object of thread `u` is there and has the name of the thread. -/
def SameName (s : Process) (u : ℕ) (x : Pthread) : Prop :=
  ∃ o, s.objects u = some o ∧ o.m_name = x.t_thread_name

structure Inv (s : Process) : Prop where
  fresh : ∀ u, s.next ≤ u → s.pthreads u = none
  started : ∀ u x, s.pthreads u = some x → Started u x
  named : ∀ u x, s.pthreads u = some x → x.stage = .callback → s.SameName u x

section
variable {s s' : Process} {t u p : ℕ} {x x' : Pthread} {o o' : Thread}

namespace Inv

theorem lt_next (h : s.Inv) (hu : s.pthreads u = some x) : u < s.next := by
  by_contra hle
  rw [h.fresh u (Nat.not_lt.1 hle)] at hu
  exact absurd hu (by simp)

theorem init : Process.init.Inv where
  fresh u hu := by
    have hne : u ≠ 0 := Nat.ne_of_gt hu
    simp [Process.init, hne]
  started u x hx := by
    by_cases hu : u = 0
    · subst hu
      obtain rfl : ({ stage := .main } : Pthread) = x := by simpa [Process.init] using hx
      exact ⟨rfl, fun h => absurd h (by simp)⟩
    · exact absurd hx (by simp [Process.init, hu])
  named u x hx hstage := by
    by_cases hu : u = 0
    · subst hu
      obtain rfl : ({ stage := .main } : Pthread) = x := by simpa [Process.init] using hx
      exact absurd hstage (by simp)
    · exact absurd hx (by simp [Process.init, hu])

/-- One thread moves. -/
theorem setPthread (h : s.Inv) (hu : s.pthreads u = some x) (hx : Started u x')
    (hname : x'.stage = .callback → s.SameName u x') : (s.setPthread u x').Inv where
  fresh v hv := by
    have hne : v ≠ u := fun heq => Nat.not_lt.2 (heq ▸ hv) (h.lt_next hu)
    exact (Function.update_of_ne hne _ _).trans (h.fresh v hv)
  started v y hy := by
    by_cases hv : v = u
    · subst hv
      obtain rfl : x' = y := by simpa using hy
      exact hx
    · exact h.started v y (by simpa [hv] using hy)
  named v y hy := by
    by_cases hv : v = u
    · subst hv
      obtain rfl : x' = y := by simpa using hy
      exact hname
    · exact h.named v y (by simpa [hv] using hy)

/-- An object changes, but for its name. -/
theorem setObject (h : s.Inv) (ho : s.objects p = some o) (hname : o'.m_name = o.m_name) :
    (s.setObject p (some o')).Inv where
  fresh := h.fresh
  started := h.started
  named v y hy hstage := by
    obtain ⟨o₁, ho₁, hname₁⟩ := h.named v y hy hstage
    by_cases hv : v = p
    · subst hv
      obtain rfl : o = o₁ := Option.some.inj (ho.symm.trans ho₁)
      exact ⟨o', by simp, hname.trans hname₁⟩
    · exact ⟨o₁, by simpa [hv] using ho₁, hname₁⟩

/-- A new object and its thread. -/
theorem born (h : s.Inv) (o : Thread) :
    Inv { (s.setObject s.next (some o)).setPthread s.next { stage := .created } with
      next := s.next + 1 } where
  fresh v hv := by
    have hne : v ≠ s.next := Nat.ne_of_gt hv
    exact (Function.update_of_ne hne _ _).trans (h.fresh v (Nat.le_of_succ_le hv))
  started v y hy := by
    by_cases hv : v = s.next
    · subst hv
      obtain rfl : ({ stage := .created } : Pthread) = y := by
        simpa using hy
      exact ⟨rfl, fun _ => rfl⟩
    · exact h.started v y (by simpa [hv] using hy)
  named v y hy hstage := by
    by_cases hv : v = s.next
    · subst hv
      obtain rfl : ({ stage := .created } : Pthread) = y := by
        simpa using hy
      exact absurd hstage (by simp)
    · obtain ⟨o', ho', hname⟩ := h.named v y (by simpa [hv] using hy) hstage
      exact ⟨o', by simpa [hv] using ho', hname⟩

/-- A thread and its object get a new name together. -/
theorem rename (h : s.Inv) (ht : s.pthreads t = some x) (ho : s.objects t = some o)
    (hstage : x.stage = .callback) (name : String) :
    ((s.setPthread t { x with t_thread_name := name }).setObject t
      (some { o with m_name := name })).Inv where
  fresh v hv := by
    have hne : v ≠ t := fun heq => Nat.not_lt.2 (heq ▸ hv) (h.lt_next ht)
    exact (Function.update_of_ne hne _ _).trans (h.fresh v hv)
  started v y hy := by
    by_cases hv : v = t
    · subst hv
      obtain rfl : { x with t_thread_name := name } = y := by
        simpa using hy
      exact ⟨(h.started v x ht).this, fun hearly => absurd hearly (by simp [hstage])⟩
    · exact h.started v y (by simpa [hv] using hy)
  named v y hy hy' := by
    by_cases hv : v = t
    · subst hv
      obtain rfl : { x with t_thread_name := name } = y := by
        simpa using hy
      exact ⟨{ o with m_name := name }, by simp, rfl⟩
    · obtain ⟨o', ho', hname⟩ :=
        h.named v y (by simpa [hv] using hy) hy'
      exact ⟨o', by simpa [hv] using ho', hname⟩

/-! ### The functions -/

theorem construct (h : s.Inv) {name : String} {rt : ℕ} (hs : s.construct t name rt = some s') :
    s'.Inv := by
  obtain ⟨x, hx, rfl⟩ := Option.map_eq_some_iff.1 hs
  obtain ⟨hx, -, -⟩ := user_eq_some.1 hx
  by_cases hrt : rt ≠ 0
  · rwa [if_pos hrt]
  · rw [if_neg hrt]
    have hstarted := h.started t x hx
    have hwaits : (s.setPthread t { x with waits := some s.next }).Inv :=
      h.setPthread hx ⟨hstarted.this, hstarted.name⟩ (h.named t x hx)
    exact hwaits.born _

theorem wake (h : s.Inv) (hs : s.wake t = some s') : s'.Inv := by
  obtain ⟨x, hx, hs⟩ := Option.bind_eq_some_iff.1 hs
  obtain ⟨p, -, hs⟩ := Option.bind_eq_some_iff.1 hs
  obtain ⟨o, ho, hs⟩ := Option.bind_eq_some_iff.1 hs
  split_ifs at hs
  obtain rfl := Option.some.inj hs
  have hstarted := h.started t x hx
  have hwaits : (s.setPthread t { x with waits := none }).Inv :=
    h.setPthread hx ⟨hstarted.this, hstarted.name⟩ (h.named t x hx)
  exact hwaits.setObject ho rfl

/-- A constructor throws only while its thread has not notified it, long before the callback. -/
theorem interrupt (h : s.Inv) {W : Prop} (hshaken : s.Shaken W) (hs : s.interrupt t = some s') :
    s'.Inv := by
  obtain ⟨x, hx, hs⟩ := Option.bind_eq_some_iff.1 hs
  obtain ⟨p, hp, hs⟩ := Option.bind_eq_some_iff.1 hs
  obtain ⟨o, ho, hs⟩ := Option.bind_eq_some_iff.1 hs
  split_ifs at hs with hsem
  obtain rfl := Option.some.inj hs
  have hstarted := h.started t x hx
  have hwaits : (s.setPthread t { x with waits := none }).Inv :=
    h.setPthread hx ⟨hstarted.this, hstarted.name⟩ (h.named t x hx)
  refine ⟨hwaits.fresh, hwaits.started, fun v y hy hstage => ?_⟩
  obtain ⟨o', ho', hname⟩ := hwaits.named v y hy hstage
  have hne : v ≠ p := by
    rintro rfl
    obtain ⟨x₀, hx₀, hearly⟩ := hshaken.early_of_waiting hx hp ho hsem
    have hsame : y.stage = x₀.stage := by
      by_cases hvt : v = t
      · subst hvt
        obtain rfl : x = x₀ := Option.some.inj (hx.symm.trans hx₀)
        obtain rfl : { x with waits := none } = y := by simpa using hy
        rfl
      · obtain rfl : x₀ = y := Option.some.inj (hx₀.symm.trans (by simpa [hvt] using hy))
        rfl
    rw [← hsame, hstage] at hearly
    exact absurd hearly (by simp [ThreadStage.Early])
  exact ⟨o', by simpa [hne] using ho', hname⟩

theorem destroy (h : s.Inv) (hidle : ∀ x, s.pthreads p = some x → x.stage ≠ .callback)
    (hs : s.destroy t p = some s') : s'.Inv := by
  obtain ⟨x, -, hs⟩ := Option.bind_eq_some_iff.1 hs
  obtain ⟨o, -, hs⟩ := Option.bind_eq_some_iff.1 hs
  split_ifs at hs
  obtain rfl := Option.some.inj hs
  refine ⟨h.fresh, h.started, fun v y hy hstage => ?_⟩
  obtain ⟨o', ho', hname⟩ := h.named v y hy hstage
  have hne : v ≠ p := fun heq => hidle y (heq ▸ hy) hstage
  exact ⟨o', by simpa [hne] using ho', hname⟩

theorem enter (h : s.Inv) (hs : s.enter u = some s') : s'.Inv := by
  obtain ⟨x, hx, hs⟩ := Option.bind_eq_some_iff.1 hs
  obtain ⟨o, ho, hs⟩ := Option.bind_eq_some_iff.1 hs
  split_ifs at hs with hstage
  obtain rfl := Option.some.inj hs
  have hname := (h.started u x hx).name (Or.inl hstage)
  have hentered : (s.setPthread u { x with
      stage := .entered
      t_thread := some u
      system_name := ((bytes o.m_name).take 15).takeWhile fun b => b ≠ 0 }).Inv :=
    h.setPthread hx ⟨rfl, fun _ => hname⟩ (by simp)
  exact hentered.setObject ho rfl

theorem notify (h : s.Inv) (hs : s.notify u = some s') : s'.Inv := by
  obtain ⟨x, hx, hs⟩ := Option.bind_eq_some_iff.1 hs
  obtain ⟨o, ho, hs⟩ := Option.bind_eq_some_iff.1 hs
  split_ifs at hs with hstage
  obtain rfl := Option.some.inj hs
  have hthis := (h.started u x hx).this
  have hname := (h.started u x hx).name (Or.inr (Or.inl hstage))
  rw [hstage] at hthis
  have hnotified : (s.setPthread u { x with stage := .notified }).Inv :=
    h.setPthread hx ⟨hthis, fun _ => hname⟩ (by simp)
  exact hnotified.setObject ho rfl

theorem call (h : s.Inv) (hname : ∃ o, s.objects u = some o ∧ o.m_name = "UNKNOW")
    (hs : s.call u = some s') : s'.Inv := by
  obtain ⟨x, hx, hs⟩ := Option.bind_eq_some_iff.1 hs
  split_ifs at hs with hstage
  obtain rfl := Option.some.inj hs
  have hthis := (h.started u x hx).this
  have hlocal := (h.started u x hx).name (Or.inr (Or.inr hstage))
  rw [hstage] at hthis
  refine h.setPthread hx ⟨hthis, fun _ => hlocal⟩ fun _ => ?_
  obtain ⟨o, ho, hunknow⟩ := hname
  exact ⟨o, ho, hunknow.trans hlocal.symm⟩

theorem setName (h : s.Inv) {name : String} (hs : s.setName t name = some s') : s'.Inv := by
  obtain ⟨x, hx, hs⟩ := Option.bind_eq_some_iff.1 hs
  obtain ⟨hx, hstage, -⟩ := user_eq_some.1 hx
  have hthis := (h.started t x hx).this
  split at hs
  · next hnone =>
      -- the main thread; `run` sets the pointer in every other
      have hmain : x.stage = .main := hstage.resolve_right fun hcallback => by
        rw [hnone, hcallback, if_neg (by simp)] at hthis
        exact absurd hthis (by simp)
      obtain rfl := Option.some.inj hs
      refine h.setPthread hx ⟨hthis, fun hearly => ?_⟩ fun hcallback => ?_
      · exact absurd hearly (by simp [hmain])
      · exact absurd (hmain.symm.trans hcallback) (by simp)
  · next p hsome =>
      have hcallback : x.stage = .callback := hstage.resolve_left fun hmain => by
        rw [hsome, hmain, if_pos (Or.inl rfl)] at hthis
        exact absurd hthis (by simp)
      rw [hsome, hcallback, if_neg (by simp), Option.some.injEq] at hthis
      subst hthis
      obtain ⟨o, ho, rfl⟩ := Option.map_eq_some_iff.1 hs
      exact h.rename hx ho hcallback name

theorem finish (h : s.Inv) (hs : s.finish u = some s') : s'.Inv := by
  obtain ⟨x, hx, hs⟩ := Option.bind_eq_some_iff.1 hs
  obtain ⟨hx, -, -⟩ := user_eq_some.1 hx
  split_ifs at hs with hstage
  obtain rfl := Option.some.inj hs
  have hthis := (h.started u x hx).this
  rw [hstage] at hthis
  exact h.setPthread hx ⟨hthis, by simp⟩ (by simp)

/-- A step that starts no callback under a name and destroys no object in use. -/
theorem step (h : s.Inv) {W : Prop} (hshaken : s.Shaken W) {a : ThreadStep}
    (hgood : s.Nameless a) (hs : s.step a = some s') : s'.Inv := by
  cases a with
  | construct t name rt => exact h.construct hs
  | wake t => exact h.wake hs
  | interrupt t => exact h.interrupt hshaken hs
  | destroy t p => exact h.destroy hgood hs
  | enter u => exact h.enter hs
  | notify u => exact h.notify hs
  | call u => exact h.call hgood hs
  | setName t name => exact h.setName hs
  | finish u => exact h.finish hs

end Inv

end

/-! ## Runs -/

end Process

end Ipmsg
