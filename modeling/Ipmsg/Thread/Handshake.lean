import Ipmsg.Thread

set_option autoImplicit false

/-! # The start of a thread

The constructor of a `Thread` hands the object to the new thread and waits for its semaphore; `run`
uses the object until it notifies the semaphore, and never after. So the object is complete when the
constructor returns, and the constructor does return. It is there while `run` needs it, unless the
wait is interrupted and the constructor throws. -/

namespace Ipmsg

/-- In `run`, before the `notify()`. -/
def ThreadStage.Early (stage : ThreadStage) : Prop := stage = .created ∨ stage = .entered

/-- No wait for a semaphore is interrupted. -/
def ThreadStep.Uninterrupted : ThreadStep → Prop
  | .interrupt _ => False
  | _ => True

namespace Process

/-! ## The invariant -/

/-- What the object of thread `p` has in it while the thread is at a stage. -/
def Agrees (p : ℕ) (o : Thread) : ThreadStage → Prop
  | .main => False
  | .created => o.m_id = none ∧ o.m_semaphore = 0 ∧ o.constructed = false
  | .entered => o.m_id = some p ∧ o.m_semaphore = 0 ∧ o.constructed = false
  | .notified | .callback | .finished =>
      o.m_id = some p ∧ o.m_semaphore = if o.constructed then 0 else 1

/-- `W` is that no wait has been interrupted. -/
structure Shaken (s : Process) (W : Prop) : Prop where
  fresh : ∀ u, s.next ≤ u → s.pthreads u = none ∧ s.objects u = none
  agrees : ∀ p o, s.objects p = some o → ∃ x, s.pthreads p = some x ∧ Agrees p o x.stage
  /-- `run` has its object as long as it needs it. -/
  alive : W → ∀ u x, s.pthreads u = some x → x.stage.Early → ∃ o, s.objects u = some o
  waiting : ∀ t x p, s.pthreads t = some x → x.waits = some p →
    ∃ o, s.objects p = some o ∧ o.constructed = false
  alone : ∀ t x t' x' p, s.pthreads t = some x → x.waits = some p →
    s.pthreads t' = some x' → x'.waits = some p → t = t'

/-- The constructor of object `p` has returned. -/
def Returned (s : Process) (p : ℕ) : Prop := ∃ o, s.objects p = some o ∧ o.constructed = true

variable {s s' : Process} {t u p : ℕ} {x x' : Pthread} {o o' : Thread} {W : Prop}

namespace Shaken

theorem mono {W' : Prop} (h : s.Shaken W) (himp : W' → W) : s.Shaken W' :=
  ⟨h.fresh, h.agrees, fun hW => h.alive (himp hW), h.waiting, h.alone⟩

theorem init (W : Prop) : Process.init.Shaken W := by
  have hmain : ∀ u x, Process.init.pthreads u = some x → u = 0 ∧ x = { stage := .main } := by
    intro u x hx
    by_cases hu : u = 0
    · subst hu
      exact ⟨rfl, (Option.some.inj hx).symm⟩
    · exact absurd hx (by simp [Process.init, hu])
  refine ⟨fun u hu => ⟨?_, rfl⟩, fun p o ho => absurd ho.symm (Option.some_ne_none o),
    fun _ u x hx hearly => ?_, fun t x p hx hwaits => ?_, fun t x t' x' p hx _ hx' _ => ?_⟩
  · have hne : u ≠ 0 := Nat.ne_of_gt hu
    simp [Process.init, hne]
  · obtain ⟨-, rfl⟩ := hmain u x hx
    exact absurd hearly (by simp [ThreadStage.Early])
  · obtain ⟨-, rfl⟩ := hmain t x hx
    exact absurd hwaits.symm (Option.some_ne_none p)
  · exact (hmain t x hx).1.trans (hmain t' x' hx').1.symm

/-- A thread moves on and waits for the same as before, and its object follows. -/
theorem move (h : s.Shaken W) (hu : s.pthreads u = some x) (hwaits : x'.waits = x.waits)
    {obj : Option Thread} (hkept : ∀ o, s.objects u = some o → ∃ o', obj = some o' ∧
      Agrees u o' x'.stage ∧ o'.constructed = o.constructed)
    (hnone : s.objects u = none → obj = none ∧ (x'.stage.Early → x.stage.Early)) :
    ((s.setPthread u x').setObject u obj).Shaken W where
  fresh v hv := by
    have hne : v ≠ u := fun heq => by
      rw [heq] at hv
      exact absurd ((h.fresh u hv).1.symm.trans hu) nofun
    simpa [hne] using h.fresh v hv
  agrees q o ho := by
    by_cases hq : q = u
    · subst hq
      rw [setObject_objects, if_pos rfl] at ho
      refine ⟨x', by simp, ?_⟩
      cases hold : s.objects q with
      | none => exact absurd (ho.symm.trans (hnone hold).1) nofun
      | some o₁ =>
          obtain ⟨o', ho', hagrees, -⟩ := hkept o₁ hold
          exact Option.some.inj (ho'.symm.trans ho) ▸ hagrees
    · simpa [hq] using h.agrees q o (by simpa [hq] using ho)
  alive hW v y hy hearly := by
    by_cases hv : v = u
    · subst hv
      obtain rfl : x' = y := by simpa using hy
      cases hold : s.objects v with
      | none =>
          obtain ⟨o₁, ho₁⟩ := h.alive hW v x hu ((hnone hold).2 hearly)
          exact absurd (hold.symm.trans ho₁) nofun
      | some o₁ =>
          obtain ⟨o', ho', -⟩ := hkept o₁ hold
          exact ⟨o', by simpa using ho'⟩
    · simpa [hv] using h.alive hW v y (by simpa [hv] using hy) hearly
  waiting v y q hy hq := by
    obtain ⟨o₁, ho₁, hnot⟩ : ∃ o, s.objects q = some o ∧ o.constructed = false := by
      by_cases hv : v = u
      · subst hv
        obtain rfl : x' = y := by simpa using hy
        exact h.waiting v x q hu (hwaits ▸ hq)
      · exact h.waiting v y q (by simpa [hv] using hy) hq
    by_cases hqu : q = u
    · subst hqu
      obtain ⟨o', ho', -, hsame⟩ := hkept o₁ ho₁
      exact ⟨o', by simpa using ho', hsame.trans hnot⟩
    · exact ⟨o₁, by simpa [hqu] using ho₁, hnot⟩
  alone v y v' y' q hy hq hy' hq' := by
    have hold : ∀ {v y}, ((s.setPthread u x').setObject u obj).pthreads v = some y →
        y.waits = some q → ∃ y₀, s.pthreads v = some y₀ ∧ y₀.waits = some q := by
      intro v y hy hq
      by_cases hv : v = u
      · subst hv
        obtain rfl : x' = y := by simpa using hy
        exact ⟨x, hu, hwaits ▸ hq⟩
      · exact ⟨y, by simpa [hv] using hy, hq⟩
    obtain ⟨y₀, hy₀, hq₀⟩ := hold hy hq
    obtain ⟨y₀', hy₀', hq₀'⟩ := hold hy' hq'
    exact h.alone v y₀ v' y₀' q hy₀ hq₀ hy₀' hq₀'

/-- A thread moves on, and its object stays as it is. -/
theorem setPthread (h : s.Shaken W) (hu : s.pthreads u = some x) (hwaits : x'.waits = x.waits)
    (hagrees : ∀ o, Agrees u o x.stage → Agrees u o x'.stage)
    (hearly : x'.stage.Early → x.stage.Early) : (s.setPthread u x').Shaken W := by
  have hsame : (s.setPthread u x').setObject u (s.objects u) = s.setPthread u x' := by
    rw [setObject, setPthread_objects, Function.update_eq_self]
    rfl
  rw [← hsame]
  refine h.move hu hwaits (fun o ho => ⟨o, ho, ?_, rfl⟩) fun hnone => ⟨hnone, hearly⟩
  obtain ⟨y, hy, hy'⟩ := h.agrees u o ho
  obtain rfl : x = y := Option.some.inj (hu.symm.trans hy)
  exact hagrees o hy'

/-- An object gets another name. -/
theorem rename (h : s.Shaken W) (ho : s.objects p = some o) (name : String) :
    (s.setObject p (some { o with m_name := name })).Shaken W := by
  obtain ⟨x, hx, hagrees⟩ := h.agrees p o ho
  have hsame : s.setPthread p x = s := by
    rw [Process.setPthread, ← hx, Function.update_eq_self]
  have hmoved : ((s.setPthread p x).setObject p (some { o with m_name := name })).Shaken W := by
    refine h.move hx rfl (fun o' ho' => ⟨_, rfl, ?_, ?_⟩) fun hnone =>
      absurd (hnone.symm.trans ho) nofun
    · cases hstage : x.stage <;> rw [hstage] at hagrees <;> exact hagrees
    · rw [Option.some.inj (ho'.symm.trans ho)]
  rwa [hsame] at hmoved

/-- The thread of an object, and what is in the object. -/
theorem thread_of (h : s.Shaken W) (hu : s.pthreads u = some x) (ho : s.objects u = some o) :
    Agrees u o x.stage := by
  obtain ⟨y, hy, hagrees⟩ := h.agrees u o ho
  exact Option.some.inj (hu.symm.trans hy) ▸ hagrees

/-- The constructor is still inside while `run` has not notified. -/
theorem inside (h : s.Shaken W) (hu : s.pthreads u = some x) (ho : s.objects u = some o)
    (hearly : x.stage.Early) : o.constructed = false := by
  have hagrees := h.thread_of hu ho
  rcases hearly with hstage | hstage <;> rw [hstage] at hagrees <;> exact hagrees.2.2

/-- As long as a constructor has nothing to take, its thread has not notified it. -/
theorem early_of_waiting (h : s.Shaken W) (hx : s.pthreads t = some x) (hp : x.waits = some p)
    (ho : s.objects p = some o) (hsem : o.m_semaphore = 0) :
    ∃ x₀, s.pthreads p = some x₀ ∧ x₀.stage.Early := by
  obtain ⟨x₀, hx₀, hagrees⟩ := h.agrees p o ho
  obtain ⟨o', ho', hnot⟩ := h.waiting t x p hx hp
  obtain rfl : o = o' := Option.some.inj (ho.symm.trans ho')
  refine ⟨x₀, hx₀, ?_⟩
  cases hstage : x₀.stage <;> rw [hstage] at hagrees
  · exact hagrees.elim
  · exact Or.inl rfl
  · exact Or.inr rfl
  all_goals
    have hone := hagrees.2
    rw [hnot, hsem] at hone
    exact absurd hone (by decide)

/-! ### The functions -/

/-- A thread that has come to wait for something else, and the other ones. -/
theorem pthread_of_waits {pthreads : ℕ → Option Pthread} (hx : pthreads t = some x)
    {waits : Option ℕ} {v : ℕ} {y : Pthread}
    (hy : (if v = t then some { x with waits } else pthreads v) = some y) :
    ∃ y₀, pthreads v = some y₀ ∧ y₀.stage = y.stage ∧
      (v = t ∧ y.waits = waits ∨ v ≠ t ∧ y.waits = y₀.waits) := by
  split_ifs at hy with hvt
  · obtain rfl := Option.some.inj hy
    exact ⟨x, hvt ▸ hx, rfl, Or.inl ⟨hvt, rfl⟩⟩
  · exact ⟨y, hy, rfl, Or.inr ⟨hvt, rfl⟩⟩

/-- A new object and its thread, and a constructor that waits for it. -/
theorem born (h : s.Shaken W) (ht : s.pthreads t = some x) (m_name : String) :
    Shaken { ((s.setPthread t { x with waits := some s.next }).setObject s.next
        (some { m_name })).setPthread s.next { stage := .created } with next := s.next + 1 } W := by
  have hobject : ∀ {q o}, s.objects q = some o →
      (if q = s.next then some { m_name } else s.objects q) = some o := by
    intro q o ho
    rw [if_neg fun heq => absurd ((h.fresh _ heq.ge).2.symm.trans ho) nofun]
    exact ho
  -- the threads that were there before, and what they wait for
  have hold : ∀ {v y}, v ≠ s.next → (if v = s.next then some { stage := ThreadStage.created } else
      if v = t then some { x with waits := some s.next } else s.pthreads v) = some y →
      ∃ y₀, s.pthreads v = some y₀ ∧ y₀.stage = y.stage ∧
        (v = t ∧ y.waits = some s.next ∨ v ≠ t ∧ y.waits = y₀.waits) := by
    intro v y hv hy
    rw [if_neg hv] at hy
    exact pthread_of_waits ht hy
  constructor <;> simp only [setPthread_pthreads, setObject_pthreads, setPthread_objects,
    setObject_objects]
  · intro v hv
    have hne : v ≠ s.next := Nat.ne_of_gt hv
    obtain ⟨hthread, hobj⟩ := h.fresh v (Nat.le_of_succ_le hv)
    have hvt : v ≠ t := by
      rintro rfl
      exact absurd (hthread.symm.trans ht) nofun
    exact ⟨by rw [if_neg hne, if_neg hvt, hthread], by rw [if_neg hne, hobj]⟩
  · intro q o ho
    split_ifs at ho with hq
    · obtain rfl := Option.some.inj ho
      exact ⟨_, if_pos hq, rfl, rfl, rfl⟩
    · obtain ⟨y, hy, hagrees⟩ := h.agrees q o ho
      rw [if_neg hq]
      by_cases hqt : q = t
      · subst hqt
        obtain rfl : x = y := Option.some.inj (ht.symm.trans hy)
        exact ⟨_, if_pos rfl, hagrees⟩
      · exact ⟨y, by rw [if_neg hqt, hy], hagrees⟩
  · intro hW v y hy hearly
    by_cases hv : v = s.next
    · exact ⟨_, if_pos hv⟩
    · obtain ⟨y₀, hy₀, hstage, -⟩ := hold hv hy
      obtain ⟨o, ho⟩ := h.alive hW v y₀ hy₀ (hstage ▸ hearly)
      exact ⟨o, hobject ho⟩
  · intro v y q hy hq
    by_cases hv : v = s.next
    · rw [if_pos hv, Option.some.injEq] at hy
      rw [← hy] at hq
      exact absurd hq nofun
    · obtain ⟨y₀, hy₀, -, ⟨-, hnew⟩ | ⟨-, hsame⟩⟩ := hold hv hy
      · obtain rfl := Option.some.inj (hnew.symm.trans hq)
        exact ⟨_, if_pos rfl, rfl⟩
      · obtain ⟨o, ho, hnot⟩ := h.waiting v y₀ q hy₀ (hsame ▸ hq)
        exact ⟨o, hobject ho, hnot⟩
  · -- the object is new, so nobody else waits for it
    have hwho : ∀ {v y q}, (if v = s.next then some { stage := ThreadStage.created } else
        if v = t then some { x with waits := some s.next } else s.pthreads v) = some y →
        y.waits = some q → v = t ∧ q = s.next ∨
          q ≠ s.next ∧ ∃ y₀, s.pthreads v = some y₀ ∧ y₀.waits = some q := by
      intro v y q hy hq
      by_cases hv : v = s.next
      · rw [if_pos hv, Option.some.injEq] at hy
        rw [← hy] at hq
        exact absurd hq nofun
      · obtain ⟨y₀, hy₀, -, ⟨hvt, hnew⟩ | ⟨-, hsame⟩⟩ := hold hv hy
        · exact Or.inl ⟨hvt, Option.some.inj (hq.symm.trans hnew)⟩
        · obtain ⟨o, ho, -⟩ := h.waiting v y₀ q hy₀ (hsame ▸ hq)
          exact Or.inr ⟨fun heq => absurd ((h.fresh _ heq.ge).2.symm.trans ho) nofun,
            y₀, hy₀, hsame ▸ hq⟩
    intro v y v' y' q hy hq hy' hq'
    rcases hwho hy hq with ⟨rfl, hnew⟩ | ⟨hne, y₀, hy₀, hq₀⟩
    · rcases hwho hy' hq' with ⟨rfl, -⟩ | ⟨hne, -⟩
      · rfl
      · exact absurd hnew hne
    · rcases hwho hy' hq' with ⟨-, hnew⟩ | ⟨-, y₁, hy₁, hq₁⟩
      · exact absurd hnew hne
      · exact h.alone v y₀ v' y₁ q hy₀ hq₀ hy₁ hq₁

theorem construct (h : s.Shaken W) {name : String} {rt : ℕ}
    (hs : s.construct t name rt = some s') : s'.Shaken W := by
  obtain ⟨x, hx, rfl⟩ := Option.map_eq_some_iff.1 hs
  obtain ⟨hx, -, -⟩ := user_eq_some.1 hx
  by_cases hrt : rt ≠ 0
  · rwa [if_pos hrt]
  · rw [if_neg hrt]
    exact h.born hx _

/-- A constructor is done with its wait. -/
theorem leave (h : s.Shaken W) (hx : s.pthreads t = some x) (hp : x.waits = some p)
    {obj : Option Thread} (hobj : ∀ o', obj = some o' → ∃ x₀, s.pthreads p = some x₀ ∧
      Agrees p o' x₀.stage) (halive : W → ∀ x₀, s.pthreads p = some x₀ → x₀.stage.Early →
      ∃ o', obj = some o') :
    ((s.setPthread t { x with waits := none }).setObject p obj).Shaken W := by
  obtain ⟨o, ho, -⟩ := h.waiting t x p hx hp
  have hthread : ∀ {v y}, s.pthreads v = some y →
      ∃ y', (if v = t then some { x with waits := none } else s.pthreads v) = some y' ∧
        y'.stage = y.stage := by
    intro v y hy
    by_cases hvt : v = t
    · subst hvt
      obtain rfl : x = y := Option.some.inj (hx.symm.trans hy)
      exact ⟨_, if_pos rfl, rfl⟩
    · exact ⟨y, by rw [if_neg hvt, hy], rfl⟩
  constructor <;> simp only [setObject_pthreads, setPthread_pthreads, setPthread_objects,
    setObject_objects]
  · intro v hv
    obtain ⟨hnone, hnoobj⟩ := h.fresh v hv
    have hvt : v ≠ t := by
      rintro rfl
      exact absurd (hnone.symm.trans hx) nofun
    have hvp : v ≠ p := by
      rintro rfl
      exact absurd (hnoobj.symm.trans ho) nofun
    exact ⟨by rw [if_neg hvt, hnone], by rw [if_neg hvp, hnoobj]⟩
  · intro q o' ho'
    split_ifs at ho' with hq
    · obtain ⟨x₀, hx₀, hagrees⟩ := hobj o' ho'
      obtain ⟨y', hy', hstage⟩ := hthread hx₀
      exact ⟨y', hq ▸ hy', by rw [hq, hstage]; exact hagrees⟩
    · obtain ⟨y, hy, hy₀⟩ := h.agrees q o' ho'
      obtain ⟨y', hy', hstage⟩ := hthread hy
      exact ⟨y', hy', hstage ▸ hy₀⟩
  · intro hW v y hy hearly
    obtain ⟨y₀, hy₀, hstage, -⟩ := pthread_of_waits hx hy
    by_cases hvp : v = p
    · subst hvp
      obtain ⟨o', ho'⟩ := halive hW y₀ hy₀ (hstage ▸ hearly)
      exact ⟨o', (if_pos rfl).trans ho'⟩
    · obtain ⟨o', ho'⟩ := h.alive hW v y₀ hy₀ (hstage ▸ hearly)
      exact ⟨o', by rw [if_neg hvp, ho']⟩
  · intro v y q hy hq
    obtain ⟨y₀, hy₀, -, ⟨-, hnone⟩ | ⟨hvt, hsame⟩⟩ := pthread_of_waits hx hy
    · exact absurd (hnone.symm.trans hq) nofun
    · obtain ⟨o', ho', hnot'⟩ := h.waiting v y₀ q hy₀ (hsame ▸ hq)
      -- only one constructor has waited for `p`
      have hqp : q ≠ p := by
        rintro rfl
        exact hvt (h.alone v y₀ t x q hy₀ (hsame ▸ hq) hx hp)
      exact ⟨o', by rw [if_neg hqp, ho'], hnot'⟩
  · intro v y v' y' q hy hq hy' hq'
    obtain ⟨y₀, hy₀, -, ⟨-, hnone⟩ | ⟨-, hsame⟩⟩ := pthread_of_waits hx hy
    · exact absurd (hnone.symm.trans hq) nofun
    · obtain ⟨y₁, hy₁, -, ⟨-, hnone⟩ | ⟨-, hsame'⟩⟩ := pthread_of_waits hx hy'
      · exact absurd (hnone.symm.trans hq') nofun
      · exact h.alone v y₀ v' y₁ q hy₀ (hsame ▸ hq) hy₁ (hsame' ▸ hq')

theorem wake (h : s.Shaken W) (hs : s.wake t = some s') : s'.Shaken W := by
  obtain ⟨x, hx, hs⟩ := Option.bind_eq_some_iff.1 hs
  obtain ⟨p, hp, hs⟩ := Option.bind_eq_some_iff.1 hs
  obtain ⟨o, ho, hs⟩ := Option.bind_eq_some_iff.1 hs
  split_ifs at hs with hsem
  obtain rfl := Option.some.inj hs
  obtain ⟨x₀, hx₀, hagrees⟩ := h.agrees p o ho
  obtain ⟨o₁, ho₁, hnot⟩ := h.waiting t x p hx hp
  obtain rfl : o = o₁ := Option.some.inj (ho.symm.trans ho₁)
  refine h.leave hx hp (fun o' ho' => ⟨x₀, hx₀, ?_⟩) fun _ _ _ _ => ⟨_, rfl⟩
  obtain rfl := Option.some.inj ho'
  -- the thread has notified
  have hpos : o.m_semaphore ≠ 0 := Nat.pos_iff_ne_zero.1 hsem
  cases hstage : x₀.stage <;> rw [hstage] at hagrees
  · exact hagrees.elim
  · exact absurd hagrees.2.1 hpos
  · exact absurd hagrees.2.1 hpos
  all_goals
    refine ⟨hagrees.1, ?_⟩
    have hone := hagrees.2
    rw [hnot] at hone
    simp [hone]

/-- The new thread is left without its object. -/
theorem interrupt (h : s.Shaken W) (hs : s.interrupt t = some s') : s'.Shaken False := by
  obtain ⟨x, hx, hs⟩ := Option.bind_eq_some_iff.1 hs
  obtain ⟨p, hp, hs⟩ := Option.bind_eq_some_iff.1 hs
  obtain ⟨o, ho, hs⟩ := Option.bind_eq_some_iff.1 hs
  split_ifs at hs with hsem
  obtain rfl := Option.some.inj hs
  exact (h.mono False.elim).leave hx hp nofun False.elim

theorem destroy (h : s.Shaken W) (hs : s.destroy t p = some s') : s'.Shaken W := by
  obtain ⟨x, -, hs⟩ := Option.bind_eq_some_iff.1 hs
  obtain ⟨o, ho, hs⟩ := Option.bind_eq_some_iff.1 hs
  split_ifs at hs with hconstructed
  obtain rfl := Option.some.inj hs
  obtain ⟨x₀, hx₀, hagrees⟩ := h.agrees p o ho
  refine ⟨fun v hv => ⟨(h.fresh v hv).1, ?_⟩, fun q o' ho' => ?_, fun hW v y hy hearly => ?_,
    fun v y q hy hq => ?_, h.alone⟩
  · rw [setObject_objects]
    split_ifs
    · rfl
    · exact (h.fresh v hv).2
  · rw [setObject_objects] at ho'
    split_ifs at ho'
    exact h.agrees q o' ho'
  · -- the thread has notified, since the object is constructed
    have hne : v ≠ p := by
      rintro rfl
      obtain rfl : x₀ = y := Option.some.inj (hx₀.symm.trans hy)
      rcases hearly with hearly | hearly <;> rw [hearly] at hagrees
      · exact absurd (hconstructed.symm.trans hagrees.2.2) nofun
      · exact absurd (hconstructed.symm.trans hagrees.2.2) nofun
    simpa [hne] using h.alive hW v y hy hearly
  · obtain ⟨o', ho', hnot⟩ := h.waiting v y q hy hq
    have hne : q ≠ p := by
      rintro rfl
      obtain rfl : o = o' := Option.some.inj (ho.symm.trans ho')
      exact absurd (hconstructed.symm.trans hnot) nofun
    exact ⟨o', by simpa [hne] using ho', hnot⟩

theorem enter (h : s.Shaken W) (hs : s.enter u = some s') : s'.Shaken W := by
  obtain ⟨x, hx, hs⟩ := Option.bind_eq_some_iff.1 hs
  obtain ⟨o, ho, hs⟩ := Option.bind_eq_some_iff.1 hs
  split_ifs at hs with hstage
  obtain rfl := Option.some.inj hs
  have hagrees := h.thread_of hx ho
  rw [hstage] at hagrees
  refine h.move hx ?_ (fun o' ho' => ⟨_, rfl, ?_, ?_⟩)
    fun hnone => absurd (hnone.symm.trans ho) nofun
  · rfl
  · exact ⟨rfl, hagrees.2⟩
  · rw [Option.some.inj (ho'.symm.trans ho)]

theorem notify (h : s.Shaken W) (hs : s.notify u = some s') : s'.Shaken W := by
  obtain ⟨x, hx, hs⟩ := Option.bind_eq_some_iff.1 hs
  obtain ⟨o, ho, hs⟩ := Option.bind_eq_some_iff.1 hs
  split_ifs at hs with hstage
  obtain rfl := Option.some.inj hs
  have hagrees := h.thread_of hx ho
  rw [hstage] at hagrees
  refine h.move hx ?_ (fun o' ho' => ⟨_, rfl, ?_, ?_⟩)
    fun hnone => absurd (hnone.symm.trans ho) nofun
  · rfl
  · refine ⟨hagrees.1, ?_⟩
    dsimp only
    rw [hagrees.2.2, hagrees.2.1]
    rfl
  · rw [Option.some.inj (ho'.symm.trans ho)]

theorem call (h : s.Shaken W) (hs : s.call u = some s') : s'.Shaken W := by
  obtain ⟨x, hx, hs⟩ := Option.bind_eq_some_iff.1 hs
  split_ifs at hs with hstage
  obtain rfl := Option.some.inj hs
  refine h.setPthread hx rfl (fun o ho => ?_)
    fun hearly => absurd hearly (by simp [ThreadStage.Early])
  rw [hstage] at ho
  exact ho

theorem setName (h : s.Shaken W) {name : String} (hs : s.setName t name = some s') :
    s'.Shaken W := by
  obtain ⟨x, hx, hs⟩ := Option.bind_eq_some_iff.1 hs
  obtain ⟨hx, hstage, hwaits⟩ := user_eq_some.1 hx
  have hnamed : (s.setPthread t { x with t_thread_name := name }).Shaken W :=
    h.setPthread hx rfl (fun _ => id) id
  split at hs
  · exact Option.some.inj hs ▸ hnamed
  · next p _ =>
      obtain ⟨o, ho, rfl⟩ := Option.map_eq_some_iff.1 hs
      exact hnamed.rename ho name

theorem finish (h : s.Shaken W) (hs : s.finish u = some s') : s'.Shaken W := by
  obtain ⟨x, hx, hs⟩ := Option.bind_eq_some_iff.1 hs
  obtain ⟨hx, -, -⟩ := user_eq_some.1 hx
  split_ifs at hs with hstage
  obtain rfl := Option.some.inj hs
  refine h.setPthread hx rfl (fun o ho => ?_)
    fun hearly => absurd hearly (by simp [ThreadStage.Early])
  rw [hstage] at ho
  exact ho

theorem step (h : s.Shaken W) {a : ThreadStep} (hs : s.step a = some s') :
    s'.Shaken (W ∧ a.Uninterrupted) := by
  cases a with
  | construct t name rt => exact (h.construct hs).mono And.left
  | wake t => exact (h.wake hs).mono And.left
  | interrupt t => exact (h.interrupt hs).mono And.right
  | destroy t p => exact (h.destroy hs).mono And.left
  | enter u => exact (h.enter hs).mono And.left
  | notify u => exact (h.notify hs).mono And.left
  | call u => exact (h.call hs).mono And.left
  | setName t name => exact (h.setName hs).mono And.left
  | finish u => exact (h.finish hs).mono And.left

theorem step_mem {as : List ThreadStep} (h : s.Shaken (∀ a ∈ as, a.Uninterrupted)) {a : ThreadStep}
    (hs : s.step a = some s') : s'.Shaken (∀ b ∈ as ++ [a], b.Uninterrupted) :=
  (h.step hs).mono fun hall =>
    ⟨fun b hb => hall b (List.mem_append_left _ hb), hall a (by simp)⟩

end Shaken

/-! ## The constructor returns -/

theorem shaken {as : List ThreadStep} (h : exec step Process.init as = some s) :
    s.Shaken (∀ a ∈ as, a.Uninterrupted) :=
  exec_history (fun hist s => s.Shaken (∀ a ∈ hist, a.Uninterrupted))
    (fun _ _ _ _ h _ hs => h.step_mem hs) [] (.init _) (along_of_forall (fun _ _ => trivial) _) h

end Process

end Ipmsg
