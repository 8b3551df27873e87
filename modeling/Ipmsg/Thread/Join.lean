import Ipmsg.Thread.Handshake

set_option autoImplicit false

/-! # The end of a thread

A `pthread_t` has to be joined or detached, once. `join` waits for the thread and sets `m_thread` to
0, and the destructor detaches what has not been joined. What POSIX leaves undefined, and the use of
an object that is gone, is a state of its own here, in which nothing happens any more. -/

namespace Ipmsg

/-- What has become of a `pthread_t`. -/
inductive PthreadState
  | joinable
  /-- A `pthread_join` waits for the thread. -/
  | awaited
  /-- It has been joined or detached. -/
  | released
  deriving DecidableEq

/-- Where a thread is in `Thread::join`. -/
structure Joining where
  object : ℕ
  /-- Whether `pthread_join` has returned. -/
  returned : Bool
  deriving DecidableEq

structure Joins where
  process : Process
  /-- Whether `m_thread` of an object is not 0. -/
  m_thread : ℕ → Bool
  pthread : ℕ → PthreadState
  joining : ℕ → Option Joining
  undefined : Bool

/-- Neither a constructor starts, nor is an object destroyed. -/
def ThreadStep.Within : ThreadStep → Prop
  | .construct _ _ _ | .interrupt _ | .destroy _ _ => False
  | _ => True

/-- A step of a thread. -/
inductive JoinStep
  | step (a : ThreadStep)
  | join (t p : ℕ)
  /-- `pthread_join` returns, and then `join`. -/
  | joined (t : ℕ)
  | leave (t : ℕ)

namespace Joins

def init : Joins where
  process := .init
  m_thread _ := false
  pthread _ := .released
  joining _ := none
  undefined := false

/-! ## The functions of `Thread` -/

/-- Code of the program runs in thread `t`. -/
def Runs (s : Joins) (t : ℕ) : Prop := (s.process.user t).isSome ∧ s.joining t = none

instance (s : Joins) (t : ℕ) : Decidable (s.Runs t) := inferInstanceAs (Decidable (_ ∧ _))

/-- The constructor up to the `m_semaphore.wait()`. -/
def construct (s : Joins) (t : ℕ) (name : String) (rt : ℕ) : Option Joins :=
  if s.Runs t then
    (s.process.construct t name rt).map fun process =>
      if rt ≠ 0 then { s with process }
      else { s with
        process
        m_thread := Function.update s.m_thread s.process.next true
        pthread := Function.update s.pthread s.process.next .joinable }
  else none

/-- The destructor. -/
def destroy (s : Joins) (t p : ℕ) : Option Joins :=
  if s.Runs t then
    (s.process.destroy t p).map fun process =>
      if s.m_thread p then
        if s.pthread p = .joinable then
          { s with process, pthread := Function.update s.pthread p .released }
        else { s with undefined := true }
      else { s with process }
  else none

/-- `Thread::join` up to the wait in `pthread_join`. A thread that joins itself gets `EDEADLK`, and
    an exception. -/
def join (s : Joins) (t p : ℕ) : Option Joins :=
  if s.Runs t ∧ (s.process.objects p).isSome then
    if s.m_thread p ∧ p ≠ t then
      if s.pthread p = .joinable then
        some { s with
          pthread := Function.update s.pthread p .awaited
          joining := Function.update s.joining t (some ⟨p, false⟩) }
      else some { s with undefined := true }
    else some s
  else none

/-- `pthread_join` returns once the thread has finished. -/
def joined (s : Joins) (t : ℕ) : Option Joins :=
  (s.joining t).bind fun j => (s.process.pthreads j.object).bind fun x =>
    if j.returned = false ∧ x.stage = .finished then
      some { s with
        pthread := Function.update s.pthread j.object .released
        joining := Function.update s.joining t (some { j with returned := true }) }
    else none

/-- The rest of `Thread::join`. -/
def leave (s : Joins) (t : ℕ) : Option Joins :=
  (s.joining t).bind fun j =>
    if j.returned then
      if (s.process.objects j.object).isSome then
        some { s with
          m_thread := Function.update s.m_thread j.object false
          joining := Function.update s.joining t none }
      else some { s with undefined := true }
    else none

/-- A part of `run` that uses the object of thread `u`. -/
def useObject (s : Joins) (u : ℕ) (stage : ThreadStage) (a : ThreadStep) : Option Joins :=
  if s.process.objects u = none then
    (s.process.pthreads u).bind fun x =>
      if x.stage = stage then some { s with undefined := true } else none
  else (s.process.step a).map fun process => { s with process }

/-- `Thread::setName`; the pointer of a callback may be to an object that is gone. -/
def setName (s : Joins) (t : ℕ) (name : String) : Option Joins :=
  if s.Runs t then
    if ∃ p ∈ s.process.getThis t, s.process.objects p = none then some { s with undefined := true }
    else (s.process.setName t name).map fun process => { s with process }
  else none

/-- A step in a thread that is not in a `join`. -/
def outside (s : Joins) (t : ℕ) (a : ThreadStep) : Option Joins :=
  if s.joining t = none then (s.process.step a).map fun process => { s with process } else none

def step (s : Joins) (a : JoinStep) : Option Joins :=
  if s.undefined then none
  else match a with
    | .step (.construct t name rt) => s.construct t name rt
    | .step (.destroy t p) => s.destroy t p
    | .step (.enter u) => s.useObject u .created (.enter u)
    | .step (.notify u) => s.useObject u .entered (.notify u)
    | .step (.wake t) => s.outside t (.wake t)
    | .step (.interrupt t) => s.outside t (.interrupt t)
    | .step (.call u) => s.outside u (.call u)
    | .step (.setName t name) => s.setName t name
    | .step (.finish u) => s.outside u (.finish u)
    | .join t p => s.join t p
    | .joined t => s.joined t
    | .leave t => s.leave t

/-! ## What is expected -/

/-- A `join` of object `p` is going on. -/
def Joined (s : Joins) (p : ℕ) : Prop := ∃ t j, s.joining t = some j ∧ j.object = p

/-- Nothing undefined has happened, a thread that still needs its object has it, and a thread whose
    object is gone has been joined or detached. -/
structure Orderly (s : Joins) : Prop where
  undefined : s.undefined = false
  alive : ∀ u x, s.process.pthreads u = some x → x.stage.Early → ∃ o, s.process.objects u = some o
  released : ∀ u, s.process.objects u = none → s.pthread u = .released

/-- No wait for a semaphore is interrupted, no `join` or destructor of an object is called while a
    `join` of it is going on, and no thread whose object is gone calls `setName`. A thread may
    always try to join itself. -/
def Separate (s : Joins) : JoinStep → Prop
  | .step (.interrupt _) => False
  | .step (.destroy _ p) => ¬ s.Joined p
  | .step (.setName t _) => ∀ p ∈ s.process.getThis t, s.process.objects p ≠ none
  | .join t p => p = t ∨ ¬ s.Joined p
  | _ => True

/-! ## The invariant -/

/-- What is true of an object and its thread: without a `join` that is going on, the thread can be
    joined exactly if `m_thread` says so. -/
structure InOrder (s : Joins) (p : ℕ) : Prop where
  gone : s.process.objects p = none → s.pthread p = .released ∧ ¬ s.Joined p
  held : s.process.objects p ≠ none → ¬ s.Joined p →
    s.pthread p = if s.m_thread p then .joinable else .released
  joins : ∀ t j, s.joining t = some j → j.object = p →
    s.m_thread p = true ∧ s.pthread p = if j.returned then .released else .awaited
  alone : ∀ t j t' j', s.joining t = some j → s.joining t' = some j' → j.object = p →
    j'.object = p → t = t'

structure Inv (s : Joins) : Prop where
  shaken : s.process.Shaken True
  undefined : s.undefined = false
  inOrder : ∀ p, s.InOrder p

variable {s s' : Joins} {t p : ℕ}

theorem Inv.init : Joins.init.Inv where
  shaken := .init True
  undefined := rfl
  inOrder _ := {
    gone _ := ⟨rfl, fun ⟨_, _, hj, _⟩ => absurd hj nofun⟩
    held ho := absurd rfl ho
    joins _ _ hj := absurd hj nofun
    alone _ _ _ _ hj := absurd hj nofun }

theorem Inv.orderly (h : s.Inv) : s.Orderly :=
  ⟨h.undefined, h.shaken.alive trivial, fun u hu => ((h.inOrder u).gone hu).1⟩

/-- Nothing has changed about an object. -/
theorem InOrder.frame (h : s.InOrder p)
    (hobject : s'.process.objects p = none ↔ s.process.objects p = none)
    (hthread : s'.m_thread p = s.m_thread p) (hpthread : s'.pthread p = s.pthread p)
    (hjoining : ∀ u j, j.object = p → (s'.joining u = some j ↔ s.joining u = some j)) :
    s'.InOrder p := by
  have hjoined : s'.Joined p ↔ s.Joined p := by
    refine exists_congr fun u => exists_congr fun j => ⟨fun hj => ?_, fun hj => ?_⟩
    · exact ⟨(hjoining u j hj.2).1 hj.1, hj.2⟩
    · exact ⟨(hjoining u j hj.2).2 hj.1, hj.2⟩
  refine ⟨fun hnone => ?_, fun hsome hfree => ?_, fun u j hj hp => ?_,
    fun u j u' j' hj hj' hp hp' => ?_⟩
  · rw [hpthread, hjoined]
    exact h.gone (hobject.1 hnone)
  · rw [hpthread, hthread]
    exact h.held (hobject.not.1 hsome) (hjoined.not.1 hfree)
  · rw [hpthread, hthread]
    exact h.joins u j ((hjoining u j hp).1 hj) hp
  · exact h.alone u j u' j' ((hjoining u j hp).1 hj) ((hjoining u' j' hp').1 hj') hp hp'

/-- A thread enters or leaves a `join` of another object. -/
theorem joining_update {v : Option Joining} (hold : ∀ j, s.joining t = some j → j.object ≠ p)
    (hnew : ∀ j, v = some j → j.object ≠ p) (u : ℕ) (j : Joining) (hp : j.object = p) :
    Function.update s.joining t v u = some j ↔ s.joining u = some j := by
  by_cases hu : u = t
  · subst hu
    rw [Function.update_self]
    exact iff_of_false (fun hj => hnew j hj hp) fun hj => hold j hj hp
  · rw [Function.update_of_ne hu]

/-- Objects come and go only with their constructors and destructors. -/
theorem objects_kept {s s' : Process} {a : ThreadStep} (ha : a.Within) (hs : s.step a = some s')
    (q : ℕ) : s'.objects q = none ↔ s.objects q = none := by
  have hset : ∀ {s : Process} {p : ℕ} {o : Thread} (o' : Thread), s.objects p = some o →
      ((s.setObject p (some o')).objects q = none ↔ s.objects q = none) := by
    intro s p o o' ho
    rw [Process.setObject_objects]
    split
    · next hq => exact iff_of_false nofun (hq ▸ ho ▸ nofun)
    · exact Iff.rfl
  cases a with
  | construct t name rt => exact ha.elim
  | interrupt t => exact ha.elim
  | destroy t p => exact ha.elim
  | wake t =>
      obtain ⟨x, -, hs⟩ := Option.bind_eq_some_iff.1 hs
      obtain ⟨p, -, hs⟩ := Option.bind_eq_some_iff.1 hs
      obtain ⟨o, ho, hs⟩ := Option.bind_eq_some_iff.1 hs
      split_ifs at hs
      exact Option.some.inj hs ▸ hset (s := s.setPthread t _) _ ho
  | enter u =>
      obtain ⟨x, -, hs⟩ := Option.bind_eq_some_iff.1 hs
      obtain ⟨o, ho, hs⟩ := Option.bind_eq_some_iff.1 hs
      split_ifs at hs
      exact Option.some.inj hs ▸ hset (s := s.setPthread u _) _ ho
  | notify u =>
      obtain ⟨x, -, hs⟩ := Option.bind_eq_some_iff.1 hs
      obtain ⟨o, ho, hs⟩ := Option.bind_eq_some_iff.1 hs
      split_ifs at hs
      exact Option.some.inj hs ▸ hset (s := s.setPthread u _) _ ho
  | call u =>
      obtain ⟨x, -, hs⟩ := Option.bind_eq_some_iff.1 hs
      split_ifs at hs
      exact Option.some.inj hs ▸ Iff.rfl
  | setName t name =>
      obtain ⟨x, -, hs⟩ := Option.bind_eq_some_iff.1 hs
      split at hs
      · exact Option.some.inj hs ▸ Iff.rfl
      · obtain ⟨o, ho, rfl⟩ := Option.map_eq_some_iff.1 hs
        exact hset (s := s.setPthread t _) _ ho
  | finish u =>
      obtain ⟨x, -, hs⟩ := Option.bind_eq_some_iff.1 hs
      split_ifs at hs
      exact Option.some.inj hs ▸ Iff.rfl

/-- The objects that exist stay. -/
theorem Inv.process (h : s.Inv) {process : Process} (hshaken : process.Shaken True)
    (hobjects : ∀ q, process.objects q = none ↔ s.process.objects q = none) :
    { s with process }.Inv :=
  ⟨hshaken, h.undefined, fun q => (h.inOrder q).frame (hobjects q) rfl rfl fun _ _ _ => Iff.rfl⟩

/-! ### The functions -/

theorem Inv.within (h : s.Inv) {a : ThreadStep} (ha : a.Within) {process : Process}
    (hs : s.process.step a = some process) : { s with process }.Inv := by
  have hkept : a.Uninterrupted := by
    cases a with
    | interrupt t => exact ha
    | _ => exact trivial
  exact h.process ((h.shaken.step hs).mono fun _ => ⟨trivial, hkept⟩) (objects_kept ha hs)

theorem outside_process {a : ThreadStep} (hs : s.outside t a = some s') :
    ∃ process, s.process.step a = some process ∧ s' = { s with process } := by
  unfold Joins.outside at hs
  split_ifs at hs
  obtain ⟨process, hprocess, rfl⟩ := Option.map_eq_some_iff.1 hs
  exact ⟨process, hprocess, rfl⟩

theorem Inv.outside (h : s.Inv) {a : ThreadStep} (hs : s.outside t a = some s')
    (ha : a.Within) : s'.Inv := by
  obtain ⟨process, hprocess, rfl⟩ := outside_process hs
  exact h.within ha hprocess

theorem Inv.setName (h : s.Inv) {name : String}
    (halive : ∀ p ∈ s.process.getThis t, s.process.objects p ≠ none)
    (hs : s.setName t name = some s') : s'.Inv := by
  unfold Joins.setName at hs
  rw [if_neg (c := ∃ p ∈ s.process.getThis t, s.process.objects p = none)
    fun ⟨p, hp, hnone⟩ => halive p hp hnone] at hs
  split_ifs at hs
  obtain ⟨process, hprocess, rfl⟩ := Option.map_eq_some_iff.1 hs
  exact h.within (a := .setName t name) trivial hprocess

theorem Inv.useObject (h : s.Inv) {stage : ThreadStage} (hearly : stage.Early) {a : ThreadStep}
    (hs : s.useObject p stage a = some s') (ha : a.Within) : s'.Inv := by
  unfold Joins.useObject at hs
  split_ifs at hs with hnone
  · -- the thread still has its object
    obtain ⟨x, hx, hs⟩ := Option.bind_eq_some_iff.1 hs
    split_ifs at hs with hstage
    obtain ⟨o, ho⟩ := h.shaken.alive trivial p x hx (hstage ▸ hearly)
    exact absurd (hnone.symm.trans ho) nofun
  · obtain ⟨process, hprocess, rfl⟩ := Option.map_eq_some_iff.1 hs
    exact h.within ha hprocess

theorem Inv.construct (h : s.Inv) {name : String} {rt : ℕ}
    (hs : s.construct t name rt = some s') : s'.Inv := by
  unfold Joins.construct at hs
  by_cases hruns : s.Runs t
  · rw [if_pos hruns] at hs
    obtain ⟨process, hprocess, hs⟩ := Option.map_eq_some_iff.1 hs
    have hshaken := h.shaken.construct hprocess
    obtain ⟨x, -, hprocess⟩ := Option.map_eq_some_iff.1 hprocess
    by_cases hrt : rt ≠ 0
    · rw [if_pos hrt] at hprocess hs
      exact hs ▸ hprocess ▸ h
    · rw [if_neg hrt] at hprocess hs
      obtain rfl := hs
      have hnone := (h.shaken.fresh _ le_rfl).2
      have hfree := ((h.inOrder _).gone hnone).2
      have hobject : ∀ q, q ≠ s.process.next → process.objects q = s.process.objects q := by
        intro q hq
        rw [← hprocess]
        exact Function.update_of_ne hq _ _
      have hnew : process.objects s.process.next ≠ none := by
        rw [← hprocess]
        exact fun heq => absurd ((Function.update_self ..).symm.trans heq) nofun
      refine ⟨hshaken, h.undefined, fun q => ?_⟩
      by_cases hq : q = s.process.next
      · subst hq
        exact ⟨fun heq => absurd heq hnew, fun _ _ => by simp,
          fun u j hj hp => absurd ⟨u, j, hj, hp⟩ hfree,
          fun u j _ _ hj _ hp _ => absurd ⟨u, j, hj, hp⟩ hfree⟩
      · exact (h.inOrder q).frame (by rw [hobject q hq]) (Function.update_of_ne hq _ _)
          (Function.update_of_ne hq _ _) fun _ _ _ => Iff.rfl
  · rw [if_neg hruns] at hs
    exact absurd hs nofun

theorem Inv.destroy (h : s.Inv) (hfree : ¬ s.Joined p) (hs : s.destroy t p = some s') : s'.Inv := by
  unfold Joins.destroy at hs
  by_cases hruns : s.Runs t
  · rw [if_pos hruns] at hs
    obtain ⟨process, hprocess, hs⟩ := Option.map_eq_some_iff.1 hs
    have hshaken := h.shaken.destroy hprocess
    obtain ⟨-, -, hprocess⟩ := Option.bind_eq_some_iff.1 hprocess
    obtain ⟨o, ho, hprocess⟩ := Option.bind_eq_some_iff.1 hprocess
    split_ifs at hprocess
    obtain rfl := Option.some.inj hprocess
    have hheld := (h.inOrder p).held (ho ▸ Option.some_ne_none o) hfree
    have hother : ∀ q, q ≠ p → ((s.process.setObject p none).objects q = none ↔
        s.process.objects q = none) := by
      intro q hq
      rw [Process.setObject_objects, if_neg hq]
    cases hthread : s.m_thread p with
    | true =>
        rw [hthread, if_pos rfl] at hheld hs
        rw [if_pos hheld] at hs
        obtain rfl := hs
        refine ⟨hshaken, h.undefined, fun q => ?_⟩
        by_cases hq : q = p
        · subst hq
          exact ⟨fun _ => ⟨Function.update_self .., hfree⟩,
            fun hsome => absurd ((Process.setObject_objects ..).trans (if_pos rfl)) hsome,
            fun u j hj hp => absurd ⟨u, j, hj, hp⟩ hfree,
            fun u j _ _ hj _ hp _ => absurd ⟨u, j, hj, hp⟩ hfree⟩
        · exact (h.inOrder q).frame (hother q hq) rfl (Function.update_of_ne hq _ _)
            fun _ _ _ => Iff.rfl
    | false =>
        rw [hthread, if_neg Bool.false_ne_true] at hheld hs
        obtain rfl := hs
        refine ⟨hshaken, h.undefined, fun q => ?_⟩
        by_cases hq : q = p
        · subst hq
          exact ⟨fun _ => ⟨hheld, hfree⟩,
            fun hsome => absurd ((Process.setObject_objects ..).trans (if_pos rfl)) hsome,
            (h.inOrder q).joins, (h.inOrder q).alone⟩
        · exact (h.inOrder q).frame (hother q hq) rfl rfl fun _ _ _ => Iff.rfl
  · rw [if_neg hruns] at hs
    exact absurd hs nofun

theorem Inv.join (h : s.Inv) (hfree : p = t ∨ ¬ s.Joined p) (hs : s.join t p = some s') :
    s'.Inv := by
  unfold Joins.join at hs
  split_ifs at hs with hruns hjoin hstate
  · obtain rfl := Option.some.inj hs
    have hnone : ∀ j, s.joining t = some j → False :=
      fun j hj => absurd (hruns.1.2.symm.trans hj) nofun
    have hnobody := hfree.resolve_left hjoin.2
    refine ⟨h.shaken, h.undefined, fun q => ?_⟩
    by_cases hq : q = p
    · subst hq
      have honly : ∀ u j, Function.update s.joining t (some ⟨q, false⟩) u = some j → j.object = q →
          u = t ∧ j = ⟨q, false⟩ := by
        intro u j hj hjq
        by_cases hu : u = t
        · subst hu
          rw [Function.update_self] at hj
          exact ⟨rfl, (Option.some.inj hj).symm⟩
        · rw [Function.update_of_ne hu] at hj
          exact absurd ⟨u, j, hj, hjq⟩ hnobody
      refine ⟨fun heq => ?_, fun _ hnot => ?_, fun u j hj hjq => ?_,
        fun u j u' j' hj hj' hp hp' => ?_⟩
      · replace heq : s.process.objects q = none := heq
        exact absurd hruns.2 (by simp [heq])
      · exact absurd ⟨t, ⟨q, false⟩, Function.update_self .., rfl⟩ hnot
      · obtain ⟨-, rfl⟩ := honly u j hj hjq
        exact ⟨hjoin.1, Function.update_self ..⟩
      · exact (honly u j hj hp).1.trans (honly u' j' hj' hp').1.symm
    · refine (h.inOrder q).frame Iff.rfl rfl (Function.update_of_ne hq _ _)
        (joining_update (fun j hj => (hnone j hj).elim) fun j hj => ?_)
      rw [← Option.some.inj hj]
      exact fun heq => hq heq.symm
  · -- without another `join` the thread can be joined
    have hsome : s.process.objects p ≠ none := fun heq => absurd hruns.2 (by simp [heq])
    have hheld := (h.inOrder p).held hsome (hfree.resolve_left hjoin.2)
    rw [hjoin.1] at hheld
    exact absurd hheld hstate
  · exact Option.some.inj hs ▸ h

theorem Inv.joined (h : s.Inv) (hs : s.joined t = some s') : s'.Inv := by
  obtain ⟨j, hj, hs⟩ := Option.bind_eq_some_iff.1 hs
  obtain ⟨x, -, hs⟩ := Option.bind_eq_some_iff.1 hs
  split_ifs at hs with hdone
  obtain rfl := Option.some.inj hs
  have hat := h.inOrder j.object
  refine ⟨h.shaken, h.undefined, fun q => ?_⟩
  by_cases hq : q = j.object
  · subst hq
    have honly : ∀ u k, Function.update s.joining t (some { j with returned := true }) u = some k →
        k.object = j.object → u = t ∧ k = { j with returned := true } := by
      intro u k hk hkj
      by_cases hu : u = t
      · subst hu
        rw [Function.update_self] at hk
        exact ⟨rfl, (Option.some.inj hk).symm⟩
      · rw [Function.update_of_ne hu] at hk
        exact absurd (hat.alone u k t j hk hj hkj rfl) hu
    refine ⟨fun heq => ?_, fun _ hnot => ?_, fun u k hk hkj => ?_, fun u k u' k' hk hk' hp hp' => ?_⟩
    · exact absurd ⟨t, j, hj, rfl⟩ (hat.gone heq).2
    · exact absurd ⟨t, _, Function.update_self .., rfl⟩ hnot
    · obtain ⟨-, rfl⟩ := honly u k hk hkj
      exact ⟨(hat.joins t j hj rfl).1, Function.update_self ..⟩
    · exact (honly u k hk hp).1.trans (honly u' k' hk' hp').1.symm
  · refine (h.inOrder q).frame Iff.rfl rfl (Function.update_of_ne hq _ _)
      (joining_update (fun k hk => ?_) fun k hk => ?_)
    · rw [← Option.some.inj (hj.symm.trans hk)]
      exact fun heq => hq heq.symm
    · rw [← Option.some.inj hk]
      exact fun heq => hq heq.symm

theorem Inv.leave (h : s.Inv) (hs : s.leave t = some s') : s'.Inv := by
  obtain ⟨j, hj, hs⟩ := Option.bind_eq_some_iff.1 hs
  have hat := h.inOrder j.object
  obtain ⟨-, hpthread⟩ := hat.joins t j hj rfl
  split_ifs at hs with hreturned hobject
  · obtain rfl := Option.some.inj hs
    rw [if_pos hreturned] at hpthread
    refine ⟨h.shaken, h.undefined, fun q => ?_⟩
    by_cases hq : q = j.object
    · subst hq
      have hnobody : ∀ u k, Function.update s.joining t none u = some k → k.object ≠ j.object := by
        intro u k hk hkj
        by_cases hu : u = t
        · subst hu
          rw [Function.update_self] at hk
          exact absurd hk nofun
        · rw [Function.update_of_ne hu] at hk
          exact hu (hat.alone u k t j hk hj hkj rfl)
      refine ⟨fun heq => ⟨hpthread, fun ⟨u, k, hk, hkj⟩ => hnobody u k hk hkj⟩, fun _ _ => ?_,
        fun u k hk hkj => absurd hkj (hnobody u k hk),
        fun u k _ _ hk _ hp _ => absurd hp (hnobody u k hk)⟩
      exact hpthread.trans (by simp)
    · refine (h.inOrder q).frame Iff.rfl (Function.update_of_ne hq _ _) rfl
        (joining_update (fun k hk => ?_) nofun)
      rw [← Option.some.inj (hj.symm.trans hk)]
      exact fun heq => hq heq.symm
  · have hnone : s.process.objects j.object = none := by simpa using hobject
    exact absurd ⟨t, j, hj, rfl⟩ (hat.gone hnone).2

theorem Inv.step (h : s.Inv) {a : JoinStep} (hgood : s.Separate a) (hs : s.step a = some s') :
    s'.Inv := by
  unfold Joins.step at hs
  rw [h.undefined, if_neg Bool.false_ne_true] at hs
  cases a with
  | step a =>
      cases a with
      | construct t name rt => exact h.construct hs
      | destroy t p => exact h.destroy hgood hs
      | enter u => exact h.useObject (Or.inl rfl) hs trivial
      | notify u => exact h.useObject (Or.inr rfl) hs trivial
      | interrupt t => exact hgood.elim
      | setName t name => exact h.setName hgood hs
      | wake t | call t | finish t => exact h.outside hs trivial
  | join t p => exact h.join hgood hs
  | joined t => exact h.joined hs
  | leave t => exact h.leave hs

/-! ## What goes wrong -/

end Joins

end Ipmsg
