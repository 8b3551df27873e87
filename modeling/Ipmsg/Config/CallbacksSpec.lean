import Ipmsg.Config.Callbacks

set_option autoImplicit false

/-! # Callbacks that wait for their own thread

A reader lock is held while a callback runs, so a call that needs the same lock for writing waits
for a thread that cannot go on: the one it was made in. All other calls are fine in a callback, at
any depth. -/

namespace Ipmsg

section
variable {K : ConfigTypes} {F : Type}

/-- The phase is at no exclusive lock. -/
def Phase.Shares (p : Phase K F) : Prop := ∀ l, p.request ≠ some (l, .exclusive)

theorem Phase.user_shares : (Phase.user : Phase K F).Shares := by simp [Shares, request]

theorem Phase.load_shares (nodes : List (String × Node)) :
    (Phase.load nodes : Phase K F).Shares := by
  intro l
  cases nodes with
  | nil => simp [request]
  | cons i nodes =>
      by_cases hi : i.1 = "" <;> simp [request, hi]

end

namespace Session

variable {K : ConfigTypes} {F : Type}

/-! ## What is held -/

/-- Listeners of `x` are being called. -/
def Notifying (frames : List (CallFrame K F)) (x : ℕ) : Prop := ∃ v rest, .listeners x v rest ∈ frames

/-- `Visit` is calling its callback. -/
def Visiting (frames : List (CallFrame K F)) : Prop := ∃ rest, .visiting rest ∈ frames

/-- The locks held are those of the calls under way, and a variable whose listeners are being called
    has listeners. -/
structure Consistent (s : Session K F) : Prop where
  held : s.held = s.phase.lock.toList ++ s.frames.filterMap CallFrame.lock
  listening : ∀ x, Notifying s.frames x → ∃ y, s.vars[x]? = some y ∧ y.m_cbs.elems ≠ []

theorem mem_locks_iff {frames : List (CallFrame K F)} {l : Lock} {m : LockMode} :
    (l, m) ∈ frames.filterMap CallFrame.lock ↔ m = .shared ∧
      ((∃ x, l = .variable x ∧ Notifying frames x) ∨ (l = .registry ∧ Visiting frames)) := by
  rw [List.mem_filterMap]
  constructor
  · rintro ⟨f, hf, hlock⟩
    cases f with
    | listeners x v rest =>
        obtain ⟨rfl, rfl⟩ := Prod.mk.inj (Option.some.inj hlock)
        exact ⟨rfl, Or.inl ⟨x, rfl, v, rest, hf⟩⟩
    | fromString nodes => exact absurd hlock (by simp [CallFrame.lock])
    | visiting rest =>
        obtain ⟨rfl, rfl⟩ := Prod.mk.inj (Option.some.inj hlock)
        exact ⟨rfl, Or.inr ⟨rfl, rest, hf⟩⟩
  · rintro ⟨rfl, ⟨x, rfl, v, rest, hf⟩ | ⟨rfl, rest, hf⟩⟩
    · exact ⟨_, hf, rfl⟩
    · exact ⟨_, hf, rfl⟩

/-- The only locks a thread waits for in vain are those its callbacks run under, for writing. -/
theorem Consistent.selfWaits_iff {s : Session K F} (h : s.Consistent) :
    s.SelfWaits ↔
      (∃ x, s.phase.request = some (.variable x, .exclusive) ∧ Notifying s.frames x) ∨
        (s.phase.request = some (.registry, .exclusive) ∧ Visiting s.frames) := by
  constructor
  · rintro ⟨⟨l, m⟩, hr, hex⟩
    have hr : s.phase.request = some (l, m) := hr
    cases m with
    | shared =>
        -- what is held exclusively is the registry, and then a variable is asked for
        rw [excluded_shared_iff, h.held, List.mem_append, mem_locks_iff] at hex
        rcases hex with hex | ⟨hm, -⟩
        · cases hp : s.phase <;> simp_all [Phase.lock, Phase.request]
        · exact absurd hm LockMode.noConfusion
    | exclusive =>
        obtain ⟨m, hm⟩ := excluded_exclusive_iff.1 hex
        rw [h.held, List.mem_append, mem_locks_iff] at hm
        rcases hm with hm | ⟨-, ⟨x, rfl, hx⟩ | ⟨rfl, hv⟩⟩
        · cases hp : s.phase <;> simp_all [Phase.lock, Phase.request]
        · exact Or.inl ⟨x, hr, hx⟩
        · exact Or.inr ⟨hr, hv⟩
  · have hmem : ∀ l, (l, LockMode.shared) ∈ s.frames.filterMap CallFrame.lock →
        s.phase.request = some (l, .exclusive) → s.SelfWaits := by
      intro l hl hr
      refine ⟨_, hr, excluded_exclusive_iff.2 ⟨.shared, ?_⟩⟩
      rw [h.held]
      exact List.mem_append_right _ hl
    rintro (⟨x, hr, hx⟩ | ⟨hr, hv⟩)
    · exact hmem _ (mem_locks_iff.2 ⟨rfl, Or.inl ⟨x, rfl, hx⟩⟩) hr
    · exact hmem _ (mem_locks_iff.2 ⟨rfl, Or.inr ⟨rfl, hv⟩⟩) hr

/-! ## Going on

A call that goes on comes to rest in user code or at a lock the thread can take. -/

/-- The locks fit the calls under way, and the thread does not wait for itself. -/
def Safe (s : Session K F) : Prop := s.Consistent ∧ ¬ s.SelfWaits

theorem Consistent.safe {s : Session K F} (h : s.Consistent) (hs : s.phase.Shares) : s.Safe := by
  constructor
  · exact h
  · intro hwaits
    rcases h.selfWaits_iff.1 hwaits with ⟨x, hr, -⟩ | ⟨hr, -⟩
    · exact hs _ hr
    · exact hs _ hr

section
variable {s : Session K F}

theorem Consistent.user_safe (h : s.Consistent) (hp : s.phase = .user) : s.Safe := by
  apply h.safe
  rw [hp]
  exact Phase.user_shares

theorem Consistent.goTo (h : s.Consistent) (hs : s.phase.lock = none) {p : Phase K F}
    (hp : p.lock = none) : Consistent { s with phase := p } := by
  constructor
  · show s.held = p.lock.toList ++ _
    rw [hp, h.held, hs]
  · exact h.listening

/-- The thread goes on to a phase that holds nothing and asks for nothing exclusively. -/
theorem Consistent.goTo_safe (h : s.Consistent) (hs : s.phase.lock = none) {p : Phase K F}
    (hp : p.lock = none) (hshares : p.Shares) : Safe { s with phase := p } :=
  (h.goTo hs hp).safe hshares

theorem Consistent.toUser (h : s.Consistent) (hs : s.phase.lock = none) :
    Safe { s with phase := .user } :=
  h.goTo_safe hs rfl Phase.user_shares

theorem afterFromString_lock (nodes : Option (List (String × Node))) :
    (afterFromString nodes : Phase K F).lock = none := by
  cases nodes <;> rfl

theorem afterFromString_shares (nodes : Option (List (String × Node))) :
    (afterFromString nodes : Phase K F).Shares := by
  cases nodes with
  | none => exact Phase.user_shares
  | some nodes => exact Phase.load_shares nodes

theorem Consistent.toAfterFromString (h : s.Consistent) (hs : s.phase.lock = none)
    (nodes : Option (List (String × Node))) : Safe { s with phase := afterFromString nodes } :=
  h.goTo_safe hs (afterFromString_lock nodes) (afterFromString_shares nodes)

/-- The stack without a frame that holds no lock. -/
theorem Consistent.drop (h : s.Consistent) {nodes : Option (List (String × Node))}
    {frames : List (CallFrame K F)} (hf : s.frames = .fromString nodes :: frames) :
    Consistent { s with frames := frames } := by
  constructor
  · rw [h.held, hf]
    rfl
  · rintro x ⟨v, rest, hmem⟩
    have hmem' : .listeners x v rest ∈ s.frames := by
      rw [hf]
      exact List.mem_cons_of_mem _ hmem
    exact h.listening x ⟨v, rest, hmem'⟩

theorem Consistent.returned (h : s.Consistent) (hs : s.phase.lock = none) : s.returned.Safe := by
  unfold Session.returned
  split
  · next nodes frames hf =>
      exact (h.drop hf).toAfterFromString hs nodes
  · exact h.toUser hs

theorem Consistent.thrown (h : s.Consistent) (hs : s.phase.lock = none) (isStd : Bool) :
    (s.thrown isStd).Safe := by
  unfold Session.thrown
  split
  · next nodes frames hf =>
      cases isStd with
      | true => exact (h.drop hf).toAfterFromString hs nodes
      | false => exact (h.drop hf).toUser hs
  · exact h.toUser hs

theorem Consistent.convert (h : s.Consistent) (hs : s.phase.lock = none) (x : ℕ) (val : String)
    (nodes : Option (List (String × Node))) : (s.convert x val nodes).Safe := by
  unfold Session.convert
  split
  · exact h.toUser hs
  · split
    · exact h.toAfterFromString hs nodes
    · apply Consistent.safe
      · constructor
        · show s.held = _
          rw [h.held, hs]
          rfl
        · rintro x ⟨v, rest, hmem⟩
          rcases List.mem_cons.1 hmem with heq | hmem
          · exact absurd heq (by simp)
          · exact h.listening x ⟨v, rest, hmem⟩
      · -- `setValue` takes the read lock first
        simp [Phase.Shares, Phase.request, ConfigCall.lock]

/-- A callback is called under the lock of its frame. -/
theorem Consistent.enter (h : s.Consistent) (hs : s.phase.lock = none) {f : CallFrame K F}
    (hf : ∀ x v rest, f = .listeners x v rest → ∃ y, s.vars[x]? = some y ∧ y.m_cbs.elems ≠ []) :
    (s.enter f).Safe := by
  have henter : (s.enter f).Consistent := by
    constructor
    · show f.lock.toList ++ s.held = [] ++ (f :: s.frames).filterMap CallFrame.lock
      rw [h.held, hs]
      cases hl : f.lock <;> simp [hl]
    · rintro x ⟨v, rest, hmem⟩
      rcases List.mem_cons.1 hmem with heq | hmem
      · exact hf x v rest heq.symm
      · exact h.listening x ⟨v, rest, hmem⟩
  exact henter.safe Phase.user_shares

theorem Consistent.leave (h : s.Consistent) (hs : s.phase.lock = none) {f : CallFrame K F}
    {frames : List (CallFrame K F)} (hf : s.frames = f :: frames) : (s.leave f).Consistent := by
  constructor
  · show s.held.diff f.lock.toList = s.phase.lock.toList ++ s.frames.tail.filterMap CallFrame.lock
    rw [h.held, hs, hf]
    cases hl : f.lock <;> simp [hl, List.diff_cons]
  · rintro x ⟨v, rest, hmem⟩
    exact h.listening x ⟨v, rest, List.mem_of_mem_tail hmem⟩

/-- Nobody is calling the listeners of a variable that is written to. -/
theorem Consistent.modifyVar (h : s.Consistent) {x : ℕ} (hx : ¬ Notifying s.frames x)
    (f : CallbackVar K F → CallbackVar K F) : (s.modifyVar x f).Consistent := by
  constructor
  · exact h.held
  · intro x' hx'
    have hne : x ≠ x' := by
      rintro rfl
      exact hx hx'
    obtain ⟨y, hy, hcbs⟩ := h.listening x' hx'
    have hy' : (s.vars.modify x f)[x']? = some y := by
      rw [List.getElem?_modify_ne _ _ hne, hy]
    exact ⟨y, hy', hcbs⟩

theorem Consistent.visit (h : s.Consistent) (hs : s.phase.lock = none) : s.visit.Safe := by
  unfold Session.visit
  split
  · exact h.toUser hs
  · exact h.enter hs (by simp)

theorem Consistent.loadEntry (h : s.Consistent) (hs : s.phase.lock = none) (Y : YamlCpp)
    (i : String × Node) (nodes : List (String × Node)) : (s.loadEntry Y i nodes).Safe := by
  unfold Session.loadEntry
  split
  · exact h.goTo_safe hs rfl (Phase.load_shares nodes)
  · split
    · exact h.goTo_safe hs rfl (Phase.load_shares nodes)
    · exact h.convert hs _ _ _

/-- A variable is written to only when nobody is calling its listeners. -/
theorem Safe.not_notifying (h : s.Safe) {x : ℕ}
    (hr : s.phase.request = some (.variable x, .exclusive)) : ¬ Notifying s.frames x :=
  fun hx => h.2 (h.1.selfWaits_iff.2 (Or.inl ⟨x, hr, hx⟩))

theorem Safe.write (h : s.Safe) (hs : s.phase.lock = none) {x : ℕ}
    (hr : s.phase.request = some (.variable x, .exclusive))
    (f : CallbackVar K F → CallbackVar K F) :
    Safe { s.modifyVar x f with phase := .user } :=
  (h.1.modifyVar (h.not_notifying hr) f).toUser hs

/-- The counter of `addListener` is no part of what is consistent. -/
theorem Safe.count (h : s.Safe) (s_fun_id : K.Ty → ℕ) : Safe { s with s_fun_id := s_fun_id } :=
  ⟨⟨h.1.held, h.1.listening⟩, h.2⟩

end

section
variable [DecidableEq K.Ty] {s : Session K F}

theorem Consistent.notify (h : s.Consistent) (hs : s.phase.lock = none) (x : ℕ)
    (v : TypedValue K) : (s.notify x v).Safe := by
  unfold Session.notify
  split
  · exact h.toUser hs
  · next y hy =>
      split
      · exact h.returned hs
      · split
        · next hcbs =>
            -- no call of the listeners of `x` is under way, for there are none
            have hstore := h.goTo hs (p := .store x v) rfl
            constructor
            · exact hstore
            intro hwaits
            rcases hstore.selfWaits_iff.1 hwaits with ⟨x', hr, hx'⟩ | ⟨hr, -⟩
            · obtain rfl : x = x' := by simpa [Phase.request] using hr
              obtain ⟨y', hy', hne⟩ := h.listening x hx'
              obtain rfl := Option.some.inj (hy.symm.trans hy')
              exact hne hcbs
            · exact absurd hr (by simp [Phase.request])
        · next e rest hcbs =>
            apply h.enter hs
            intro x' v' rest' heq
            obtain ⟨rfl, -, -⟩ := CallFrame.listeners.inj heq
            exact ⟨y, hy, by simp [hcbs]⟩

theorem Consistent.lookup (h : s.Consistent) (hs : s.phase.lock = none) (name : String)
    (default_value : TypedValue K) : (s.lookup name default_value).Safe := by
  unfold Session.lookup
  split
  · split
    · exact h.toUser hs
    · split
      · apply Consistent.safe
        · constructor
          · show _ :: s.held = _
            rw [h.held, hs]
            rfl
          · exact h.listening
        · simp [Phase.Shares, Phase.request]
      · exact h.toUser hs
  · split
    · exact h.toUser hs
    · refine Consistent.user_safe ?_ rfl
      constructor
      · show s.held = _
        rw [h.held, hs]
        rfl
      · -- the new variable is none of those whose listeners are being called
        intro x hx
        obtain ⟨y, hy, hcbs⟩ := h.listening x hx
        have hlt := (List.getElem?_eq_some_iff.1 hy).1
        exact ⟨y, (List.getElem?_append_left hlt).trans hy, hcbs⟩

theorem Safe.begin (h : s.Safe) {c : ConfigCall K F} (hp : s.phase = .start c) :
    (s.begin c).Safe := by
  have hs : s.phase.lock = none := by rw [hp]; rfl
  have hr : s.phase.request = c.lock := by rw [hp]; rfl
  cases c with
  | getValue x => exact h.1.toUser hs
  | getListener x key => exact h.1.toUser hs
  | toString x => exact h.1.toUser hs
  | find t name => exact h.1.toUser hs
  | lookupBase name => exact h.1.toUser hs
  -- the calls in which user code may run, and those that write
  | setValue x v => exact h.1.notify hs x v
  | fromString x val => exact h.1.convert hs x val none
  | addListener x ocb =>
      show Safe { s.addListener x ocb with phase := .user }
      unfold Session.addListener
      split
      · exact h.1.toUser hs
      · exact (h.write hs hr _).count _
  | delListener x key => exact h.write hs hr _
  | clearListener x => exact h.write hs hr _
  | lookup name default_value => exact h.1.lookup hs name default_value
  | loadFromYaml root => exact h.1.goTo_safe hs rfl (Phase.load_shares _)
  | visit => exact h.1.visit hs

theorem Safe.advance (h : s.Safe) {Y : YamlCpp} {s' : Session K F}
    (hstep : s.advance Y = some s') : s'.Safe := by
  unfold Session.advance at hstep
  rw [if_neg h.2] at hstep
  split at hstep
  · exact absurd hstep (by simp)
  · next c hp =>
      obtain rfl := Option.some.inj hstep
      exact h.begin hp
  · next x v hp =>
      obtain rfl := Option.some.inj hstep
      -- the write lock was granted, so the value changes under nobody's listeners
      have hx : ¬ Notifying s.frames x := h.not_notifying (by rw [hp]; rfl)
      exact (h.1.modifyVar hx _).returned (show s.phase.lock = none by rw [hp]; rfl)
  · next x hp =>
      obtain rfl := Option.some.inj hstep
      refine Consistent.user_safe ?_ rfl
      constructor
      · show s.held.erase (.registry, .exclusive) = _
        rw [h.1.held, hp]
        simp [Phase.lock]
      · exact h.1.listening
  · next hp =>
      obtain rfl := Option.some.inj hstep
      exact h.1.toUser (by rw [hp]; rfl)
  · next i nodes hp =>
      obtain rfl := Option.some.inj hstep
      exact h.1.loadEntry (by rw [hp]; rfl) Y i nodes

end

/-! ## User code

The one condition: nothing is asked for exclusively that a callback runs under. -/

section
variable {s : Session K F}

/-- While listeners of a variable are being called, none is added to it or taken out, and no call of
    all its listeners inside is completed, after which `setValue` stores the value. While `Visit`
    calls its callback, there is no `Lookup` with a default value. -/
def Permitted (s : Session K F) : Move K F → Prop
  | .call (.addListener x _) | .call (.delListener x _) | .call (.clearListener x) =>
      ¬ Notifying s.frames x
  | .call (.lookup _ _) => ¬ Visiting s.frames
  | .ret => ∀ x v frames, s.frames = .listeners x v [] :: frames → ¬ Notifying frames x
  | _ => True

theorem inUserCode_iff : s.inUserCode = true ↔ s.phase = .user := by
  unfold inUserCode
  cases s.phase <;> simp

theorem Safe.call (h : s.Safe) (hp : s.phase = .user) (c : ConfigCall K F) :
    Consistent { s with phase := .start c } ∧
      (SelfWaits { s with phase := .start c } ↔ ¬ s.Permitted (.call c)) := by
  have hstart : Consistent { s with phase := .start c } := h.1.goTo (by rw [hp]; rfl) rfl
  constructor
  · exact hstart
  rw [hstart.selfWaits_iff]
  cases c <;> simp [Phase.request, ConfigCall.lock, Permitted]

/-- The innermost call goes on under the same lock. -/
theorem Consistent.replace (h : s.Consistent) {f f' : CallFrame K F}
    {frames : List (CallFrame K F)} (hf : s.frames = f :: frames) (hlock : f'.lock = f.lock)
    (hx : ∀ x v rest, f' = .listeners x v rest → ∃ rest', f = .listeners x v rest') :
    Consistent { s with frames := f' :: frames } := by
  constructor
  · rw [h.held, hf]
    simp only [List.filterMap_cons, hlock]
  · rintro x ⟨v, rest, hmem⟩
    apply h.listening x
    rw [hf]
    rcases List.mem_cons.1 hmem with heq | hmem
    · obtain ⟨rest', rfl⟩ := hx x v rest heq.symm
      exact ⟨v, rest', List.mem_cons_self⟩
    · exact ⟨v, rest, List.mem_cons_of_mem _ hmem⟩

theorem Safe.resume (h : s.Safe) (hp : s.phase = .user) {s' : Session K F}
    (hstep : s.resume = some s') :
    s'.Consistent ∧ (s'.SelfWaits ↔ ¬ s.Permitted .ret) := by
  have hs : s.phase.lock = none := by rw [hp]; rfl
  -- every frame but that of the last listener goes on in user code
  have huser : ∀ {u : Session K F}, u.Consistent → u.phase = .user →
      (∀ x v frames, s.frames ≠ .listeners x v [] :: frames) →
      u.Consistent ∧ (u.SelfWaits ↔ ¬ s.Permitted .ret) := by
    intro u hu hup hne
    have hpermitted : s.Permitted .ret := fun x v frames heq => absurd heq (hne x v frames)
    exact ⟨hu, iff_of_false (hu.user_safe hup).2 (not_not_intro hpermitted)⟩
  unfold Session.resume at hstep
  split at hstep
  · next x v frames hf =>
      obtain rfl := Option.some.inj hstep
      have hstore := (h.1.leave hs hf).goTo hs (p := .store x v) rfl
      constructor
      · exact hstore
      · rw [hstore.selfWaits_iff]
        simp [Phase.request, Permitted, hf, Session.leave]
  · next x v e rest frames hf =>
      obtain rfl := Option.some.inj hstep
      have hnext : Consistent { s with frames := .listeners x v rest :: frames } := by
        refine h.1.replace hf rfl fun x' v' rest' heq => ?_
        obtain ⟨rfl, rfl, -⟩ := CallFrame.listeners.inj heq
        exact ⟨_, rfl⟩
      exact huser hnext hp (by simp [hf])
  · next frames hf =>
      obtain rfl := Option.some.inj hstep
      exact huser (h.1.leave hs hf) hp (by simp [hf])
  · next e rest frames hf =>
      obtain rfl := Option.some.inj hstep
      exact huser (h.1.replace hf rfl (by simp)) hp (by simp [hf])
  · exact absurd hstep (by simp)

theorem Safe.unwind (h : s.Safe) (hp : s.phase = .user) {isStd : Bool} {s' : Session K F}
    (hstep : s.unwind isStd = some s') : s'.Safe := by
  have hs : s.phase.lock = none := by rw [hp]; rfl
  unfold Session.unwind at hstep
  split at hstep
  · next x v rest frames hf =>
      obtain rfl := Option.some.inj hstep
      exact (h.1.leave hs hf).thrown hs isStd
  · next rest frames hf =>
      obtain rfl := Option.some.inj hstep
      exact (h.1.leave hs hf).user_safe hp
  · exact absurd hstep (by simp)

end

/-! ## Runs -/

section
variable [DecidableEq K.Ty] {s : Session K F}

/-- **One move.** A thread that does not wait for itself does so after a move exactly if the move is
not permitted. -/
theorem Safe.step (h : s.Safe) {Y : YamlCpp} {a : Move K F} {s' : Session K F}
    (hstep : s.step Y a = some s') : s'.Consistent ∧ (s'.SelfWaits ↔ ¬ s.Permitted a) := by
  have hsafe : s'.Safe → s.Permitted a → s'.Consistent ∧ (s'.SelfWaits ↔ ¬ s.Permitted a) :=
    fun hs' ha => ⟨hs'.1, iff_of_false hs'.2 (not_not_intro ha)⟩
  cases a with
  | call c =>
      simp only [Session.step, Option.ite_none_right_eq_some, Option.some.injEq] at hstep
      obtain ⟨⟨huser, -⟩, rfl⟩ := hstep
      exact h.call (inUserCode_iff.1 huser) c
  | ret =>
      simp only [Session.step, Option.ite_none_right_eq_some] at hstep
      exact h.resume (inUserCode_iff.1 hstep.1) hstep.2
  | throw isStd =>
      simp only [Session.step, Option.ite_none_right_eq_some] at hstep
      exact hsafe (h.unwind (inUserCode_iff.1 hstep.1) hstep.2) trivial
  | setLevel val =>
      simp only [Session.step, Option.ite_none_right_eq_some, Option.some.injEq] at hstep
      obtain ⟨-, rfl⟩ := hstep
      exact hsafe ⟨⟨h.1.held, h.1.listening⟩, h.2⟩ trivial
  | go => exact hsafe (h.advance hstep) trivial

/-- No call is under way. -/
structure Idle (s : Session K F) : Prop where
  held : s.held = []
  phase : s.phase = .user
  frames : s.frames = []

omit [DecidableEq K.Ty] in
theorem Idle.safe (h : s.Idle) : s.Safe := by
  have hconsistent : s.Consistent := by
    constructor
    · rw [h.held, h.phase, h.frames]
      rfl
    · rintro x ⟨v, rest, hmem⟩
      rw [h.frames] at hmem
      exact absurd hmem List.not_mem_nil
  exact hconsistent.user_safe h.phase

/-- A thread is stuck exactly if it waits for itself. -/
theorem step_eq_none_iff (Y : YamlCpp) : (∀ a, s.step Y a = none) ↔ s.SelfWaits := by
  constructor
  · intro hnone
    by_contra hwaits
    cases hp : s.phase with
    | user => exact absurd (hnone (.setLevel s.rootLevel)) (by simp [Session.step, inUserCode, hp])
    | load nodes =>
        have hgo := hnone .go
        cases nodes <;> simp [Session.step, advance, hwaits, hp] at hgo
    | _ => exact absurd (hnone .go) (by simp [Session.step, advance, hwaits, hp])
  · intro hwaits a
    have huser : s.inUserCode = false := by
      obtain ⟨r, hr, -⟩ := hwaits
      have hr : s.phase.request = some r := hr
      unfold inUserCode
      cases hp : s.phase <;> simp_all [Phase.request]
    cases a <;> simp [Session.step, advance, hwaits, huser]

omit [DecidableEq K.Ty] in
theorem Idle.selfWaits_iff (h : s.Idle) (p : Phase K F) :
    SelfWaits { s with phase := p } ↔ False := by
  refine iff_of_false ?_ id
  rintro ⟨r, -, e, he, -⟩
  have he : e ∈ s.held := he
  rw [h.held] at he
  exact absurd he List.not_mem_nil

/-- The listeners of `x` return one after another, and `setValue` goes on to store the value. -/
theorem exec_listeners (Y : YamlCpp) {x : ℕ} {v : TypedValue K} {rest : List (ℕ × F)} :
    ∀ {s : Session K F} {frames : List (CallFrame K F)}, s.phase = .user →
      s.frames = .listeners x v rest :: frames →
      exec (Session.step Y) s (List.replicate (rest.length + 1) .ret) =
        some { s with
          held := s.held.erase (.variable x, .shared)
          phase := .store x v
          frames := frames } := by
  induction rest with
  | nil =>
      intro s frames hp hf
      simp [exec_singleton, Session.step, inUserCode, hp, Session.resume, hf, Session.leave,
        CallFrame.lock, List.diff_cons]
  | cons e rest ih =>
      intro s frames hp hf
      rw [List.length_cons, List.replicate_succ, exec_cons_eq_some]
      refine ⟨{ s with frames := .listeners x v rest :: frames }, ?_, ih hp rfl⟩
      simp [Session.step, inUserCode, hp, Session.resume, hf]

/-- A change whose listeners only return is stored. -/
theorem setValue_quiet (Y : YamlCpp) (hs : s.Idle) {x : ℕ} {v : TypedValue K}
    {y : CallbackVar K F} (hy : s.vars[x]? = some y) (ht : y.type = v.1) (hv : y.holds v = false) :
    exec (Session.step Y) s ([.call (.setValue x v), .go] ++
        (List.replicate y.m_cbs.elems.length .ret ++ [.go])) =
      some (s.modifyVar x fun y => y.store v) := by
  obtain ⟨s₁, hs₁⟩ : ∃ s₁, s₁ = { s with phase := .start (.setValue x v) } := ⟨_, rfl⟩
  have hbegin : exec (Session.step Y) s [.call (.setValue x v), .go] = some (s₁.notify x v) := by
    have hcall : s.step Y (.call (.setValue x v)) = some s₁ := by
      simp [Session.step, inUserCode, hs.phase, accepts, hy, ht, hs₁]
    have hgo : s₁.step Y .go = some (s₁.notify x v) := by
      rw [hs₁]
      simp [Session.step, advance, hs.selfWaits_iff, Session.begin]
    rw [exec_cons, hcall, Option.bind_some, exec_singleton, hgo]
  -- whether there are listeners or not, the thread then holds nothing and is about to store
  have hcalled : exec (Session.step Y) (s₁.notify x v)
      (List.replicate y.m_cbs.elems.length .ret) = some { s with phase := .store x v } := by
    cases hcbs : y.m_cbs.elems with
    | nil => simp [Session.notify, hs₁, hy, hv, hcbs]
    | cons e rest =>
        have henter : s₁.notify x v = s₁.enter (.listeners x v rest) := by
          simp [Session.notify, hs₁, hy, hv, hcbs]
        rw [henter, List.length_cons, exec_listeners Y rfl rfl, hs₁]
        simp [enter, CallFrame.lock]
  have hgo : Session.step Y { s with phase := .store x v } .go =
      some (s.modifyVar x fun y => y.store v) := by
    have hreturned :
        (Session.modifyVar { s with phase := .store x v } x fun y => y.store v).returned =
          { s.modifyVar x fun y => y.store v with phase := .user } := by
      simp [Session.returned, Session.modifyVar, hs.frames]
    have huser : { s.modifyVar x fun y => y.store v with phase := .user } =
        s.modifyVar x fun y => y.store v := by
      rw [← hs.phase]
      rfl
    show Session.advance Y _ = _
    rw [advance, if_neg (hs.selfWaits_iff _).1]
    exact congrArg some (hreturned.trans huser)
  rw [exec_append, hbegin, Option.bind_some, exec_append, hcalled, Option.bind_some,
    exec_singleton, hgo]

/-- **A callback waits for its own thread exactly if it writes under itself.** In a run of one
thread, whatever its callbacks do, the thread never waits for a lock it holds exactly if all moves
are permitted. -/
theorem neverSelfWaits_iff (Y : YamlCpp) (hs : s.Idle) {as : List (Move K F)} {t : Session K F}
    (ht : exec (Session.step Y) s as = some t) :
    (∀ before u, before <+: as → exec (Session.step Y) s before = some u → ¬ u.SelfWaits) ↔
      Along (Session.step Y) Permitted s as := by
  refine forall_reached_iff_along (D := fun _ _ => True) (fun _ => Safe) (fun _ u => ¬ u.SelfWaits)
    (fun _ _ h => h.2) ?_ ?_ [] hs.safe (along_of_forall (fun _ _ => trivial) s) ht
  · intro _ u a u' hu _ ha hstep
    obtain ⟨hcons, hiff⟩ := hu.step hstep
    exact ⟨hcons, fun hwaits => hiff.1 hwaits ha⟩
  · intro _ u a u' hu _ ha hstep
    exact not_not_intro ((hu.step hstep).2.2 ha)

/-- A variable with one listener, and a thread that has made no call yet. -/
def oneListener : Session textTypes Unit where
  vars := [{ type := (), m_name := "a", m_val := "0", m_cbs := ⟨[(1, ())], by simp⟩ }]
  datas := ⟨[("a", 0)], by simp⟩
  s_fun_id := fun _ => 1
  rootLevel := .debug
  held := []
  phase := .user
  frames := []

theorem oneListener_idle : oneListener.Idle := ⟨rfl, rfl, rfl⟩

/-- A callback of `Visit` sets the variable, and its listener reads it. -/
theorem neverSelfWaits_iff_sample :
    ∃ t, exec (Session.step scalarsOnly) oneListener [.call .visit, .go,
        .call (.setValue 0 ⟨(), "1"⟩), .go, .call (.getValue 0), .go, .ret] = some t ∧
      ¬ t.SelfWaits := by
  have hstep : ∀ {s s' : Session textTypes Unit} {a : Move textTypes Unit}
      {as : List (Move textTypes Unit)}, s.step scalarsOnly a = some s' → s.Permitted a →
      Along (Session.step scalarsOnly) Permitted s' as →
      Along (Session.step scalarsOnly) Permitted s (a :: as) :=
    fun hs ha has => (along_cons_of_step hs).2 ⟨ha, has⟩
  have hpermitted : Along (Session.step scalarsOnly) Permitted oneListener [.call .visit, .go,
      .call (.setValue 0 ⟨(), "1"⟩), .go, .call (.getValue 0), .go, .ret] := by
    refine hstep rfl trivial (hstep rfl trivial (hstep rfl trivial (hstep rfl trivial
      (hstep rfl trivial (hstep rfl trivial (hstep rfl ?_ trivial))))))
    intro x v frames heq hx
    obtain ⟨-, rfl⟩ := List.cons.inj heq
    obtain ⟨v', rest, hmem⟩ := hx
    exact absurd (List.mem_singleton.1 hmem) (by simp)
  refine ⟨_, rfl, ?_⟩
  exact (neverSelfWaits_iff scalarsOnly oneListener_idle rfl).2 hpermitted _ _
    (List.prefix_refl _) rfl

/-- A listener that takes itself out. -/
theorem delListener_selfWaits :
    ¬ ∀ (s t : Session textTypes Unit) (as : List (Move textTypes Unit)), s.Idle →
      exec (Session.step scalarsOnly) s as = some t → ¬ t.SelfWaits := by
  intro h
  refine h oneListener _ [.call (.setValue 0 ⟨(), "1"⟩), .go, .call (.delListener 0 1)]
    oneListener_idle rfl ?_
  exact ⟨_, rfl, excluded_exclusive_iff.2 ⟨.shared, List.mem_cons_self⟩⟩

end

end Session
end Ipmsg
