import Ipmsg.Config.Var
import Ipmsg.Lib.Chain
import Ipmsg.Lib.Run
import Mathlib.Logic.Function.Basic

set_option autoImplicit false

/-! # Threads that set one variable

`setValue` is two critical sections: the listeners are called under the read lock, which any number
of threads may hold together, and the value is stored later under the write lock. Here threads call
`setValue` on one variable and the sections interleave in any order. The listener and the variable
stay together exactly as long as no thread calls the listener between the two sections of another.
-/

namespace Ipmsg

variable {θ T : Type}

/-- One variable, the value each thread is about to store, and what the listeners were called with.
-/
structure Threads (θ T : Type) where
  var : ConfigVar T
  pending : θ → Option T
  calls : List (Call T)

/-- The critical sections of the calls `setValue(v)` of thread `t`. -/
inductive Section (θ T : Type)
  | notify (t : θ) (v : T)
  | store (t : θ)

variable [DecidableEq θ] [BEq T]

/-- One critical section. A thread that is about to store starts no other call. -/
def Threads.step (s : Threads θ T) : Section θ T → Option (Threads θ T)
  | .notify t v =>
      if (s.pending t).isSome then none
      else match s.var.notify v with
        | (true, calls, _) => some { s with calls := s.calls ++ calls }
        | (false, calls, some _) => some { s with calls := s.calls ++ calls }
        | (false, calls, none) => some { s with
            pending := Function.update s.pending t (some v)
            calls := s.calls ++ calls }
  | .store t =>
      match s.pending t with
      | none => none
      | some v => some { s with
          var := s.var.store v
          pending := Function.update s.pending t none }

/-- No call is between its two sections. -/
def Threads.Settled (s : Threads θ T) : Prop := ∀ t, s.pending t = none

/-- A thread calls the listener only while no call is between its two sections. -/
def Threads.Alone (s : Threads θ T) : Section θ T → Prop
  | .notify _ v => (v == s.var.m_val) = true ∨ s.Settled
  | .store _ => True

/-- The changes the listeners were told of. -/
def Threads.changes (s : Threads θ T) : List (T × T) := s.calls.map Call.change

/-- What the listener was told leads from `a` without a gap, and to the stored value when no call is
under way. -/
def Threads.Informed (a : T) (s : Threads θ T) : Prop :=
  ∃ b, Chain a s.changes b ∧ (s.Settled → b = s.var.m_val)

/-! ## The invariant -/

/-- While no two calls overlap, the changes lead to the stored value, or to the one about to be
stored. -/
structure InTurn (a : T) (s : Threads θ T) : Prop where
  single : ∃ id cb, s.var.m_cbs.elems = [(id, cb)] ∧ cb.Quiet
  chain : ∃ b, Chain a s.changes b ∧ ((s.Settled ∧ b = s.var.m_val) ∨
    ((b == s.var.m_val) = false ∧ ∃ t, s.pending t = some b ∧ ∀ t', t' ≠ t → s.pending t' = none))

omit [DecidableEq θ] in
theorem InTurn.informed {a : T} {s : Threads θ T} (h : InTurn a s) : s.Informed a := by
  obtain ⟨b, hchain, ⟨-, hb⟩ | ⟨-, t, ht, -⟩⟩ := h.chain
  · exact ⟨b, hchain, fun _ => hb⟩
  · refine ⟨b, hchain, fun hsettled => ?_⟩
    rw [hsettled t] at ht
    exact absurd ht (by simp)

section
variable {a : T} {s s' : Threads θ T}

/-- A thread that starts a call is not in one. -/
theorem Threads.pending_of_notify {t : θ} {v : T} (hstep : s.step (.notify t v) = some s') :
    s.pending t = none := by
  cases hpend : s.pending t with
  | none => rfl
  | some w => simp [Threads.step, hpend] at hstep

/-- The effect of a section that calls the one listener. -/
theorem InTurn.notify_eq (h : InTurn a s) {t : θ} {v : T} (hne : (v == s.var.m_val) = false)
    (hstep : s.step (.notify t v) = some s') :
    s.pending t = none ∧ s'.var = s.var ∧ s'.pending = Function.update s.pending t (some v) ∧
      s'.changes = s.changes ++ [(s.var.m_val, v)] := by
  obtain ⟨id, cb, hcbs, hquiet⟩ := h.single
  have hnotify : s.var.notify v = (false, [⟨id, s.var.m_val, v⟩], none) := by
    simp [ConfigVar.notify, hne, hcbs, ConfigVar.callListeners, hquiet s.var.m_val v]
  have hpend := Threads.pending_of_notify hstep
  simp only [Threads.step, hpend, hnotify, Option.isSome_none, Bool.false_eq_true, if_false,
    Option.some.injEq] at hstep
  subst hstep
  refine ⟨hpend, rfl, rfl, ?_⟩
  simp [Threads.changes, Call.change]

/-- A section that finds the value unchanged does nothing. -/
theorem Threads.notify_same {t : θ} {v : T} (heq : (v == s.var.m_val) = true)
    (hstep : s.step (.notify t v) = some s') : s' = s := by
  have hnotify : s.var.notify v = (true, [], none) := by simp [ConfigVar.notify, heq]
  have hpend := Threads.pending_of_notify hstep
  simp only [Threads.step, hpend, hnotify, Option.isSome_none, Bool.false_eq_true, if_false,
    List.append_nil, Option.some.injEq] at hstep
  exact hstep.symm

/-- The listener is called with a new value while no other thread is between its sections. -/
theorem InTurn.step_notify (h : InTurn a s) (hsettled : s.Settled) {t : θ} {v : T}
    (heq : (v == s.var.m_val) = false) (hstep : s.step (.notify t v) = some s') : InTurn a s' := by
  obtain ⟨b, hchain, hb⟩ := h.chain
  obtain ⟨-, hvar, hpend, hchanges⟩ := h.notify_eq heq hstep
  refine ⟨hvar ▸ h.single, v, ?_, Or.inr ⟨hvar ▸ heq, t, ?_, fun t' ht' => ?_⟩⟩
  · rcases hb with ⟨-, rfl⟩ | ⟨-, t', ht', -⟩
    · rw [hchanges]
      exact chain_concat.2 ⟨hchain, rfl⟩
    · rw [hsettled t'] at ht'
      exact absurd ht' (by simp)
  · rw [hpend, Function.update_self]
  · rw [hpend, Function.update_of_ne ht']
    exact hsettled t'

/-- The value is stored that the listener heard last. -/
theorem InTurn.step_store (h : InTurn a s) {t : θ} (hstep : s.step (.store t) = some s') :
    InTurn a s' := by
  obtain ⟨b, hchain, hb⟩ := h.chain
  unfold Threads.step at hstep
  cases hpend : s.pending t with
  | none => simp [hpend] at hstep
  | some v =>
      simp only [hpend, Option.some.injEq] at hstep
      subst hstep
      refine ⟨h.single, b, hchain, Or.inl ?_⟩
      rcases hb with ⟨hsettled, -⟩ | ⟨-, t', ht', hothers⟩
      · rw [hsettled t] at hpend
        exact absurd hpend (by simp)
      · -- the thread that stores is the one the listener heard last
        have htt : t = t' := by
          by_contra hne
          rw [hothers t hne] at hpend
          exact absurd hpend (by simp)
        subst htt
        have hbv : b = v := Option.some.inj (ht'.symm.trans hpend)
        refine ⟨fun t' => ?_, hbv⟩
        show Function.update s.pending t none t' = none
        by_cases hne : t' = t
        · rw [hne, Function.update_self]
        · rw [Function.update_of_ne hne]
          exact hothers t' hne

/-- A section taken in turn keeps the invariant. -/
theorem InTurn.step (h : InTurn a s) {sec : Section θ T} (halone : s.Alone sec)
    (hstep : s.step sec = some s') : InTurn a s' := by
  cases sec with
  | notify t v =>
      cases heq : v == s.var.m_val with
      | true => exact Threads.notify_same heq hstep ▸ h
      | false =>
          rcases halone with hsame | hsettled
          · exact absurd (heq.symm.trans hsame) (by simp)
          · exact h.step_notify hsettled heq hstep
  | store t => exact h.step_store hstep

/-- A section taken out of turn leaves a gap in what the listener is told. -/
theorem InTurn.not_informed [ReflBEq T] (h : InTurn a s) {sec : Section θ T} (hnot : ¬ s.Alone sec)
    (hstep : s.step sec = some s') : ¬ s'.Informed a := by
  cases sec with
  | store t => exact absurd trivial hnot
  | notify t v =>
      have hdiff : (v == s.var.m_val) = false := by
        rw [← Bool.not_eq_true]
        exact fun heq => hnot (Or.inl heq)
      obtain ⟨-, -, -, hchanges⟩ := h.notify_eq hdiff hstep
      obtain ⟨b, hchain, ⟨hsettled, -⟩ | ⟨hb, -⟩⟩ := h.chain
      · exact absurd (Or.inr hsettled) hnot
      · rintro ⟨c, hc, -⟩
        rw [hchanges, chain_concat] at hc
        have hbval : b = s.var.m_val := hchain.end_unique hc.1
        rw [hbval, BEq.rfl] at hb
        exact absurd hb (by simp)

end

/-! ## Runs -/

/-- A variable with one listener, before any call. -/
def Threads.start (x : ConfigVar T) : Threads θ T :=
  { var := x, pending := fun _ => none, calls := [] }

/-- **Interleaving.** In a run of any number of threads, what the one listener is told is a chain
that ends at the stored value whenever no call is under way, in every state of the run, exactly when
no thread calls the listener between the two sections of another. -/
theorem threads_informed_iff [ReflBEq T] {x : ConfigVar T} {id : ℕ} {cb : Listener T}
    (hcbs : x.m_cbs.elems = [(id, cb)]) (hquiet : cb.Quiet) (as : List (Section θ T))
    {t : Threads θ T} (hrun : exec Threads.step (Threads.start x) as = some t) :
    (∀ before u, before <+: as → exec Threads.step (Threads.start x) before = some u →
        u.Informed x.m_val) ↔
      Along Threads.step Threads.Alone (Threads.start x) as := by
  have hstart : InTurn x.m_val (Threads.start x : Threads θ T) :=
    ⟨⟨id, cb, hcbs, hquiet⟩, x.m_val, rfl, Or.inl ⟨fun _ => rfl, rfl⟩⟩
  exact forall_reached_iff_along (fun _ => InTurn x.m_val) (fun _ => Threads.Informed x.m_val)
    (fun _ _ => InTurn.informed) (fun _ _ _ _ h _ => h.step) (fun _ _ _ _ h _ => h.not_informed)
    [] hstart (along_of_forall (fun _ _ => trivial) _) hrun

/-- A variable with value 0 and one listener. -/
def sampleVar : ConfigVar ℤ :=
  { m_name := "a", m_val := 0, m_cbs := ⟨[(1, fun _ _ => .ok ())], by simp⟩ }

/-- One thread after another. -/
theorem threads_informed_iff_sample :
    ∃ t : Threads Bool ℤ,
      exec Threads.step (Threads.start sampleVar)
        [.notify false 1, .store false, .notify true 2, .store true] = some t ∧
      t.Informed 0 := by
  refine ⟨_, rfl, ?_⟩
  refine (threads_informed_iff (x := sampleVar) rfl (fun _ _ => rfl) [.notify false 1,
    .store false, .notify true 2, .store true] rfl).2 ?_ _ _ (List.prefix_refl _) rfl
  have hsettled : (Threads.start sampleVar : Threads Bool ℤ).Settled := fun _ => rfl
  refine ⟨Or.inr hsettled, fun s₁ h₁ => ⟨trivial, fun s₂ h₂ => ⟨Or.inr ?_, fun s₃ h₃ =>
    ⟨trivial, fun s₄ _ => trivial⟩⟩⟩⟩
  intro b
  obtain rfl := Option.some.inj h₁
  obtain rfl := Option.some.inj h₂
  cases b <;> rfl

/-- Two threads: the listener hears of 1 and then of 2, both as changes from 0, and the value stored
in the end is 1. -/
theorem threads_not_informed :
    ¬ ∀ (x : ConfigVar ℤ) (id : ℕ) (cb : Listener ℤ), x.m_cbs.elems = [(id, cb)] → cb.Quiet →
      ∀ (as : List (Section Bool ℤ)) (t : Threads Bool ℤ),
        exec Threads.step (Threads.start x) as = some t → t.Informed x.m_val := by
  intro h
  obtain ⟨b, hchain, -⟩ := h sampleVar 1 (fun _ _ => .ok ()) rfl (fun _ _ => rfl)
    [.notify false 1, .notify true 2, .store true, .store false] _ rfl
  exact absurd hchain.2.1 (by decide)

end Ipmsg
