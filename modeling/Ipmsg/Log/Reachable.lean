import Ipmsg.Log.ListenerSpec

set_option autoImplicit false

/-! # The states of the logger manager

What holds in every state a program can bring the manager into: the root logger is registered and
has no root of its own, and every attached appender has been constructed. -/

namespace Ipmsg
namespace LogState

structure Inv (s : LogState) : Prop where
  root_mem : s.m_root ∈ s.m_loggers
  root_root : (s.logger s.m_root).m_root = none
  appenders : ∀ p ∈ s.m_loggers, ∀ q : ℕ, q ∈ (s.logger p).m_appenders → q < s.nextAppender

theorem Inv.new (os : ℕ → Os) : (LogState.new os).Inv := by
  refine ⟨List.mem_singleton.2 rfl, rfl, ?_⟩
  intro p hp q hq
  have hroot : p = "root" := List.mem_singleton.1 hp
  subst hroot
  obtain rfl : q = 0 := List.mem_singleton.1 hq
  exact Nat.zero_lt_one

/-! ## Preservation -/

section
variable {s s' : LogState} (h : s.Inv)
include h

theorem Inv.same (hsame : SameConfig s s') : s'.Inv := by
  refine ⟨?_, ?_, ?_⟩
  · rw [hsame.m_root, hsame.m_loggers]
    exact h.root_mem
  · rw [hsame.m_root, hsame.logger]
    exact h.root_root
  · rw [hsame.m_loggers, hsame.logger, hsame.nextAppender]
    exact h.appenders

theorem Inv.modifyAppender (q : AppenderPtr) (f : LogAppender → LogAppender) :
    (s.modifyAppender q f).Inv :=
  ⟨h.root_mem, h.root_root, h.appenders⟩

/-- A setter of a logger may attach appenders that exist. -/
theorem Inv.modifyLogger (p : LoggerPtr) {f : Logger → Logger}
    (hroot : ∀ l, (f l).m_root = l.m_root)
    (happ : ∀ q : ℕ, q ∈ (f (s.logger p)).m_appenders →
      q ∈ (s.logger p).m_appenders ∨ q < s.nextAppender) :
    p ∈ s.m_loggers → (s.modifyLogger p f).Inv := by
  intro hp
  refine ⟨h.root_mem, ?_, ?_⟩
  · show (Function.update s.logger p (f (s.logger p)) s.m_root).m_root = none
    by_cases heq : s.m_root = p
    · rw [heq, Function.update_self, hroot, ← heq]
      exact h.root_root
    · rw [Function.update_of_ne heq]
      exact h.root_root
  · intro p' hp' q hq
    change q ∈ (Function.update s.logger p (f (s.logger p)) p').m_appenders at hq
    by_cases heq : p' = p
    · rw [heq, Function.update_self] at hq
      exact (happ q hq).elim (h.appenders p hp q) id
    · rw [Function.update_of_ne heq] at hq
      exact h.appenders p' hp' q hq

theorem Inv.newAppender (cls : AppenderClass) : (s.newAppender cls).2.Inv :=
  ⟨h.root_mem, h.root_root, fun p hp q hq => Nat.lt_succ_of_lt (h.appenders p hp q hq)⟩

theorem Inv.loggerOr_appenders (name : String) (q : ℕ)
    (hq : q ∈ (s.loggerOr name).m_appenders) : q < s.nextAppender := by
  unfold loggerOr at hq
  split at hq
  · next hname => exact h.appenders name hname q hq
  · exact absurd hq List.not_mem_nil

theorem Inv.loggerOr_root : (s.loggerOr s.m_root).m_root = none := by
  rw [loggerOr, if_pos h.root_mem]
  exact h.root_root

theorem Inv.getLogger (name : String) : (s.getLogger name).2.Inv := by
  have hmem := mem_getLogger s name
  rw [getLogger_eq] at hmem ⊢
  refine ⟨(hmem s.m_root).2 (Or.inl h.root_mem), ?_, ?_⟩
  · show (Function.update s.logger name (s.loggerOr name) s.m_root).m_root = none
    by_cases heq : s.m_root = name
    · rw [← heq, Function.update_self]
      exact h.loggerOr_root
    · rw [Function.update_of_ne heq]
      exact h.root_root
  · intro p hp q hq
    change q ∈ (Function.update s.logger name (s.loggerOr name) p).m_appenders at hq
    by_cases heq : p = name
    · rw [heq, Function.update_self] at hq
      exact h.loggerOr_appenders name q hq
    · rw [Function.update_of_ne heq] at hq
      exact h.appenders p (((hmem p).1 hp).resolve_right heq) q hq

theorem Inv.bounded (l : List LogDefine) : s.Bounded l :=
  fun i _ q hq => h.loggerOr_appenders i.name q hq

theorem Inv.configuredAll {l : List LogDefine} (hall : ConfiguredAll l s s') : s'.Inv := by
  have hnext := hall.nextAppender
  refine ⟨?_, ?_, ?_⟩
  · rw [hall.m_root]
    exact (hall.mem s.m_root).2 (Or.inl h.root_mem)
  · rw [hall.m_root]
    by_cases hroot : s.m_root ∈ l.map LogDefine.name
    · obtain ⟨i, hi, hname⟩ := List.mem_map.1 hroot
      obtain ⟨start, -, -, hlogger, -⟩ := hall.logger i hi
      rw [← hname, hlogger, hname]
      exact h.loggerOr_root
    · rw [hall.other s.m_root hroot]
      exact h.root_root
  · intro p hp q hq
    by_cases hin : p ∈ l.map LogDefine.name
    · obtain ⟨i, hi, rfl⟩ := List.mem_map.1 hin
      obtain ⟨start, -, hend, hlogger, -⟩ := hall.logger i hi
      rw [hlogger] at hq
      have hrange := List.mem_range'_1.1 hq
      omega
    · rw [hall.other p hin] at hq
      have hold := h.appenders p (((hall.mem p).1 hp).resolve_right hin) q hq
      omega

theorem Inv.setFormatterPtr {p : LoggerPtr} (hp : p ∈ s.m_loggers) (val : Option LogFormatter) :
    (s.setFormatterPtr p val).Inv := by
  have hinv := h.modifyLogger p (f := fun l => { l with m_formatter := val }) (fun _ => rfl)
    (fun _ => Or.inl) hp
  rw [setFormatterPtr_eq]
  exact ⟨hinv.root_mem, hinv.root_root, hinv.appenders⟩

theorem Inv.addAppender {p : LoggerPtr} (hp : p ∈ s.m_loggers) {ap : ℕ}
    (hap : ap < s.nextAppender) : (s.addAppender p ap).Inv := by
  have hattach : ∀ t : LogState, t.Inv → p ∈ t.m_loggers → ap < t.nextAppender →
      (t.modifyLogger p fun l => { l with m_appenders := l.m_appenders ++ [ap] }).Inv := by
    intro t ht hpt hapt
    refine ht.modifyLogger p (fun _ => rfl) (fun q hq => ?_) hpt
    rcases List.mem_append.1 hq with hq | hq
    · exact Or.inl hq
    · exact Or.inr (List.mem_singleton.1 hq ▸ hapt)
  unfold LogState.addAppender
  split
  · exact hattach _ (h.modifyAppender ap _) hp hap
  · exact hattach s h hp hap

theorem Inv.logsListener {old_value new_value : LogDefineSet}
    (hrun : logsListener old_value new_value s = .ok s') : s'.Inv := by
  obtain ⟨s₁, hsame, hall⟩ := logsListener_configured hrun
  exact (h.same hsame).configuredAll hall

/-- Every act of the program preserves the invariant. -/
theorem Inv.step {a : Act} (ha : a.Valid s) (hstep : s.step a = .ok s') : s'.Inv := by
  cases a with
  | log p level event => exact h.same (logFuel_same _ hstep)
  | logsChanged old_value new_value => exact h.logsListener hstep
  | getLogger name => exact Except.ok.inj hstep ▸ h.getLogger name
  | setLevel p val =>
      exact Except.ok.inj hstep ▸ h.modifyLogger p (fun _ => rfl) (fun _ => Or.inl) ha
  | setFormatterPtr p val => exact Except.ok.inj hstep ▸ h.setFormatterPtr ha val
  | setFormatter p val =>
      refine Except.ok.inj hstep ▸ ?_
      unfold LogState.setFormatter
      split
      · exact h
      · exact h.setFormatterPtr ha _
  | newStdoutLogAppender => exact Except.ok.inj hstep ▸ h.newAppender _
  | newFileLogAppender filename =>
      have hinv : ({ s with tick := s.tick + 1 } : LogState).Inv :=
        ⟨h.root_mem, h.root_root, h.appenders⟩
      exact Except.ok.inj hstep ▸ hinv.newAppender _
  | addAppender p ap => exact Except.ok.inj hstep ▸ h.addAppender ha.1 ha.2
  | delAppender p ap =>
      exact Except.ok.inj hstep ▸
        h.modifyLogger p (fun _ => rfl) (fun _ hq => Or.inl (List.mem_of_mem_erase hq)) ha.1
  | clearAppenders p =>
      exact Except.ok.inj hstep ▸
        h.modifyLogger p (fun _ => rfl) (fun _ hq => absurd hq List.not_mem_nil) ha
  | appenderSetLevel ap val => exact Except.ok.inj hstep ▸ h.modifyAppender ap _
  | appenderSetFormatter ap val => exact Except.ok.inj hstep ▸ h.modifyAppender ap _

end

/-- **The invariant holds in every reachable state.** -/
theorem Reachable.inv {s : LogState} (h : s.Reachable) : s.Inv := by
  induction h with
  | new os => exact Inv.new os
  | step _ ha hstep ih => exact ih.step ha hstep

end LogState
end Ipmsg
