import Ipmsg.Lib.Run
import Ipmsg.Log.LoggerFrame

set_option autoImplicit false

/-! # The stream of a file appender

`reopen` closes the stream only if it tests true. A stream whose open failed is closed and tests
false, so the next open can succeed; a stream whose write failed is open and tests false, so it is
not closed, and `open` fails on it from then on. -/

namespace Ipmsg

namespace FileLogAppender

/-! ## Calls -/

/-- `FileLogAppender::log`, with the level and the formatter the appender has at the time. -/
def log (os : Os) (m_level level : Level) (f : LogFormatter) (a : FileLogAppender) :
    FileLogAppender :=
  if m_level.toNat ≤ level.toNat then (a.refresh os).write os f else a

end FileLogAppender

/-- This is what the virtual call does to the members of a file appender. -/
theorem LogAppender.log_fileLogAppender {a : LogAppender} {members : FileLogAppender}
    {f : LogFormatter} (hcls : a.cls = .fileLogAppender members) (hf : a.m_formatter = some f)
    (os : Os) (level : Level) :
    ∃ written, a.log os level =
      .ok ({ a with cls := .fileLogAppender (members.log os a.m_level level f) }, written) := by
  by_cases hlevel : a.m_level.toNat ≤ level.toNat
  · refine ⟨some f, ?_⟩
    simp only [LogAppender.log, FileLogAppender.log, if_pos hlevel, hcls, derefFormatter, hf]
    rfl
  · refine ⟨none, ?_⟩
    simp only [LogAppender.log, FileLogAppender.log, if_neg hlevel, ← hcls]
    rfl

/-- A call of a method of a file appender. Between calls the level and the formatter may change. -/
inductive FileCall
  | log (os : Os) (m_level level : Level) (f : LogFormatter)
  | reopen (os : Os)

namespace FileLogAppender

def call (a : FileLogAppender) : FileCall → FileLogAppender
  | .log os m_level level f => a.log os m_level level f
  | .reopen os => (a.reopen os).1

/-- The appender after its construction and some calls. -/
def after (os : Os) (filename : String) (calls : List FileCall) : FileLogAppender :=
  calls.foldl call (.new os filename)

/-- An open that is granted leaves the stream open and good, also the one a log call makes. -/
def Recovers (a : FileLogAppender) : Prop :=
  ∀ os : Os, os.opens = true →
    (a.reopen os).2 = true ∧ (a.reopen os).1.m_filestream = { is_open := true } ∧
      (os.time ≠ a.m_lastTime → (a.refresh os).m_filestream = { is_open := true })

end FileLogAppender

/-- The call writes no text, or the write succeeds: a log call writes if the open it makes is
    granted, or if it makes none and the stream is good. -/
def FileCall.WriteDone (a : FileLogAppender) : FileCall → Prop
  | .log os m_level level f =>
      m_level.toNat ≤ level.toNat → f.m_items ≠ [] →
        (if os.time ≠ a.m_lastTime then os.opens else a.m_filestream.good) = true →
          os.writes = true
  | .reopen _ => True

namespace FileLogAppender

/-! ## The states of the stream -/

/-- The stream is open and good, or its last open has failed. -/
def Sound (a : FileLogAppender) : Prop :=
  a.m_filestream = { is_open := true } ∨ a.m_filestream = { failbit := true }

/-- The stream is open and tests false. -/
def Stuck (a : FileLogAppender) : Prop :=
  a.m_filestream.is_open = true ∧ a.m_filestream.good = false

theorem Sound.reopen_stream {a : FileLogAppender} (h : a.Sound) (os : Os) :
    (a.reopen os).1.m_filestream =
      if os.opens = true then { is_open := true } else { failbit := true } := by
  unfold reopen
  rcases h with h | h <;> rw [h] <;> cases os.opens <;> rfl

theorem Sound.reopen {a : FileLogAppender} (h : a.Sound) (os : Os) : (a.reopen os).1.Sound := by
  unfold Sound
  rw [h.reopen_stream]
  cases os.opens
  · exact Or.inr rfl
  · exact Or.inl rfl

theorem reopen_result (a : FileLogAppender) (os : Os) :
    (a.reopen os).2 = (a.reopen os).1.m_filestream.good := rfl

/-- The stream is not closed, and `open` fails on an open stream. -/
theorem Stuck.reopen_stream {a : FileLogAppender} (h : a.Stuck) (os : Os) :
    (a.reopen os).1.m_filestream = { a.m_filestream with failbit := true } := by
  have hclosed : (if a.m_filestream.good then a.m_filestream.close else a.m_filestream) =
      a.m_filestream := if_neg (by simp [h.2])
  show Ofstream.openFile _
    (if a.m_filestream.good then a.m_filestream.close else a.m_filestream) = _
  rw [hclosed, Ofstream.openFile, if_neg (by simp [h.1])]

theorem Stuck.reopen {a : FileLogAppender} (h : a.Stuck) (os : Os) : (a.reopen os).1.Stuck := by
  unfold Stuck
  rw [h.reopen_stream]
  exact ⟨h.1, rfl⟩

theorem Sound.refresh {a : FileLogAppender} (h : a.Sound) (os : Os) : (a.refresh os).Sound := by
  unfold FileLogAppender.refresh
  split
  · exact h.reopen os
  · exact h

/-- The stream tests true when a log call comes to its write. -/
theorem Sound.refresh_good {a : FileLogAppender} (h : a.Sound) (os : Os) :
    (a.refresh os).m_filestream.good =
      if os.time ≠ a.m_lastTime then os.opens else a.m_filestream.good := by
  unfold FileLogAppender.refresh
  split
  · show (a.reopen os).1.m_filestream.good = _
    rw [h.reopen_stream]
    cases os.opens <;> rfl
  · rfl

theorem Stuck.refresh {a : FileLogAppender} (h : a.Stuck) (os : Os) : (a.refresh os).Stuck := by
  unfold FileLogAppender.refresh
  split
  · exact h.reopen os
  · exact h

theorem Sound.write {a : FileLogAppender} (h : a.Sound) {os : Os} {f : LogFormatter}
    (hdone : f.m_items ≠ [] → a.m_filestream.good = true → os.writes = true) :
    (a.write os f).Sound := by
  by_cases hitems : f.m_items = []
  · rw [FileLogAppender.write, if_pos hitems]
    exact h
  · rw [FileLogAppender.write, if_neg hitems]
    rcases h with h | h
    · have hwrites : os.writes = true := hdone hitems (by rw [h]; rfl)
      exact Or.inl (by rw [h, hwrites]; rfl)
    · exact Or.inr (by rw [h]; rfl)

/-- A failed write sets `badbit` on the open stream. -/
theorem Sound.write_failed {a : FileLogAppender} (h : a.Sound) {os : Os} {f : LogFormatter}
    (hitems : f.m_items ≠ []) (hgood : a.m_filestream.good = true) (hfails : os.writes = false) :
    (a.write os f).Stuck := by
  rcases h with h | h
  · rw [FileLogAppender.write, if_neg hitems, h, hfails]
    exact ⟨rfl, rfl⟩
  · rw [h] at hgood
    exact absurd hgood (by decide)

/-- Nothing is written to a stream that tests false. -/
theorem Stuck.write {a : FileLogAppender} (h : a.Stuck) (os : Os) (f : LogFormatter) :
    (a.write os f).Stuck := by
  have hsame : a.m_filestream.write os.writes = a.m_filestream := by simp [Ofstream.write, h.2]
  unfold FileLogAppender.write
  split
  · exact h
  · rw [hsame]
    exact h

/-! ## Calls -/

theorem Sound.new (os : Os) (filename : String) : (FileLogAppender.new os filename).Sound := by
  obtain ⟨time, opens, writes⟩ := os
  cases opens
  · exact Or.inr rfl
  · exact Or.inl rfl

theorem Sound.call {a : FileLogAppender} (h : a.Sound) {c : FileCall} (hdone : c.WriteDone a) :
    (a.call c).Sound := by
  cases c with
  | log os m_level level f =>
      show (a.log os m_level level f).Sound
      unfold FileLogAppender.log
      split
      · next hlevel =>
          refine (h.refresh os).write fun hitems hgood => hdone hlevel hitems ?_
          rwa [← h.refresh_good]
      · exact h
  | reopen os => exact h.reopen os

theorem Sound.call_failed {a : FileLogAppender} (h : a.Sound) {c : FileCall}
    (hfailed : ¬ c.WriteDone a) : (a.call c).Stuck := by
  cases c with
  | log os m_level level f =>
      simp only [FileCall.WriteDone, Classical.not_imp] at hfailed
      obtain ⟨hlevel, hitems, hattempted, hwrites⟩ := hfailed
      show (a.log os m_level level f).Stuck
      rw [FileLogAppender.log, if_pos hlevel]
      rw [← h.refresh_good] at hattempted
      exact (h.refresh os).write_failed hitems hattempted (by simpa using hwrites)
  | reopen os => exact absurd trivial hfailed

theorem Stuck.call {a : FileLogAppender} (h : a.Stuck) (c : FileCall) : (a.call c).Stuck := by
  cases c with
  | log os m_level level f =>
      show (a.log os m_level level f).Stuck
      unfold FileLogAppender.log
      split
      · exact (h.refresh os).write os f
      · exact h
  | reopen os => exact h.reopen os

/-! ## The result -/

theorem Sound.recovers {a : FileLogAppender} (h : a.Sound) : a.Recovers := by
  intro os hopens
  have hstream : (a.reopen os).1.m_filestream = { is_open := true } := by
    rw [h.reopen_stream, if_pos hopens]
  refine ⟨?_, hstream, fun htime => ?_⟩
  · rw [reopen_result, hstream]
    rfl
  · -- the same open, made by a log call
    rw [FileLogAppender.refresh, if_pos htime]
    exact hstream

theorem Stuck.not_recovers {a : FileLogAppender} (h : a.Stuck) : ¬ a.Recovers := by
  intro hall
  have hgood := (hall ⟨0, true, true⟩ rfl).1
  rw [reopen_result, (h.reopen _).2] at hgood
  exact absurd hgood (by decide)

theorem call_m_filename (a : FileLogAppender) (c : FileCall) :
    (a.call c).m_filename = a.m_filename := by
  cases c with
  | log os m_level level f =>
      show (a.log os m_level level f).m_filename = _
      unfold FileLogAppender.log
      split
      · rw [write_m_filename, refresh_m_filename]
      · rfl
  | reopen os => exact reopen_m_filename os a

/-- **A failed write is never recovered from.** After any history of a file appender, opens that are
granted bring the stream back, on the file the appender was constructed for, if and only if no write
of the history has failed. Opens may have failed. -/
theorem recovers_iff (os : Os) (filename : String) (calls : List FileCall) :
    (after os filename calls).m_filename = filename ∧
      ((after os filename calls).Recovers ↔
        Along (fun a c => some (call a c)) (fun a c => c.WriteDone a) (.new os filename)
          calls) := by
  have hrun : exec (fun a c => some (call a c)) (.new os filename) calls =
      some (after os filename calls) := exec_total call calls _
  constructor
  · exact exec_rel (R := fun a b : FileLogAppender => b.m_filename = a.m_filename) (fun _ => rfl)
      (fun _ _ _ hab hbc => Eq.trans hbc hab)
      (fun a c b h => Option.some.inj h ▸ call_m_filename a c) hrun
  · -- the first failed write is the point of no return
    have hends := exec_along_or (P := Sound) (Q := Stuck) (G := fun a c => c.WriteDone a)
      (fun a c b h hdone hb => Option.some.inj hb ▸ h.call hdone)
      (fun a c b h hfailed hb => Option.some.inj hb ▸ h.call_failed hfailed)
      (fun a c b h hb => Option.some.inj hb ▸ h.call c) (Sound.new os filename) hrun
    rcases hends with ⟨halong, hsound⟩ | ⟨hnot, hstuck⟩
    · exact iff_of_true hsound.recovers halong
    · exact iff_of_false hstuck.not_recovers hnot

/-- The disk is full for one event, whose `%n` flushes the stream. -/
theorem write_not_recovered :
    ¬ (after ⟨0, true, true⟩ "log.txt"
      [.log ⟨1, true, false⟩ .debug .info (LogFormatter.new "%m%n")]).Recovers := by
  intro h
  exact absurd (h ⟨2, true, true⟩ rfl).1 (by decide)

end FileLogAppender
end Ipmsg
