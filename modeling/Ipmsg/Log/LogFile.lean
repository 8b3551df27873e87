import Ipmsg.Log.FileAppender

set_option autoImplicit false

/-! # Which file an event is written to

The file system as far as a file appender is concerned: the file at `m_filename`, which others may
delete, and the file its stream is open on, which may be a deleted one. Here every open and every
write succeeds. A log call reopens the stream when the clock reads another second than at the last
one, so the calls of one second share a stream that was opened in the first of them. -/

namespace Ipmsg

/-! ## The file system -/

/-- What a stream is open on. -/
structure Handle where
  file : ℕ
  /-- The position of the call that opened it, `none` for the constructor. -/
  call : Option ℕ

/-- An event that was written, that is inserted into the stream: through which handle, and the file
    at `m_filename` at the moment. A pattern with `%n` at the end flushes it. -/
structure WrittenEvent where
  handle : Handle
  path : Option ℕ

structure LogFile where
  appender : FileLogAppender
  /-- The file at `m_filename`. -/
  path : Option ℕ
  /-- The number of the next file that is created. -/
  created : ℕ
  handle : Handle
  /-- How many calls and deletions there have been. -/
  position : ℕ
  written : List WrittenEvent

/-- A log call, with the clock and the level and formatter of the appender, during which the file
    may be deleted once the stream is open; or a deletion between calls. -/
inductive FileEvent
  | log (now : ℕ) (m_level level : Level) (f : LogFormatter) (deleted : Bool)
  | delete

/-- The system grants everything. -/
def granted (now : ℕ) : Os := { time := now, opens := true, writes := true }

namespace LogFile

/-- An open for appending creates the file if there is none. -/
def openPath (call : Option ℕ) (w : LogFile) : LogFile :=
  let file := w.path.getD w.created
  { w with
    path := some file
    created := if w.path.isNone then w.created + 1 else w.created
    handle := { file, call } }

/-- `FileLogAppender::reopen`: where it returns true the open has succeeded. -/
def reopen (os : Os) (call : Option ℕ) (w : LogFile) : LogFile :=
  let (appender, opened) := w.appender.reopen os
  { if opened then w.openPath call else w with appender }

/-- The start of `FileLogAppender::log`. -/
def refresh (os : Os) (w : LogFile) : LogFile :=
  if os.time ≠ w.appender.m_lastTime then
    let w := w.reopen os (some w.position)
    { w with appender := { w.appender with m_lastTime := os.time } }
  else w

/-- The end of `FileLogAppender::log`. -/
def write (os : Os) (f : LogFormatter) (w : LogFile) : LogFile :=
  { w with
    appender := w.appender.write os f
    written :=
      if w.appender.m_filestream.good then w.written ++ [⟨w.handle, w.path⟩] else w.written }

/-- Others delete the file; a stream that is open on it stays open. -/
def unlink (w : LogFile) : LogFile := { w with path := none }

def step (w : LogFile) : FileEvent → LogFile
  | .log now m_level level f deleted =>
      let accepted := m_level.toNat ≤ level.toNat
      let w := if accepted then w.refresh (granted now) else w
      let w := if deleted then w.unlink else w
      let w := if accepted then w.write (granted now) f else w
      { w with position := w.position + 1 }
  | .delete => { w.unlink with position := w.position + 1 }

/-- The constructor, for a file that may exist. -/
def new (filename : String) (existed : Bool) : LogFile :=
  { appender := { m_filename := filename }
    path := if existed then some 0 else none
    created := if existed then 1 else 0
    handle := { file := 0, call := none }
    position := 0
    written := [] : LogFile }.reopen (granted 0) none

def run (filename : String) (existed : Bool) (hist : List FileEvent) : LogFile :=
  hist.foldl step (new filename existed)

/-! ## The appender in it -/

theorem refresh_appender (os : Os) (w : LogFile) :
    (w.refresh os).appender = w.appender.refresh os := by
  unfold refresh FileLogAppender.refresh
  split <;> rfl

theorem refresh_position (os : Os) (w : LogFile) : (w.refresh os).position = w.position := by
  unfold refresh reopen
  split
  · dsimp only
    split <;> rfl
  · rfl

theorem new_appender (filename : String) (existed : Bool) :
    (new filename existed).appender = .new (granted 0) filename := by
  cases existed <;> rfl

/-- The appender of the file system is the appender of the code. -/
theorem step_appender (w : LogFile) (now : ℕ) (m_level level : Level) (f : LogFormatter)
    (deleted : Bool) : (w.step (.log now m_level level f deleted)).appender =
      w.appender.log (granted now) m_level level f := by
  unfold step FileLogAppender.log
  by_cases haccepted : m_level.toNat ≤ level.toNat
  · simp only [if_pos haccepted, ← refresh_appender]
    cases deleted <;> rfl
  · simp only [if_neg haccepted]
    cases deleted <;> rfl

/-! ## Uninterrupted runs of calls -/

end LogFile

/-- What the clock reads in a call that is accepted. -/
def FileEvent.reading : FileEvent → Option ℕ
  | .log now m_level level _ _ => if m_level.toNat ≤ level.toNat then some now else none
  | .delete => none

def FileEvent.deletes : FileEvent → Bool
  | .log _ _ _ _ deleted => deleted
  | .delete => true

namespace LogFile

/-- What the clock read in the last accepted call. -/
def lastReading (hist : List FileEvent) : Option ℕ := (hist.filterMap FileEvent.reading).getLast?

theorem lastReading_concat (hist : List FileEvent) (e : FileEvent) :
    lastReading (hist ++ [e]) = e.reading.or (lastReading hist) := by
  unfold lastReading
  rw [List.filterMap_append, List.getLast?_append]
  cases h : e.reading <;> simp [List.filterMap, h]

/-- In the history `before ++ first :: rest` the call `first` starts a run of accepted calls with
    the clock at `s` that lasts to the end. -/
structure StartsRun (s : ℕ) (before : List FileEvent) (first : FileEvent) (rest : List FileEvent) :
    Prop where
  before : lastReading before ≠ some s
  first : first.reading = some s
  rest : ∀ e ∈ rest, ∀ s', e.reading = some s' → s' = s

theorem StartsRun.concat {s : ℕ} {before rest : List FileEvent} {first e : FileEvent}
    (h : StartsRun s before first rest) (he : ∀ s', e.reading = some s' → s' = s) :
    StartsRun s before first (rest ++ [e]) := by
  refine ⟨h.before, h.first, fun e' he' => ?_⟩
  rcases List.mem_append.1 he' with he' | he'
  · exact h.rest e' he'
  · exact List.mem_singleton.1 he' ▸ he

/-! ## The invariant -/

/-- The stream was opened in the first call of the run of calls that the history ends with, on the
    file that is still at `m_filename` unless it has been deleted since. -/
def OpenedInRun (s : ℕ) (hist : List FileEvent) (handle : Handle) (path : Option ℕ) : Prop :=
  ∃ before first rest, hist = before ++ first :: rest ∧ StartsRun s before first rest ∧
    handle.call = some before.length ∧
    ((∀ e ∈ first :: rest, e.deletes = false) → path = some handle.file)

theorem OpenedInRun.concat {s : ℕ} {hist : List FileEvent} {handle : Handle} {path : Option ℕ}
    (h : OpenedInRun s hist handle path) {e : FileEvent}
    (he : ∀ s', e.reading = some s' → s' = s) :
    OpenedInRun s (hist ++ [e]) handle (if e.deletes then none else path) := by
  obtain ⟨before, first, rest, rfl, hrun, hcall, hpath⟩ := h
  refine ⟨before, first, rest ++ [e], by simp, hrun.concat he, hcall, fun hkept => ?_⟩
  rw [← List.cons_append] at hkept
  rw [if_neg (by simpa using hkept e (List.mem_append_right _ List.mem_cons_self))]
  exact hpath fun e' he' => hkept e' (List.mem_append_left _ he')

structure Current (hist : List FileEvent) (w : LogFile) : Prop where
  position : w.position = hist.length
  stream : w.appender.m_filestream = { is_open := true }
  lastTime : w.appender.m_lastTime = (lastReading hist).getD 0
  opened : ∀ s, lastReading hist = some s → OpenedInRun s hist w.handle w.path

theorem Current.new (filename : String) (existed : Bool) : Current [] (new filename existed) := by
  cases existed <;> exact ⟨rfl, rfl, rfl, fun s hs => absurd hs (by simp [lastReading])⟩

/-! ## One event -/

/-- A deletion, or a call that is not accepted. -/
theorem step_of_none {e : FileEvent} (he : e.reading = none) (w : LogFile) :
    w.step e =
      { w with path := if e.deletes then none else w.path, position := w.position + 1 } := by
  cases e with
  | delete => rfl
  | log now m_level level f deleted =>
      have hnot : ¬ m_level.toNat ≤ level.toNat := by
        intro haccepted
        exact absurd he (by simp [FileEvent.reading, haccepted])
      simp only [step, if_neg hnot]
      cases deleted <;> rfl

/-- A call that is accepted. -/
theorem step_of_some {e : FileEvent} {s : ℕ} (he : e.reading = some s) (w : LogFile) :
    ∃ f, w.step e =
      let v := { w.refresh (granted s) with
        path := if e.deletes then none else (w.refresh (granted s)).path }
      { v.write (granted s) f with position := w.position + 1 } := by
  cases e with
  | delete => exact absurd he (by simp [FileEvent.reading])
  | log now m_level level f deleted =>
      have haccepted : m_level.toNat ≤ level.toNat := by
        by_contra hnot
        exact absurd he (by simp [FileEvent.reading, hnot])
      obtain rfl : now = s := by simpa [FileEvent.reading, haccepted] using he
      refine ⟨f, ?_⟩
      simp only [step, if_pos haccepted]
      rw [← refresh_position (granted now) w]
      cases deleted <;> rfl

/-- The stream is reopened if the clock has changed, on the file at `m_filename`. -/
theorem refresh_spec {w : LogFile} (hstream : w.appender.m_filestream = { is_open := true })
    (s : ℕ) :
    (w.refresh (granted s)).appender.m_filestream = { is_open := true } ∧
    (w.refresh (granted s)).appender.m_lastTime = s ∧
    (w.refresh (granted s)).written = w.written ∧
    (s = w.appender.m_lastTime → w.refresh (granted s) = w) ∧
    (s ≠ w.appender.m_lastTime → (w.refresh (granted s)).handle.call = some w.position ∧
      (w.refresh (granted s)).path = some (w.refresh (granted s)).handle.file) := by
  by_cases hs : s = w.appender.m_lastTime
  · have hsame : w.refresh (granted s) = w := if_neg (not_not_intro hs)
    rw [hsame]
    exact ⟨hstream, hs.symm, rfl, fun _ => rfl, fun hne => absurd hs hne⟩
  · have hreopen : (w.appender.reopen (granted s)) =
        ({ w.appender with m_filestream := { is_open := true } }, true) := by
      unfold FileLogAppender.reopen
      rw [hstream]
      rfl
    have hrefresh : w.refresh (granted s) =
        { w.openPath (some w.position) with appender := { w.appender with
            m_filestream := { is_open := true }
            m_lastTime := s } } := by
      rw [refresh, if_pos (show (granted s).time ≠ _ from hs), reopen, hreopen]
      rfl
    rw [hrefresh]
    exact ⟨rfl, rfl, rfl, fun heq => absurd heq hs, fun _ => ⟨rfl, rfl⟩⟩

/-- What an accepted call leaves behind: one more event written, through the stream it found or has
    reopened. -/
theorem Current.step_some {hist : List FileEvent} {w : LogFile} (h : Current hist w)
    {e : FileEvent} {s : ℕ} (he : e.reading = some s) (hs : s ≠ 0) :
    Current (hist ++ [e]) (w.step e) ∧
    OpenedInRun s (hist ++ [e]) (w.step e).handle (w.step e).path ∧
    (w.step e).written = w.written ++ [⟨(w.step e).handle, (w.step e).path⟩] := by
  obtain ⟨f, hstep⟩ := step_of_some he w
  obtain ⟨hstream, htime, hwritten, hsame, hnew⟩ := refresh_spec h.stream s
  have hlast : lastReading (hist ++ [e]) = some s := by rw [lastReading_concat, he, Option.some_or]
  have hdone : ((w.refresh (granted s)).appender.write (granted s) f).m_filestream =
      { is_open := true } ∧
      ((w.refresh (granted s)).appender.write (granted s) f).m_lastTime = s := by
    unfold FileLogAppender.write
    split
    · exact ⟨hstream, htime⟩
    · rw [hstream]
      exact ⟨rfl, htime⟩
  have hopened : OpenedInRun s (hist ++ [e]) (w.step e).handle (w.step e).path := by
    rw [hstep]
    show OpenedInRun s (hist ++ [e]) (w.refresh (granted s)).handle
      (if e.deletes then none else (w.refresh (granted s)).path)
    by_cases hchanged : s = w.appender.m_lastTime
    · -- the run goes on
      have hold : lastReading hist = some s := by
        have hlt := h.lastTime
        cases hr : lastReading hist with
        | none =>
            rw [hr] at hlt
            exact absurd (hchanged.trans hlt) hs
        | some s' =>
            rw [hr] at hlt
            rw [hchanged, hlt]
            rfl
      rw [hsame hchanged]
      exact (h.opened s hold).concat fun s' hs' => Option.some.inj (hs'.symm.trans he)
    · -- a new run starts
      obtain ⟨hcall, hpath⟩ := hnew hchanged
      refine ⟨hist, e, [], rfl, ⟨fun hold => ?_, he, by simp⟩, by rw [hcall, h.position], ?_⟩
      · have hlt := h.lastTime
        rw [hold] at hlt
        exact hchanged hlt.symm
      · intro hkept
        rw [if_neg (by simpa using hkept e List.mem_cons_self)]
        exact hpath
  refine ⟨⟨?_, ?_, ?_, ?_⟩, hopened, ?_⟩
  · rw [hstep, List.length_append, ← h.position]
    rfl
  · rw [hstep]
    exact hdone.1
  · rw [hstep, hlast]
    exact hdone.2
  · intro s' hs'
    obtain rfl : s' = s := Option.some.inj (hs'.symm.trans hlast)
    exact hopened
  · rw [hstep]
    show (if (w.refresh (granted s)).appender.m_filestream.good then _ else _) = _
    rw [hstream, ← hwritten]
    rfl

theorem Current.step {hist : List FileEvent} {w : LogFile} (h : Current hist w) {e : FileEvent}
    (he : e.reading ≠ some 0) : Current (hist ++ [e]) (w.step e) := by
  cases hr : e.reading with
  | none =>
      have hlast : lastReading (hist ++ [e]) = lastReading hist := by
        rw [lastReading_concat, hr, Option.none_or]
      rw [step_of_none hr]
      refine ⟨by simp [h.position], h.stream, hlast ▸ h.lastTime, fun s hs => ?_⟩
      exact (h.opened s (hlast ▸ hs)).concat fun s' hs' => absurd (hr.symm.trans hs') (by simp)
  | some s => exact (h.step_some hr fun h0 => he (h0 ▸ hr)).1

/-! ## The result -/

theorem run_current (filename : String) (existed : Bool) {hist : List FileEvent}
    (hnonzero : ∀ e ∈ hist, e.reading ≠ some 0) : Current hist (run filename existed hist) :=
  exec_history (G := fun _ e => e.reading ≠ some 0) Current
    (fun _ _ _ _ h he hstep => Option.some.inj hstep ▸ h.step he) [] (.new filename existed)
    (along_of_mem hnonzero _) (exec_total step hist _)

/-- **Events do not go to files deleted in an earlier run of calls.** Whatever the clock did before,
an accepted call writes its event once, through a stream that was opened in the first of the
uninterrupted accepted calls with the same clock reading that it belongs to; unless the file has
been deleted since, the event goes to the file that is at `m_filename`. -/
theorem written_current (filename : String) (existed : Bool) {hist : List FileEvent} {e : FileEvent}
    {s : ℕ} (hnonzero : ∀ e' ∈ hist ++ [e], e'.reading ≠ some 0) (he : e.reading = some s) :
    ∃ handle path, (run filename existed (hist ++ [e])).written =
        (run filename existed hist).written ++ [⟨handle, path⟩] ∧
      OpenedInRun s (hist ++ [e]) handle path := by
  have hcurrent : Current hist (run filename existed hist) :=
    run_current filename existed fun e' he' => hnonzero e' (List.mem_append_left _ he')
  have hs : s ≠ 0 := by
    rintro rfl
    exact hnonzero e (List.mem_append_right _ List.mem_cons_self) he
  obtain ⟨-, hopened, hwritten⟩ := hcurrent.step_some he hs
  refine ⟨_, _, ?_, hopened⟩
  rw [← hwritten, run, List.foldl_append]
  rfl

/-- The clock goes back to an earlier second, and the file was deleted in between. -/
theorem written_current_sample :
    let f := LogFormatter.new "%m%n"
    let hist : List FileEvent := [.log 5 .debug .info f false, .log 6 .debug .info f false, .delete]
    ∃ handle path, (run "log.txt" false (hist ++ [.log 5 .debug .info f false])).written =
        (run "log.txt" false hist).written ++ [⟨handle, path⟩] ∧
      OpenedInRun 5 (hist ++ [.log 5 .debug .info f false]) handle path := by
  intro f hist
  refine written_current "log.txt" false (fun e' he' => ?_) rfl
  simp only [hist, List.cons_append, List.nil_append, List.mem_cons, List.not_mem_nil,
    or_false] at he'
  rcases he' with rfl | rfl | rfl | rfl <;> decide

end LogFile
end Ipmsg
