import Ipmsg.Log.Output

set_option autoImplicit false

/-! # What a stream does alone

Whatever a stream writes and whenever, what is in its file and what it still holds grow by what it
takes. If no write fails it takes all that is inserted, and after `%n` it holds nothing. -/

namespace Ipmsg
namespace Output

open Prog

/-! ## What a stream takes -/

/-- No write to a file fails. -/
def Works (s : Output) : Prop := ∀ n, (s.writeOuts n).fails = false

/-- The state after the stream of `i` has written `moved`; it holds `held`. -/
def streamed (s : Output) (i : AppenderPtr) (name : String) (moved held line : List UInt8)
    (turn : ℕ) : Output :=
  { s with
    files := Function.update s.files name (s.files name ++ moved.map fun b => (some i, b))
    buffer := Function.update s.buffer i held
    line := Function.update s.line i line
    turn }

/-- The stream of `i`, open on the file `name`, takes the bytes. -/
def Takes (i : AppenderPtr) (name : String) (bytes : List UInt8) (s s' : Output) : Prop :=
  ∃ moved held turn, s' = s.streamed i name moved held (s.line i ++ bytes) turn ∧
    moved ++ held = s.buffer i ++ bytes

variable {i : AppenderPtr} {name : String} {s s' s'' : Output}

theorem streamed_self (s : Output) (i : AppenderPtr) (name : String) (turn : ℕ) :
    s.streamed i name [] (s.buffer i) (s.line i) turn = { s with turn } := by
  simp [streamed]

theorem streamed_streamed (s : Output) (i : AppenderPtr) (name : String)
    (moved held line moved' held' line' : List UInt8) (turn turn' : ℕ) :
    (s.streamed i name moved held line turn).streamed i name moved' held' line' turn' =
      s.streamed i name (moved ++ moved') held' line' turn' := by
  simp [streamed]

theorem streamed_buffer (s : Output) (moved held line : List UInt8) (turn : ℕ) :
    (s.streamed i name moved held line turn).buffer i = held := Function.update_self ..

theorem streamed_line (s : Output) (moved held line : List UInt8) (turn : ℕ) :
    (s.streamed i name moved held line turn).line i = line := Function.update_self ..

theorem Takes.refl (s : Output) : Takes i name [] s s :=
  ⟨[], s.buffer i, s.turn, by rw [List.append_nil, streamed_self],
    by rw [List.nil_append, List.append_nil]⟩

theorem Takes.trans {b b' : List UInt8} (h : Takes i name b s s') (h' : Takes i name b' s' s'') :
    Takes i name (b ++ b') s s'' := by
  obtain ⟨moved, held, turn, rfl, heq⟩ := h
  obtain ⟨moved', held', turn', rfl, heq'⟩ := h'
  rw [streamed_buffer] at heq'
  refine ⟨moved ++ moved', held', turn', ?_, ?_⟩
  · rw [streamed_streamed, streamed_line, List.append_assoc]
  · rw [List.append_assoc, heq', ← List.append_assoc, heq, List.append_assoc]

theorem Takes.loggers {b : List UInt8} (h : Takes i name b s s') : s'.loggers = s.loggers := by
  obtain ⟨-, -, -, rfl, -⟩ := h
  rfl

theorem Takes.console {b : List UInt8} (h : Takes i name b s s') : s'.console = s.console := by
  obtain ⟨-, -, -, rfl, -⟩ := h
  rfl

theorem Takes.printed {b : List UInt8} (h : Takes i name b s s') : s'.printed = s.printed := by
  obtain ⟨-, -, -, rfl, -⟩ := h
  rfl

theorem Takes.writeOuts {b : List UInt8} (h : Takes i name b s s') :
    s'.writeOuts = s.writeOuts := by
  obtain ⟨-, -, -, rfl, -⟩ := h
  rfl

theorem Takes.works {b : List UInt8} (h : Takes i name b s s') (hworks : s.Works) : s'.Works :=
  fun n => h.writeOuts ▸ hworks n

/-! ## Writing -/

theorem put_eq (i : AppenderPtr) (name : String) (s : Output) :
    put i name s =
      s.streamed i name ((s.buffer i).take 1) ((s.buffer i).drop 1) (s.line i) s.turn := by
  unfold put
  cases hbuffer : s.buffer i with
  | nil =>
      have hself := streamed_self s i name s.turn
      rw [hbuffer] at hself
      exact hself.symm
  | cons b rest => simp [streamed]

theorem puts_run (i : AppenderPtr) (name : String) (n : ℕ) : ∀ s : Output,
    (puts i name n).run s = ((), s.streamed i name ((s.buffer i).take n) ((s.buffer i).drop n)
      (s.line i) s.turn) := by
  induction n with
  | zero =>
      intro s
      rw [List.take_zero, List.drop_zero]
      exact congrArg (Prod.mk ()) (streamed_self s i name s.turn).symm
  | succ n ih =>
      intro s
      have hput : (puts i name (n + 1)).run s = (puts i name n).run (put i name s) := rfl
      rw [hput, put_eq, ih, streamed_buffer, streamed_line, streamed_streamed, List.drop_drop,
        Nat.add_comm 1 n]
      show ((), s.streamed i name _ _ _ s.turn) = _
      rw [Nat.add_comm n 1, ← List.take_add]

theorem writeOut_run (i : AppenderPtr) (name : String) (all : Bool) (s : Output) :
    ∃ good s', (writeOut i name all).run s = (good, s') ∧ Takes i name [] s s' ∧
      (s.Works → good = true ∧ (all = true → s'.buffer i = [])) := by
  obtain ⟨n, hn⟩ : ∃ n, n = if all && !(s.writeOuts s.turn).fails then (s.buffer i).length
      else (s.writeOuts s.turn).count := ⟨_, rfl⟩
  have hrun : (writeOut i name all).run s = (!(s.writeOuts s.turn).fails,
      s.streamed i name ((s.buffer i).take n) ((s.buffer i).drop n) (s.line i) (s.turn + 1)) := by
    have hputs := puts_run i name n { s with turn := s.turn + 1 }
    show (puts i name _ >>= fun _ => return !(s.writeOuts s.turn).fails : OutputProg Bool).run
      { s with turn := s.turn + 1 } = _
    rw [run_bind, ← hn, hputs]
    rfl
  refine ⟨_, _, hrun, ⟨_, _, _, by rw [List.append_nil], ?_⟩, fun hworks => ⟨?_, fun hall => ?_⟩⟩
  · rw [List.take_append_drop, List.append_nil]
  · rw [hworks]
    rfl
  · rw [hworks, hall] at hn
    rw [streamed_buffer, hn]
    exact List.drop_length

theorem insert_run (i : AppenderPtr) (name : String) (bytes : List UInt8) (s : Output) :
    ∃ good s', (insert i name bytes).run s = (good, s') ∧ Takes i name bytes s s' ∧
      (s.Works → good = true) := by
  obtain ⟨good, s', hrun, htakes, hgood⟩ := writeOut_run i name false { s with
    buffer := Function.update s.buffer i (s.buffer i ++ bytes)
    line := Function.update s.line i (s.line i ++ bytes) }
  have hfirst : Takes i name bytes s { s with
      buffer := Function.update s.buffer i (s.buffer i ++ bytes)
      line := Function.update s.line i (s.line i ++ bytes) } :=
    ⟨[], s.buffer i ++ bytes, s.turn, by simp [streamed], List.nil_append _⟩
  have hall := hfirst.trans htakes
  rw [List.append_nil] at hall
  exact ⟨good, s', hrun, hall, fun hworks => (hgood hworks).1⟩

theorem close_run (i : AppenderPtr) (name : String) (s : Output) :
    ∃ s', (close i name).run s = ((), s') ∧ s'.loggers = s.loggers ∧ s'.printed = s.printed ∧
      s'.writeOuts = s.writeOuts ∧ (s.Works → Takes i name [] s s') := by
  obtain ⟨good, s₁, hrun, htakes, hgood⟩ := writeOut_run i name true s
  refine ⟨{ s₁ with buffer := Function.update s₁.buffer i [] }, ?_, htakes.loggers, htakes.printed,
    htakes.writeOuts, fun hworks => ?_⟩
  · rw [close, run_bind, hrun]
    rfl
  · -- nothing is lost
    have hsame : Function.update s₁.buffer i [] = s₁.buffer := by
      rw [Function.update_eq_self_iff]
      exact ((hgood hworks).2 rfl).symm
    rwa [hsame]

theorem cout_run (bytes : List UInt8) : ∀ s : Output,
    (cout bytes).run s = ((), { s with console := s.console ++ bytes }) := by
  induction bytes with
  | nil =>
      intro s
      simp [cout]
  | cons b bytes ih =>
      intro s
      rw [cout, List.foldlM_cons, run_bind]
      refine (ih { s with console := s.console ++ [b] }).trans ?_
      simp

/-! ## An event -/

section
variable (text : FormatItem → Level → LogEvent → List UInt8)

theorem formatItem_run (level : Level) (event : LogEvent) (i : AppenderPtr) (name : String)
    (item : FormatItem) (s : Output) :
    ∃ good s', (formatItem text level event i name item).run s = (good, s') ∧
      Takes i name (text item level event) s s' ∧
      (s.Works → good = true ∧ (item = .newLineFormatItem → s'.buffer i = [])) := by
  obtain ⟨good, s₁, hrun, htakes, hgood⟩ := insert_run i name (text item level event) s
  have hnext : (formatItem text level event i name item).run s = Prog.run
      (if good ∧ item = .newLineFormatItem then writeOut i name true else return good) s₁ := by
    rw [formatItem, run_bind, hrun]
  by_cases hflush : good = true ∧ item = .newLineFormatItem
  · obtain ⟨good', s', hrun', htakes', hgood'⟩ := writeOut_run i name true s₁
    have hall := htakes.trans htakes'
    rw [List.append_nil] at hall
    rw [hnext, if_pos hflush, hrun']
    refine ⟨good', s', rfl, hall, fun hworks => ?_⟩
    obtain ⟨hgood', hempty⟩ := hgood' (htakes.works hworks)
    exact ⟨hgood', fun _ => hempty rfl⟩
  · rw [hnext, if_neg hflush]
    exact ⟨good, s₁, rfl, htakes,
      fun hworks => ⟨hgood hworks, fun hitem => absurd ⟨hgood hworks, hitem⟩ hflush⟩⟩

/-- What a formatter prints to the stream of a file. -/
theorem formatTo_run (level : Level) (event : LogEvent) (i : AppenderPtr)
    (members : FileLogAppender) (f : LogFormatter) (s : Output) :
    ∃ good bytes s', (formatTo text level event i members f).run s = (good, s') ∧
      Takes i members.m_filename bytes s s' ∧
      (s.Works → members.accepts = true → good = true ∧ bytes = f.lineOf text level event ∧
        (f.EndsLine → s'.buffer i = [])) := by
  have hitems : ∀ (items : List FormatItem) (good : Bool) (s : Output),
      ∃ good' bytes s', Prog.run (items.foldlM (fun (good : Bool) item =>
          if good then formatItem text level event i members.m_filename item else return false)
          good) s = (good', s') ∧ Takes i members.m_filename bytes s s' ∧
        (s.Works → good = true → good' = true ∧
          bytes = items.flatMap (fun item => text item level event) ∧
          (items.getLast? = some .newLineFormatItem → s'.buffer i = [])) := by
    intro items
    induction items with
    | nil =>
        intro good s
        exact ⟨good, [], s, rfl, .refl s, fun _ hgood => ⟨hgood, rfl, nofun⟩⟩
    | cons item items ih =>
        intro good s
        rw [List.foldlM_cons, run_bind]
        cases good with
        | false =>
            obtain ⟨good', bytes, s', hrun, htakes, -⟩ := ih false s
            exact ⟨good', bytes, s', hrun, htakes, fun _ => nofun⟩
        | true =>
            obtain ⟨good₁, s₁, hrun₁, htakes₁, hgood₁⟩ :=
              formatItem_run text level event i members.m_filename item s
            obtain ⟨good', bytes, s', hrun, htakes, hgood⟩ := ih good₁ s₁
            rw [if_pos rfl, hrun₁]
            refine ⟨good', _, s', hrun, htakes₁.trans htakes, fun hworks _ => ?_⟩
            obtain ⟨hgood₁, hempty₁⟩ := hgood₁ hworks
            obtain ⟨hgood', hbytes, hempty⟩ := hgood (htakes₁.works hworks) hgood₁
            refine ⟨hgood', by rw [hbytes, List.flatMap_cons], fun hlast => ?_⟩
            cases items with
            | nil =>
                -- nothing has been printed since the item
                obtain rfl : item = .newLineFormatItem := Option.some.inj hlast
                obtain ⟨-, rfl⟩ := Prod.mk.inj hrun
                exact hempty₁ rfl
            | cons item' items => exact hempty (by rwa [List.getLast?_cons_cons] at hlast)
  exact hitems f.m_items members.accepts s

end

end Output
end Ipmsg
