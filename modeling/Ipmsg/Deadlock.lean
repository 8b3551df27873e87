import Ipmsg.Config.Locked
import Mathlib.Data.Fintype.Fin

set_option autoImplicit false

/-! # No deadlock inside the library

Threads run any of the operations of the configuration and of the loggers, in any interleaving. All
operations take the locks in one order: that of the registry, of a variable, of the manager, of a
logger, of the root logger and of an appender. -/

namespace Ipmsg

open Prog

/-! ## The operations -/

/-- The operations on loggers and appenders. -/
inductive LogOp
  | log (p : LoggerPtr) (level : Level) (event : String)
  | setLevel (p : LoggerPtr) (val : Level)
  | setFormatterPtr (p : LoggerPtr) (val : Option LogFormatter)
  | setFormatter (p : LoggerPtr) (val : String)
  | getFormatter (p : LoggerPtr)
  | addAppender (p : LoggerPtr) (ap : AppenderPtr)
  | clearAppenders (p : LoggerPtr)
  | loggerToYamlString (p : LoggerPtr)
  | newStdoutLogAppender
  | newFileLogAppender (filename : String)
  | appenderSetLevel (i : AppenderPtr) (val : Level)
  | appenderSetFormatter (i : AppenderPtr) (val : Option LogFormatter)
  | appenderGetFormatter (i : AppenderPtr)
  | appenderToYamlString (i : AppenderPtr)
  | getLogger (name : String)
  | toYamlString

/-- The operations of the library. A listener that is added takes no locks. -/
inductive LibraryOp (K : ConfigTypes)
  | onLog (o : LogOp)
  | lookup (t : Option K.Ty) (name : String) (default_value : ValueOf K t)
  | find (t : Option K.Ty) (name : String)
  | lookupBase (name : String)
  | loadFromYaml (root : Node)
  | getValue (t : Option K.Ty) (n : ℕ)
  | setValue (t : Option K.Ty) (n : ℕ) (v : ValueOf K t)
  | fromString (t : Option K.Ty) (n : ℕ) (val : String)
  | toString (t : Option K.Ty) (n : ℕ)
  | addListener (t : Option K.Ty) (n : ℕ) (ocb : Listener (ValueOf K t))
  | delListener (t : Option K.Ty) (n key : ℕ)
  | clearListener (t : Option K.Ty) (n : ℕ)
  | getListener (t : Option K.Ty) (n key : ℕ)

/-- The program of an operation on the loggers. -/
def LogOp.prog (Y : YamlCpp) : LogOp → LogProg Unit
  | log p level event => (Locked.logLevel p level event).run.dropped
  | setLevel p val => Locked.setLevel p val
  | setFormatterPtr p val => Locked.setFormatterPtr p val
  | setFormatter p val => Locked.setFormatter p val
  | getFormatter p => (Locked.getFormatter p).dropped
  | addAppender p ap => Locked.addAppender p ap
  | clearAppenders p => Locked.clearAppenders p
  | loggerToYamlString p => (Locked.loggerToYamlString Y p).run.dropped
  | newStdoutLogAppender => Locked.newStdoutLogAppender.dropped
  | newFileLogAppender filename => (Locked.newFileLogAppender filename).dropped
  | appenderSetLevel i val => Locked.appenderSetLevel i val
  | appenderSetFormatter i val => Locked.appenderSetFormatter i val
  | appenderGetFormatter i => (Locked.appenderGetFormatter i).dropped
  | appenderToYamlString i => (Locked.appenderToYamlString Y i).run.dropped
  | getLogger name => (Locked.getLogger name).dropped
  | toYamlString => (Locked.toYamlString Y).run.dropped

section
variable {K : ConfigTypes} [DecidableEq K.Ty] (Y : YamlCpp) (M : MessageTexts K)
  (toStr : ∀ t, K.El t → Except StdException String)

/-- The program of an operation. -/
def LibraryOp.prog : LibraryOp K → ConfigProg K Unit
  | onLog o => (o.prog Y).zoom Shared.log fun s l => { s with log := l }
  | lookup t name default_value => (Locked.lookup Y M toStr t name default_value).run.dropped
  | find t name => (Locked.find t name).dropped
  | lookupBase name => (Locked.lookupBase name).dropped
  | loadFromYaml root => (Locked.loadFromYaml Y M root).run.dropped
  | getValue t n => (Locked.getValue t n).dropped
  | setValue t n v => (Locked.setValue t n v).run.dropped
  | fromString t n val => (Locked.fromString Y M t n val).run.dropped
  | toString t n => (Locked.toString Y M toStr t n).run.dropped
  | addListener t n ocb => (Locked.addListener t n (.user ocb)).dropped
  | delListener t n key => Locked.delListener t n key
  | clearListener t n => Locked.clearListener t n
  | getListener t n key => (Locked.getListener t n key).dropped

/-- The state after the static objects are constructed: the manager, and `logs` with its listener. -/
def Shared.init (os : ℕ → Os) : Shared K where
  log := LogState.new os
  var := Function.update (fun _ _ => none) none (Function.update (fun _ => none) 0 (some
    { m_name := "logs"
      m_val := (∅ : LogDefineSet)
      m_cbs := (∅ : OrdMap ℕ (SharedListener K none)).assign (1, .onLoggerConfChanged) }))
  nextVar := 1
  datas := (∅ : OrdMap String (VarPtr K)).assign ("logs", (none, 0))
  s_fun_id := Function.update (fun _ => 0) none 1

end

/-! ## The order of the locks -/

namespace Locked

/-- The program takes only locks that come after `r`, in order. -/
abbrev InOrder {K : ConfigTypes} {α : Type} (r : Fin 7) (p : ConfigProg K α) : Prop :=
  p.Above Lock.rank (fun s => Rooted s.log) r

section
variable {K : ConfigTypes} {r : Fin 7}

theorem onLog_inOrder {p : LogProgT Unit} (hp : After r p.run) :
    InOrder r (onLog p : ConfigProgT K Unit).run :=
  (hp.zoom fun _ _ => rfl).bind fun _ => above_pure r _

theorem logRoot_inOrder (hr : r ≤ 3) (level : Level) (event : String) :
    InOrder r (logRoot level event : ConfigProgT K Unit).run :=
  above_get_bindT fun _ _ => onLog_inOrder (logLevel_after hr _ level event)

theorem call_inOrder (hr : r ≤ 2) {t : Option K.Ty} (cb : SharedListener K t) (a b : ValueOf K t) :
    InOrder r (call cb a b).run := by
  cases cb with
  | user cb => exact above_ofExcept _
  | onLoggerConfChanged => exact onLog_inOrder (logsListener_after hr a b)

theorem readVar_inOrder {α : Type} (hr : r < 2) (t : Option K.Ty) (n : ℕ)
    (f : SharedVar K t → α) : InOrder r (readVar t n f) :=
  above_locked hr (above_get_bind fun _ _ => above_pure _ _)

mutual

/-- `ListAllMember` only logs. -/
theorem listAllMember_inOrder (Y : YamlCpp) (hr : r ≤ 3) (pfx : String) (node : Node)
    (output : List (String × Node)) :
    InOrder r (listAllMember Y pfx node output : ConfigProgT K _).run := by
  unfold listAllMember
  split
  · exact (logRoot_inOrder hr .error _).bindT fun _ => above_pureT output
  · match node with
    | .map pairs => exact listPairs_inOrder Y hr pfx pairs _
    | .null | .scalar _ | .seq _ => exact above_pureT _

theorem listPairs_inOrder (Y : YamlCpp) (hr : r ≤ 3) (pfx : String) :
    ∀ (pairs output : List (String × Node)),
      InOrder r (listPairs Y pfx pairs output : ConfigProgT K _).run
  | [], output => above_pureT output
  | (key, node) :: pairs, output => by
      unfold listPairs
      exact (listAllMember_inOrder Y hr (joinName pfx key) node output).bindT fun output =>
        listPairs_inOrder Y hr pfx pairs output

end

end

section
variable {K : ConfigTypes} [DecidableEq K.Ty] {r : Fin 7}

theorem writeVar_inOrder (hr : r < 2) (t : Option K.Ty) (n : ℕ)
    (f : SharedVar K t → SharedVar K t) : InOrder r (writeVar t n f) :=
  above_locked hr (above_modify fun _ h => h)

theorem setValue_inOrder (hr : r < 2) (t : Option K.Ty) (n : ℕ) (v : ValueOf K t) :
    InOrder r (setValue t n v).run := by
  have hlt : r < (Lock.variable n).rank := hr
  refine (above_lockedT hlt ?_).bindT fun changed => ?_
  · refine above_get_bindT fun s _ => ?_
    cases s.var t n with
    | none => exact above_pureT false
    | some x =>
        dsimp only
        split
        · exact above_pureT false
        · refine Above.bindT ?_ fun _ => above_pureT true
          -- the listeners are called while the lock of the variable is held
          exact above_foldlMT (fun _ i _ => call_inOrder (le_refl 2) i.2 x.m_val v) ()
  · split
    · exact above_lift (writeVar_inOrder hr t n _)
    · exact above_pureT ()

theorem addListener_inOrder (hr : r < 2) (t : Option K.Ty) (n : ℕ) (ocb : SharedListener K t) :
    InOrder r (addListener t n ocb) :=
  above_locked hr (above_access (fun _ h => h) fun _ _ => above_pure _ _)

variable (Y : YamlCpp) (M : MessageTexts K) (toStr : ∀ t, K.El t → Except StdException String)

omit [DecidableEq K.Ty] in
theorem toString_inOrder (hr : r < 2) (t : Option K.Ty) (n : ℕ) :
    InOrder r (toString Y M toStr t n).run := by
  refine (above_lift (readVar_inOrder hr t n _)).bindT fun text => ?_
  match text with
  | none => exact above_pureT ""
  | some (.ok s) => exact above_pureT s
  | some (.error e) =>
      exact (logRoot_inOrder (hr.le.trans (by decide)) .error _).bindT fun _ => above_pureT ""

theorem fromString_inOrder (hr : r < 2) (t : Option K.Ty) (n : ℕ) (val : String) :
    InOrder r (fromString Y M t n val).run := by
  have hset : InOrder r (do
      setValue t n (← Prog.ofExcept ((fromStr Y t val).mapError .exception)) :
        ConfigProgT K Unit).run := (above_ofExcept _).bindT fun v => setValue_inOrder hr t n v
  refine hset.bind fun result => ?_
  match result with
  | .ok _ => exact above_pure r _
  | .error (.crash d) => exact above_pure r _
  | .error (.exception e) =>
      exact (logRoot_inOrder (hr.le.trans (by decide)) .error _).bindT fun _ => above_pureT false

omit [DecidableEq K.Ty] in
theorem lookupBase_inOrder (hr : r < 1) (name : String) :
    InOrder r (lookupBase name : ConfigProg K _) :=
  above_locked hr (above_get_bind fun _ _ => above_pure _ _)

theorem find_inOrder (hr : r < 1) (t : Option K.Ty) (name : String) : InOrder r (find t name) :=
  above_locked hr (above_get_bind fun _ _ => above_pure _ _)

theorem lookup_inOrder (hr : r < 1) (t : Option K.Ty) (name : String)
    (default_value : ValueOf K t) : InOrder r (lookup Y M toStr t name default_value).run := by
  have hlog : ∀ level event,
      InOrder Lock.registry.rank (logRoot level event : ConfigProgT K Unit).run :=
    fun level event => logRoot_inOrder (by decide) level event
  refine above_lockedT hr (above_get_bindT fun s _ => ?_)
  cases s.datas.find? name with
  | none =>
      dsimp only
      split
      · exact (hlog .error _).bindT fun _ => above_throw _
      · refine (above_lift ?_).bindT fun n => above_pureT (some n)
        exact above_access (fun _ h => h) fun _ _ => above_pure _ _
  | some it =>
      dsimp only
      split
      · exact (hlog .info _).bindT fun _ => above_pureT _
      · split
        · -- the variable is printed while the lock of the registry is held
          refine (toString_inOrder Y M toStr (by decide) it.2.1 it.2.2).bindT fun real => ?_
          exact (onLog_inOrder (log_after (by decide) _ _ _)).bindT fun _ => above_pureT none
        · exact above_pureT none

theorem loadEntry_inOrder (hr : r < 1) (i : String × Node) : InOrder r (loadEntry Y M i).run := by
  unfold loadEntry
  split
  · exact above_pureT ()
  · refine (above_lift (lookupBase_inOrder hr _)).bindT fun ptr => ?_
    cases ptr with
    | none => exact above_pureT ()
    | some ptr =>
        have hr2 : r < 2 := hr.trans (by decide)
        exact (fromString_inOrder Y M hr2 ptr.1 ptr.2 _).bindT fun _ => above_pureT ()

theorem loadFromYaml_inOrder (hr : r < 1) (root : Node) : InOrder r (loadFromYaml Y M root).run := by
  have hr3 : r ≤ 3 := hr.le.trans (by decide)
  refine (listAllMember_inOrder Y hr3 "" root []).bindT fun all_nodes => ?_
  exact above_foldlMT (fun _ i _ => loadEntry_inOrder Y M hr i) ()

end

end Locked

/-! ## The result -/

theorem LogOp.prog_after (Y : YamlCpp) (o : LogOp) : Locked.After 2 (o.prog Y) := by
  have h3 : (2 : Fin 7) ≤ 3 := by decide
  have h6 : (2 : Fin 7) < 6 := by decide
  cases o with
  | log p level event => exact (Locked.logLevel_after h3 p level event).dropped
  | setLevel p val => exact Locked.setLevel_after p val
  | setFormatterPtr p val => exact Locked.setFormatterPtr_after h3 p val
  | setFormatter p val => exact Locked.setFormatter_after h3 p val
  | getFormatter p => exact (Locked.getFormatter_after h3 p).dropped
  | addAppender p ap => exact Locked.addAppender_after h3 p ap
  | clearAppenders p => exact Locked.clearAppenders_after h3 p
  | loggerToYamlString p => exact (Locked.loggerToYamlString_after h3 Y p).dropped
  | newStdoutLogAppender => exact Locked.newStdoutLogAppender_after.dropped
  | newFileLogAppender filename => exact (Locked.newFileLogAppender_after h6 filename).dropped
  | appenderSetLevel i val => exact Locked.after_updateAppender i _
  | appenderSetFormatter i val => exact Locked.appenderSetFormatter_after h6 i val
  | appenderGetFormatter i => exact (Locked.appenderGetFormatter_after h6 i).dropped
  | appenderToYamlString i => exact (Locked.appenderToYamlString_after h6 Y i).dropped
  | getLogger name => exact (Locked.getLogger_after (le_refl 2) name).dropped
  | toYamlString => exact (Locked.toYamlString_after (le_refl 2) Y).dropped

section
variable {K : ConfigTypes} [DecidableEq K.Ty] (Y : YamlCpp) (M : MessageTexts K)
  (toStr : ∀ t, K.El t → Except StdException String)

theorem LibraryOp.prog_inOrder (o : LibraryOp K) : Locked.InOrder 0 (o.prog Y M toStr) := by
  have h1 : (0 : Fin 7) < 1 := by decide
  have h2 : (0 : Fin 7) < 2 := by decide
  cases o with
  | onLog o => exact ((o.prog_after Y).mono (by decide)).zoom fun _ _ => rfl
  | lookup t name default_value =>
      exact (Locked.lookup_inOrder Y M toStr h1 t name default_value).dropped
  | find t name => exact (Locked.find_inOrder h1 t name).dropped
  | lookupBase name => exact (Locked.lookupBase_inOrder h1 name).dropped
  | loadFromYaml root => exact (Locked.loadFromYaml_inOrder Y M h1 root).dropped
  | getValue t n => exact (Locked.readVar_inOrder h2 t n _).dropped
  | setValue t n v => exact (Locked.setValue_inOrder h2 t n v).dropped
  | fromString t n val => exact (Locked.fromString_inOrder Y M h2 t n val).dropped
  | toString t n => exact (Locked.toString_inOrder Y M toStr h2 t n).dropped
  | addListener t n ocb => exact (Locked.addListener_inOrder h2 t n _).dropped
  | delListener t n key => exact Locked.writeVar_inOrder h2 t n _
  | clearListener t n => exact Locked.writeVar_inOrder h2 t n _
  | getListener t n key => exact (Locked.readVar_inOrder h2 t n _).dropped

/-- **The library does not deadlock.** However many threads run whatever operations, and however
    their steps interleave, no threads ever wait for locks held by each other or by themselves. -/
theorem library_not_deadlock {θ : Type} [DecidableEq θ] (os : ℕ → Os)
    {c : Pool θ Lock (Shared K)}
    (hc : Pool.Reachable (Set.range (LibraryOp.prog Y M toStr)) (Pool.idle (Shared.init os)) c) :
    ¬ c.Deadlock := by
  have hops : ∀ p ∈ Set.range (LibraryOp.prog Y M toStr),
      p.Ordered Lock.rank (fun s => Rooted s.log) [] [] := by
    rintro p ⟨o, rfl⟩
    exact o.prog_inOrder Y M toStr [] fun e he => absurd he List.not_mem_nil
  exact Pool.not_deadlock hops (Rooted.new os) hc

end

/-- A program without configuration variables of its own. -/
def noTypes : ConfigTypes where
  Ty := Empty
  El := nofun
  beq := nofun
  fromStr := nofun

instance : DecidableEq noTypes.Ty := inferInstanceAs (DecidableEq Empty)

/-- The operations of a program without variables of its own. -/
def loggerOps : Set (ConfigProg noTypes Unit) :=
  Set.range (LibraryOp.prog (YamlCpp.flow .null "") { what := fun _ => "", typeName := fun _ => "" }
    fun t => Empty.elim t)

/-- Thread 0 holds the lock of an appender, thread 1 holds that of the root logger and waits for
    thread 0, and thread 2 waits for thread 1. -/
theorem library_not_deadlock_sample :
    ∃ c : Pool (Fin 3) Lock (Shared noTypes),
      Pool.Reachable loggerOps
        (Pool.idle (Shared.init fun _ => { time := 0, opens := true, writes := true })) c ∧
      c.WaitsFor 1 0 ∧ c.WaitsFor 2 1 ∧ ¬ c.Deadlock := by
  have hget : Pool.Reachable loggerOps (Pool.idle (Shared.init fun _ =>
      { time := 0, opens := true, writes := true }) : Pool (Fin 3) Lock (Shared noTypes)) _ :=
    .single (.start 0 rfl ⟨.onLog (.appenderGetFormatter 0), rfl⟩)
  have hheld := hget.tail (.acquire 0 rfl (by unfold Pool.Free; decide))
  have hset := hheld.tail (.start 1 rfl ⟨.onLog (.setFormatterPtr "root" none), rfl⟩)
  have hlocked := hset.tail (.acquire 1 rfl (by unfold Pool.Free; decide))
  have hloop := (hlocked.tail (.access 1 rfl)).tail (.access 1 rfl)
  have hlast := hloop.tail (.start 2 rfl ⟨.onLog (.getFormatter "root"), rfl⟩)
  refine ⟨_, hlast, ?_, ?_, library_not_deadlock _ _ _ _ hlast⟩
  · exact ⟨.appender 0, .exclusive, _, .exclusive, rfl, by decide, by decide⟩
  · exact ⟨.logger "root", .exclusive, _, .exclusive, rfl, by decide, by decide⟩

end Ipmsg
