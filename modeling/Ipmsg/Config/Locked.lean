import Ipmsg.Config.Lookup
import Ipmsg.Log.LockOrder

set_option autoImplicit false

/-! # Configuration variables with their locks

The operations of `Config` and `ConfigVar` as programs that take the locks of the code, over the
registry, the variables and the loggers. A listener takes no locks, except for the one `LogIniter`
registers on `logs`. What `e.what()` and `typeid(T).name()` say is a parameter. -/

namespace Ipmsg

/-! ## The shared state -/

/-- The value type of a variable: that of `logs`, or one of the types `K`. -/
def ValueOf (K : ConfigTypes) : Option K.Ty → Type
  | none => LogDefineSet
  | some t => K.El t

/-- A registered listener. -/
inductive SharedListener (K : ConfigTypes) : Option K.Ty → Type
  | user {t : Option K.Ty} (cb : Listener (ValueOf K t)) : SharedListener K t
  | onLoggerConfChanged : SharedListener K none

/-- `ConfigVar<T>` with its base class. -/
structure SharedVar (K : ConfigTypes) (t : Option K.Ty) where
  m_name : String
  m_val : ValueOf K t
  m_cbs : OrdMap ℕ (SharedListener K t)

/-- A non-null `ConfigVarBase::ptr`: variables are numbered as they are constructed. -/
abbrev VarPtr (K : ConfigTypes) := Option K.Ty × ℕ

/-- The loggers, the variables and the registry. -/
structure Shared (K : ConfigTypes) where
  log : LogState
  var : ∀ t, ℕ → Option (SharedVar K t)
  nextVar : ℕ
  /-- `Config::GetDatas()`. -/
  datas : OrdMap String (VarPtr K)
  /-- The counter of `addListener`, one for each type. -/
  s_fun_id : Option K.Ty → ℕ

/-- What the C++ implementation chooses in the texts of messages. -/
structure MessageTexts (K : ConfigTypes) where
  what : StdException → String
  typeName : Option K.Ty → String

/-- How an operation ends early: by an exception, or with the process. -/
inductive Abort
  | exception (e : StdException)
  | crash (d : NullDeref)
  deriving DecidableEq, Repr

abbrev ConfigProg (K : ConfigTypes) := Prog Lock (Shared K)

abbrev ConfigProgT (K : ConfigTypes) := ExceptT Abort (ConfigProg K)

namespace Locked

variable {K : ConfigTypes}

/-- The state as it is now. -/
def shared (K : ConfigTypes) : ConfigProg K (Shared K) := Prog.get

/-- A method of the loggers. -/
def onLog (p : LogProgT Unit) : ConfigProgT K Unit := ExceptT.mk do
  let r ← Prog.zoom Shared.log (fun s l => { s with log := l }) p.run
  return r.mapError .crash

/-- `LOG_LEVEL(LOG_ROOT(), level) << event`. -/
def logRoot (level : Level) (event : String) : ConfigProgT K Unit := do
  onLog (logLevel (← shared K).log.m_root level event)

/-- `v == m_val`. -/
def sameValue : ∀ t : Option K.Ty, ValueOf K t → ValueOf K t → Bool
  | none => fun a b : LogDefineSet => a == b
  | some t => (K.beq t).beq

section
variable [DecidableEq K.Ty]

/-- A change of one variable. -/
def modifyVar (t : Option K.Ty) (n : ℕ) (f : SharedVar K t → SharedVar K t) (s : Shared K) :
    Shared K :=
  { s with var := Function.update s.var t (Function.update (s.var t) n ((s.var t n).map f)) }

end

/-! ## Variables -/

/-- One call of a listener. -/
def call {t : Option K.Ty} : SharedListener K t → ValueOf K t → ValueOf K t → ConfigProgT K Unit
  | .user cb, a, b => Prog.ofExcept ((cb a b).mapError .exception)
  | .onLoggerConfChanged, a, b => onLog (logsListener a b)

/-- The scope of a `ReadLock` that only looks at the variable. -/
def readVar {α : Type} (t : Option K.Ty) (n : ℕ) (f : SharedVar K t → α) :
    ConfigProg K (Option α) :=
  Prog.locked (.variable n) .shared do return ((← shared K).var t n).map f

/-- `ConfigVar::getValue`. -/
def getValue (t : Option K.Ty) (n : ℕ) : ConfigProg K (Option (ValueOf K t)) :=
  readVar t n SharedVar.m_val

/-- `ConfigVar::getListener`. -/
def getListener (t : Option K.Ty) (n key : ℕ) :
    ConfigProg K (Option (Option (SharedListener K t))) :=
  readVar t n fun x => (x.m_cbs.find? key).map Prod.snd

section
variable [DecidableEq K.Ty]

/-- The scope of a `WriteLock` that changes the variable. -/
def writeVar (t : Option K.Ty) (n : ℕ) (f : SharedVar K t → SharedVar K t) : ConfigProg K Unit :=
  Prog.locked (.variable n) .exclusive (Prog.modify (modifyVar t n f))

/-- `ConfigVar::setValue`: the listeners are called under the read lock, which is given back before
    the write lock is taken. -/
def setValue (t : Option K.Ty) (n : ℕ) (v : ValueOf K t) : ConfigProgT K Unit := do
  let changed ← Prog.lockedT (.variable n) .shared do
    match (← shared K).var t n with
    | none => return false
    | some x =>
        if sameValue t v x.m_val then return false
        x.m_cbs.elems.foldlM (fun _ i => call i.2 x.m_val v) ()
        return true
  if changed then writeVar t n fun x => { x with m_val := v }

/-- `ConfigVar::addListener`: the id of the listener. -/
def addListener (t : Option K.Ty) (n : ℕ) (ocb : SharedListener K t) : ConfigProg K ℕ :=
  let next (s : Shared K) : ℕ := (s.s_fun_id t + 1) % 2 ^ 64
  Prog.locked (.variable n) .exclusive (.access
    (fun s => { modifyVar t n (fun x => { x with m_cbs := x.m_cbs.assign (next s, ocb) }) s with
      s_fun_id := Function.update s.s_fun_id t (next s) })
    fun s => return next s)

/-- `ConfigVar::delListener`. -/
def delListener (t : Option K.Ty) (n key : ℕ) : ConfigProg K Unit :=
  writeVar t n fun x => { x with m_cbs := x.m_cbs.erase key }

/-- `ConfigVar::clearListener`. -/
def clearListener (t : Option K.Ty) (n : ℕ) : ConfigProg K Unit :=
  writeVar t n fun x => { x with m_cbs := ∅ }

end

/-- `FromStr`. -/
def fromStr (Y : YamlCpp) : ∀ t : Option K.Ty, String → Except StdException (ValueOf K t)
  | none => logDefinesOfString Y
  | some t => K.fromStr t

section
variable (Y : YamlCpp) (M : MessageTexts K) (toStr : ∀ t, K.El t → Except StdException String)

/-- `ToStr`. -/
def toStrOf : ∀ t : Option K.Ty, ValueOf K t → Except StdException String
  | none => logDefinesToString Y
  | some t => toStr t

/-- `ConfigVar::toString`; the lock is given back before the message is logged. -/
def toString (t : Option K.Ty) (n : ℕ) : ConfigProgT K String := do
  match ← readVar t n fun x => toStrOf Y toStr t x.m_val with
  | some (.ok s) => return s
  | some (.error e) =>
      logRoot .error ("ConfigVar::toString() exception" ++ M.what e ++ " convert : " ++
        M.typeName t ++ " to string ")
      return ""
  | none => return ""

variable [DecidableEq K.Ty]

/-- `ConfigVar::fromString`. -/
def fromString (t : Option K.Ty) (n : ℕ) (val : String) : ConfigProgT K Bool := ExceptT.mk do
  let set : ConfigProgT K Unit := do
    setValue t n (← Prog.ofExcept ((fromStr Y t val).mapError .exception))
  let report (e : StdException) : ConfigProgT K Bool := do
    logRoot .error ("ConfigVar::fromString() exception" ++ M.what e ++ " convert : string to " ++
      M.typeName t ++ " - " ++ val)
    return false
  match ← set.run with
  | .ok _ => return .ok false
  | .error (.exception e) => (report e).run
  | .error (.crash d) => return .error (.crash d)

/-! ## The registry -/

/-- `new ConfigVar<T>(name, default_value)`, and `GetDatas()[name] = v`. -/
def register (t : Option K.Ty) (name : String) (default_value : ValueOf K t) : ConfigProg K ℕ :=
  .access (fun s => { s with
      var := Function.update s.var t (Function.update (s.var t) s.nextVar
        (some { m_name := tolower name, m_val := default_value, m_cbs := ∅ }))
      nextVar := s.nextVar + 1
      datas := s.datas.assign (name, (t, s.nextVar)) })
    fun s => return s.nextVar

/-- `Config::Lookup<T>(name, default_value)`. -/
def lookup (t : Option K.Ty) (name : String) (default_value : ValueOf K t) :
    ConfigProgT K (Option ℕ) :=
  Prog.lockedT .registry .exclusive do
    let s ← shared K
    match s.datas.find? name with
    | some it =>
        if it.2.1 = t then
          logRoot .info ("Lookup name=" ++ name ++ " exists")
          return some it.2.2
        -- the message is put together only if it will be logged
        if (s.log.logger s.log.m_root).m_level.toNat ≤ Level.error.toNat then
          let real ← toString Y M toStr it.2.1 it.2.2
          onLog (log s.log.m_root .error ("Lookup name=" ++ name ++ " exists but types not " ++
            M.typeName t ++ " real type=" ++ M.typeName it.2.1 ++ " " ++ real))
        return none
    | none =>
        if findFirstNotOf name lookupChars ≠ none then
          logRoot .error ("Lookup name invalid " ++ name)
          throw (.exception (.invalidArgument name))
        return some (← register t name default_value)

omit [DecidableEq K.Ty] in
/-- `Config::LookupBase`. -/
def lookupBase (name : String) : ConfigProg K (Option (VarPtr K)) :=
  Prog.locked .registry .shared do
    return ((← shared K).datas.find? name).map Prod.snd

/-- `Config::Lookup<T>(name)`. -/
def find (t : Option K.Ty) (name : String) : ConfigProg K (Option ℕ) :=
  Prog.locked .registry .shared do
    return ((← shared K).datas.find? name).bind fun it => if it.2.1 = t then some it.2.2 else none

mutual

/-- `ListAllMember(prefix, node, output)`, returning `output`. -/
def listAllMember (pfx : String) (node : Node) (output : List (String × Node)) :
    ConfigProgT K (List (String × Node)) :=
  if findFirstNotOf pfx memberChars ≠ none then do
    logRoot .error ("Config invalid name: " ++ pfx ++ " : " ++ Y.emit node)
    return output
  else
    let output := output ++ [(pfx, node)]
    match node with
    | .map pairs => listPairs pfx pairs output
    | _ => return output

/-- The loop over the pairs of a map. -/
def listPairs (pfx : String) :
    List (String × Node) → List (String × Node) → ConfigProgT K (List (String × Node))
  | [], output => return output
  | (key, node) :: pairs, output => do
      listPairs pfx pairs (← listAllMember (joinName pfx key) node output)

end

/-- One round of the loop over the listed nodes. -/
def loadEntry (i : String × Node) : ConfigProgT K Unit := do
  if i.1 = "" then return ()
  match ← (lookupBase (tolower i.1) : ConfigProg K _) with
  | none => return ()
  | some ptr =>
      let _ ← fromString Y M ptr.1 ptr.2 (nodeText Y i.2)

/-- `Config::LoadFromYaml`. -/
def loadFromYaml (root : Node) : ConfigProgT K Unit := do
  let all_nodes ← listAllMember Y "" root []
  all_nodes.foldlM (fun _ i => loadEntry Y M i) ()

end

end Locked
end Ipmsg
