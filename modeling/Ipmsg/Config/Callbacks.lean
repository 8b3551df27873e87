import Ipmsg.Config.Lookup
import Ipmsg.Log.Locked
import Ipmsg.Lib.Run
import Mathlib.Data.List.Basic

set_option autoImplicit false

/-! # Callbacks that use the configuration

One thread calls `Config` and `ConfigVar`, and user code runs inside these calls: the listeners of a
variable under its read lock, the callback of `Visit` under that of the registry. A run is a list of
labels, and they say what user code does, so that a callback may make any calls in any order. What a
call hands back to user code is therefore not kept. Nor are the locks of the loggers, which no user
code runs under. -/

namespace Ipmsg

/-! ## Variables and calls -/

/-- `ConfigVar<T>` with its base class; `F` names the callbacks. -/
structure CallbackVar (K : ConfigTypes) (F : Type) where
  type : K.Ty
  m_name : String
  m_val : K.El type
  m_cbs : OrdMap ℕ F

/-- A value of one of the types. -/
abbrev TypedValue (K : ConfigTypes) := Σ t : K.Ty, K.El t

/-- The calls of user code. A variable is named by its place among those constructed. -/
inductive ConfigCall (K : ConfigTypes) (F : Type)
  | getValue (x : ℕ)
  | getListener (x key : ℕ)
  | toString (x : ℕ)
  | setValue (x : ℕ) (v : TypedValue K)
  | fromString (x : ℕ) (val : String)
  | addListener (x : ℕ) (ocb : F)
  | delListener (x key : ℕ)
  | clearListener (x : ℕ)
  | lookup (name : String) (default_value : TypedValue K)
  | find (t : K.Ty) (name : String)
  | lookupBase (name : String)
  | loadFromYaml (root : Node)
  | visit

/-- The lock a call starts with. -/
def ConfigCall.lock {K : ConfigTypes} {F : Type} : ConfigCall K F → Option (Lock × LockMode)
  | getValue x | getListener x _ | toString x | setValue x _ => some (.variable x, .shared)
  | addListener x _ | delListener x _ | clearListener x => some (.variable x, .exclusive)
  | lookup _ _ => some (.registry, .exclusive)
  | find _ _ | lookupBase _ | visit => some (.registry, .shared)
  | fromString _ _ | loadFromYaml _ => none

namespace CallbackVar

variable {K : ConfigTypes} {F : Type} [DecidableEq K.Ty]

/-- `v` as a value of the variable's type. -/
def value (x : CallbackVar K F) (v : TypedValue K) : Option (K.El x.type) :=
  if h : v.1 = x.type then some (h ▸ v.2) else none

/-- `v == m_val`. -/
def holds (x : CallbackVar K F) (v : TypedValue K) : Bool :=
  (x.value v).any fun v => (K.beq x.type).beq v x.m_val

/-- `m_val = v`. -/
def store (x : CallbackVar K F) (v : TypedValue K) : CallbackVar K F :=
  match x.value v with
  | some v => { x with m_val := v }
  | none => x

end CallbackVar

/-! ## The thread -/

/-- Where the thread is. -/
inductive Phase (K : ConfigTypes) (F : Type)
  /-- In user code. -/
  | user
  /-- At the first lock of a call. -/
  | start (c : ConfigCall K F)
  /-- In `setValue`, between its two locks. -/
  | store (x : ℕ) (v : TypedValue K)
  /-- In `Lookup`, which prints a variable of another type while it holds the registry. -/
  | describe (x : ℕ)
  /-- In the loop of `LoadFromYaml`. -/
  | load (nodes : List (String × Node))

/-- A call that user code or another call was made from. -/
inductive CallFrame (K : ConfigTypes) (F : Type)
  /-- `setValue`, calling a listener; `rest` are called next. -/
  | listeners (x : ℕ) (v : TypedValue K) (rest : List (ℕ × F))
  /-- The `try` of `fromString`, and the nodes `LoadFromYaml` goes on with if that called it. -/
  | fromString (nodes : Option (List (String × Node)))
  /-- `Visit`, calling its callback; `rest` come next. -/
  | visiting (rest : List (String × ℕ))

section
variable {K : ConfigTypes} {F : Type}

/-- The lock the thread takes next. -/
def Phase.request : Phase K F → Option (Lock × LockMode)
  | user => none
  | start c => c.lock
  | store x _ => some (.variable x, .exclusive)
  | describe x => some (.variable x, .shared)
  | load [] => none
  | load (i :: _) => if i.1 = "" then none else some (.registry, .shared)

/-- The lock a phase holds by itself. -/
def Phase.lock : Phase K F → Option (Lock × LockMode)
  | describe _ => some (.registry, .exclusive)
  | _ => none

/-- The lock that is held while the frame is on the stack. -/
def CallFrame.lock : CallFrame K F → Option (Lock × LockMode)
  | listeners x _ _ => some (.variable x, .shared)
  | fromString _ => none
  | visiting _ => some (.registry, .shared)

end

/-- The variables, the registry and the thread. -/
structure Session (K : ConfigTypes) (F : Type) where
  /-- The variables constructed so far. -/
  vars : List (CallbackVar K F)
  /-- `Config::GetDatas()`. -/
  datas : OrdMap String ℕ
  /-- The counter of `addListener`, one for each type. -/
  s_fun_id : K.Ty → ℕ
  /-- `LOG_ROOT()->getLevel()`. -/
  rootLevel : Level
  held : List (Lock × LockMode)
  phase : Phase K F
  /-- The innermost call first. -/
  frames : List (CallFrame K F)

/-- What happens next. -/
inductive Move (K : ConfigTypes) (F : Type)
  /-- User code makes a call. -/
  | call (c : ConfigCall K F)
  /-- A callback returns. -/
  | ret
  /-- A callback throws, a `std::exception` or something else. -/
  | throw (isStd : Bool)
  /-- User code sets the level of the root logger. -/
  | setLevel (val : Level)
  /-- The call under way takes the lock it is at and goes on to the next one, or to user code. -/
  | go

namespace Session

variable {K : ConfigTypes} {F : Type}

/-! ## Calls and returns -/

/-- The thread waits for a lock it holds itself. -/
def SelfWaits (s : Session K F) : Prop := ∃ r ∈ s.phase.request, Excluded s.held r

instance (s : Session K F) : Decidable s.SelfWaits :=
  inferInstanceAs (Decidable (∃ r ∈ s.phase.request, Excluded s.held r))

/-- A callback is called. -/
def enter (s : Session K F) (f : CallFrame K F) : Session K F :=
  { s with held := f.lock.toList ++ s.held, phase := .user, frames := f :: s.frames }

/-- The scope of the innermost call, whose frame is `f`, is left. -/
def leave (s : Session K F) (f : CallFrame K F) : Session K F :=
  { s with held := s.held.diff f.lock.toList, frames := s.frames.tail }

/-- Where `fromString` returns to. -/
def afterFromString (nodes : Option (List (String × Node))) : Phase K F :=
  match nodes with
  | some nodes => .load nodes
  | none => .user

/-- `setValue` returns. -/
def returned (s : Session K F) : Session K F :=
  match s.frames with
  | .fromString nodes :: frames => { s with phase := afterFromString nodes, frames := frames }
  | _ => { s with phase := .user }

/-- An exception leaves `setValue`; `fromString` catches a `std::exception`. -/
def thrown (s : Session K F) (isStd : Bool) : Session K F :=
  match s.frames with
  | .fromString nodes :: frames =>
      { s with phase := if isStd then afterFromString nodes else .user, frames := frames }
  | _ => { s with phase := .user }

/-- `fromString` from the conversion on. -/
def convert (s : Session K F) (x : ℕ) (val : String) (nodes : Option (List (String × Node))) :
    Session K F :=
  match s.vars[x]? with
  | none => { s with phase := .user }
  | some y =>
      match K.fromStr y.type val with
      | .error _ => { s with phase := afterFromString nodes }
      | .ok v => { s with
          phase := .start (.setValue x ⟨y.type, v⟩)
          frames := .fromString nodes :: s.frames }

/-- A write access to a variable. -/
def modifyVar (s : Session K F) (x : ℕ) (f : CallbackVar K F → CallbackVar K F) : Session K F :=
  { s with vars := s.vars.modify x f }

/-- `addListener` under its lock. -/
def addListener [DecidableEq K.Ty] (s : Session K F) (x : ℕ) (ocb : F) : Session K F :=
  match s.vars[x]? with
  | none => s
  | some y =>
      let id := (s.s_fun_id y.type + 1) % 2 ^ 64
      { s.modifyVar x fun y => { y with m_cbs := y.m_cbs.assign (id, ocb) } with
        s_fun_id := Function.update s.s_fun_id y.type id }

section
variable [DecidableEq K.Ty]

/-- `setValue` from its first lock on. -/
def notify (s : Session K F) (x : ℕ) (v : TypedValue K) : Session K F :=
  match s.vars[x]? with
  | none => { s with phase := .user }
  | some y =>
      if y.holds v then s.returned
      else
        match y.m_cbs.elems with
        | [] => { s with phase := .store x v }
        | _ :: rest => s.enter (.listeners x v rest)

/-- `Lookup` with a default value, from its lock on. -/
def lookup (s : Session K F) (name : String) (default_value : TypedValue K) : Session K F :=
  match s.datas.find? name with
  | some it =>
      match s.vars[it.2]? with
      | none => { s with phase := .user }
      | some y =>
          -- the message for a variable of another type is put together only if it will be logged
          if y.type ≠ default_value.1 ∧ s.rootLevel.toNat ≤ Level.error.toNat then
            { s with held := (.registry, .exclusive) :: s.held, phase := .describe it.2 }
          else { s with phase := .user }
  | none =>
      if findFirstNotOf name lookupChars ≠ none then { s with phase := .user }
      else { s with
        vars := s.vars ++ [{
          type := default_value.1
          m_name := tolower name
          m_val := default_value.2
          m_cbs := ∅ }]
        datas := s.datas.assign (name, s.vars.length)
        phase := .user }

/-- `Visit` from its lock on. -/
def visit (s : Session K F) : Session K F :=
  match s.datas.elems with
  | [] => { s with phase := .user }
  | _ :: rest => s.enter (.visiting rest)

/-- A call from its first lock on. -/
def begin (s : Session K F) : ConfigCall K F → Session K F
  | .getValue _ | .getListener _ _ | .toString _ | .find _ _ | .lookupBase _ =>
      { s with phase := .user }
  | .setValue x v => s.notify x v
  | .fromString x val => s.convert x val none
  | .addListener x ocb => { s.addListener x ocb with phase := .user }
  | .delListener x key =>
      { s.modifyVar x fun y => { y with m_cbs := y.m_cbs.erase key } with phase := .user }
  | .clearListener x => { s.modifyVar x fun y => { y with m_cbs := ∅ } with phase := .user }
  | .lookup name default_value => s.lookup name default_value
  | .loadFromYaml root => { s with phase := .load (listAllMember "" root []) }
  | .visit => s.visit

/-- One round of the loop of `LoadFromYaml`. -/
def loadEntry (Y : YamlCpp) (s : Session K F) (i : String × Node) (nodes : List (String × Node)) :
    Session K F :=
  if i.1 = "" then { s with phase := .load nodes }
  else
    match s.datas.find? (tolower i.1) with
    | none => { s with phase := .load nodes }
    | some it => s.convert it.2 (nodeText Y i.2) (some nodes)

/-! ## Steps -/

/-- The variable of a call exists, and a value it is given has its type. -/
def accepts (s : Session K F) : ConfigCall K F → Bool
  | .getValue x | .getListener x _ | .toString x | .fromString x _ | .addListener x _
  | .delListener x _ | .clearListener x => s.vars[x]?.isSome
  | .setValue x v => s.vars[x]?.any fun y => y.type = v.1
  | .lookup _ _ | .find _ _ | .lookupBase _ | .loadFromYaml _ | .visit => true

/-- A callback returns, or throws, to the call it was called from. -/
def resume (s : Session K F) : Option (Session K F) :=
  match s.frames with
  | f@(.listeners x v []) :: _ => some { s.leave f with phase := .store x v }
  | .listeners x v (_ :: rest) :: frames => some { s with frames := .listeners x v rest :: frames }
  | f@(.visiting []) :: _ => some (s.leave f)
  | .visiting (_ :: rest) :: frames => some { s with frames := .visiting rest :: frames }
  | _ => none

def unwind (s : Session K F) (isStd : Bool) : Option (Session K F) :=
  match s.frames with
  | f@(.listeners _ _ _) :: _ => some ((s.leave f).thrown isStd)
  | f@(.visiting _) :: _ => some (s.leave f)
  | _ => none

/-- The call under way goes on; a thread that waits does not. -/
def advance (Y : YamlCpp) (s : Session K F) : Option (Session K F) :=
  if s.SelfWaits then none
  else
    match s.phase with
    | .user => none
    | .start c => some (s.begin c)
    | .store x v => some (s.modifyVar x fun y => y.store v).returned
    | .describe _ => some { s with held := s.held.erase (.registry, .exclusive), phase := .user }
    | .load [] => some { s with phase := .user }
    | .load (i :: nodes) => some (s.loadEntry Y i nodes)

def inUserCode (s : Session K F) : Bool :=
  match s.phase with
  | .user => true
  | _ => false

def step (Y : YamlCpp) (s : Session K F) : Move K F → Option (Session K F)
  | .call c => if s.inUserCode ∧ s.accepts c then some { s with phase := .start c } else none
  | .ret => if s.inUserCode then s.resume else none
  | .throw isStd => if s.inUserCode then s.unwind isStd else none
  | .setLevel val => if s.inUserCode then some { s with rootLevel := val } else none
  | .go => s.advance Y

end

end Session
end Ipmsg
