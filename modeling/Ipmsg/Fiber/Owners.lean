import Ipmsg.Fiber.Spec
import Ipmsg.Fiber.Invariant
import Mathlib.Logic.Function.Basic

set_option autoImplicit false

/-! # Who owns the fibers

The fibers of one thread with the reference counts behind `Fiber::ptr`. Besides the code that uses
fibers, three places hold such a pointer: `t_threadFiber`, the local `cur` of `MainFunc` and the
local `cur` of a yield function, both on the stack of the fiber that called it. Whichever code runs,
the main fiber's or a callback's, is chosen from outside, one operation at a time; it may drop and
copy its pointers whenever it runs. The last pointer to go runs `~Fiber`. -/

namespace Ipmsg

/-! ## State -/

structure Owned (A : Type) extends Fibers A where
  /-- The count in the control block; an object whose count is back at zero is destroyed. -/
  use_count : FiberPtr → ℕ
  /-- The pointers held outside `Fiber`: by variables, containers and captures. -/
  owners : FiberPtr → ℕ
  /-- The locals `cur` on the stack of each fiber, innermost first. -/
  locals : FiberPtr → List FiberPtr

namespace Owned

variable {A : Type}

/-- A thread that has not called into `Fiber` yet. -/
def init : Owned A :=
  { Fibers.init with use_count := fun _ => 0, owners := fun _ => 0, locals := fun _ => [] }

def withFibers (s : Owned A) (base : Fibers A) : Owned A := { s with toFibers := base }

def withCount (s : Owned A) (f : FiberPtr) (n : ℕ) : Owned A :=
  { s with use_count := Function.update s.use_count f n }

def withOwners (s : Owned A) (f : FiberPtr) (n : ℕ) : Owned A :=
  { s with owners := Function.update s.owners f n }

def withLocals (s : Owned A) (f : FiberPtr) (ps : List FiberPtr) : Owned A :=
  { s with locals := Function.update s.locals f ps }

/-! ## Reference counts -/

/-- `Fiber::~Fiber`. -/
def destruct (s : Owned A) (this : FiberPtr) : Except Fault (Owned A) := do
  let x ← s.deref this
  if x.m_stack then
    assertMacro (x.m_state = .term ∨ x.m_state = .except ∨ x.m_state = .init)
      "m_state == STATE_TERM || m_state == STATE_EXCEPT || m_state == STATE_INIT"
    pure s
  else
    assertMacro (x.m_cb.isNone = true) "!m_cb"
    assertMacro (x.m_state = .exec) "m_state == STATE_EXEC"
    pure (if s.t_fiber = some this then s.withFibers (s.setThis none) else s)

/-- A copy of a `Fiber::ptr`, or `shared_from_this`. -/
def acquire (s : Owned A) (f : FiberPtr) : Except Fault (Owned A) :=
  if s.use_count f = 0 then .error .badPointer else .ok (s.withCount f (s.use_count f + 1))

/-- A `Fiber::ptr` goes. -/
def release (s : Owned A) (f : FiberPtr) : Except Fault (Owned A) :=
  match s.use_count f with
  | 0 => .error .badPointer
  | 1 => (s.withCount f 0).destruct f
  | n + 2 => .ok (s.withCount f (n + 1))

/-- A pointer held outside `Fiber` goes. -/
def drop (s : Owned A) (f : FiberPtr) : Except Fault (Owned A) :=
  (s.withOwners f (s.owners f - 1)).release f

/-- The innermost local of the stack of `f` goes. -/
def leave (s : Owned A) (f : FiberPtr) : Except Fault (Owned A) :=
  match s.locals f with
  | [] => .ok s
  | cur :: rest => (s.withLocals f rest).release cur

/-! ## The functions of `Fiber` -/

/-- `Fiber::GetThis`. -/
def getThis (s : Owned A) : Except Fault (Owned A × FiberPtr) :=
  match s.t_fiber with
  | some f => do
      let s ← s.acquire f
      pure (s, f)
  | none => do
      let (base, main_fiber) ← s.toFibers.getThis
      -- `main_fiber` and `t_threadFiber`; the first goes when the result has been made
      let s := (s.withFibers base).withCount main_fiber 2
      let s ← s.acquire main_fiber
      let s ← s.release main_fiber
      pure (s, main_fiber)

/-- `YieldToReady` and `YieldToHold`, called where `k` is what comes next. -/
def yieldTo (state : FiberState) (s : Owned A) (k : Cont A) : Except Fault (Owned A) := do
  let (s, cur) ← s.getThis
  let x ← s.deref cur
  assertMacro (x.m_state = .exec) "cur->m_state == STATE_EXEC"
  let base ← (s.modify cur fun x => { x with m_state := state }).swapOut cur k
  let s := s.withFibers base
  -- the main fiber comes straight back; the frame of any other stays on its stack
  if s.t_threadFiber = some cur then s.release cur
  else pure (s.withLocals (k.runner cur) (cur :: s.locals (k.runner cur)))

/-- `Fiber::swapIn`, called where `k` is what comes next. A callback that is resumed returns from
    its yield first. -/
def swapIn (s : Owned A) (this : FiberPtr) (k : Cont A) : Except Fault (Owned A) := do
  let base ← s.toFibers.swapIn this k
  match base.control with
  | .running (.callback f _ _ _) => (s.withFibers base).leave f
  | _ => pure (s.withFibers base)

/-- The end of `MainFunc` on the stack of `f`. Where `cur.reset()` destroys the fiber, the pointers
    `captured` by its callback go with it, and `raw_ptr` dangles. -/
def mainFuncLeave (s : Owned A) (f cur : FiberPtr) (captured : List FiberPtr) :
    Except Fault (Owned A) := do
  let s ← s.leave f
  if s.use_count cur = 0 then
    let s ← captured.foldlM drop s
    pure (s.withFibers { s.toFibers with control := .fault .badPointer })
  else
    let base ← s.swapOut cur (.neverReach f)
    pure (s.withFibers base)

/-- `MainFunc` after the callback returned; `captured` are the pointers that go with it. -/
def mainFuncTerm (s : Owned A) (f cur : FiberPtr) (captured : List FiberPtr) :
    Except Fault (Owned A) := do
  let s ← captured.foldlM drop s
  (s.withFibers (s.modify cur fun x => { x with m_cb := none, m_state := .term })).mainFuncLeave
    f cur []

/-- `MainFunc` after an exception was caught. -/
def mainFuncExcept (s : Owned A) (f cur : FiberPtr) (captured : List FiberPtr) :
    Except Fault (Owned A) :=
  (s.withFibers (s.modify cur fun x => { x with m_state := .except })).mainFuncLeave f cur captured

/-- `Fiber::MainFunc` on the stack of `f`, up to the call of the callback. -/
def mainFunc (s : Owned A) (f : FiberPtr) : Except Fault (Owned A) := do
  let (s, cur) ← s.getThis
  let s := s.withLocals f (cur :: s.locals f)
  let x ← s.deref cur
  match x.m_cb with
  | some cb => pure (s.withFibers (s.goto (.callback f cur cb 0)))
  | none => s.mainFuncExcept f cur []

/-- The end of the thread lets go of `t_threadFiber`. -/
def exitThread (s : Owned A) : Except Fault (Owned A) :=
  match s.t_threadFiber with
  | some main => (s.withFibers { s.toFibers with t_threadFiber := none }).release main
  | none => .ok s

end Owned

/-! ## Steps -/

/-- The code after one more operation of it. -/
def Cont.next {A : Type} : Cont A → Option (Cont A)
  | .main n => some (.main (n + 1))
  | .callback f cur cb k => some (.callback f cur cb (k + 1))
  | _ => none

/-- An operation of the code outside `Fiber`, the main fiber's or a callback's. -/
inductive UserOp (A : Type)
  /-- `GetThis`, whose result is kept. -/
  | getThis
  /-- A new sub-fiber, which gets the pointer `f`. -/
  | construct (f : FiberPtr) (cb : Callback A)
  | reset (f : FiberPtr) (cb : Callback A)
  | copy (f : FiberPtr)
  | drop (f : FiberPtr)
  | yieldToReady
  | yieldToHold

inductive OwnedLabel (A : Type)
  | user (op : UserOp A)
  /-- The main fiber's code calls `swapIn`. -/
  | swapIn (f : FiberPtr)
  /-- `MainFunc` starts. -/
  | enter
  /-- The callback returns. The pointers it captured go when its function object does. -/
  | ret (captured : List FiberPtr)
  /-- The callback throws. -/
  | throw (captured : List FiberPtr)

/-- The operation is a yield. -/
def UserOp.yields {A : Type} : UserOp A → Bool
  | .yieldToReady => true
  | .yieldToHold => true
  | _ => false

namespace Owned

variable {A : Type}

/-- A fault ends the run. -/
def settle (s : Owned A) : Except Fault (Owned A) → Owned A
  | .ok s' => s'
  | .error e => s.withFibers { s.toFibers with control := .fault e }

/-- The operation `op`, called where `k` comes next. -/
def userOp (s : Owned A) (k : Cont A) : UserOp A → Except Fault (Owned A)
  | .getThis => do
      let (s, f) ← s.getThis
      pure ((s.withOwners f (s.owners f + 1)).withFibers (s.goto k))
  | .construct f cb =>
      .ok (((s.withCount f 1).withOwners f 1).withFibers ((s.newFiber cb).goto k))
  | .reset f cb => do
      let base ← s.toFibers.reset f cb
      pure (s.withFibers (base.goto k))
  | .copy f => do
      let s ← s.acquire f
      pure ((s.withOwners f (s.owners f + 1)).withFibers (s.goto k))
  | .drop f => do
      let s ← s.drop f
      pure (s.withFibers (s.goto k))
  | .yieldToReady => s.yieldTo .ready k
  | .yieldToHold => s.yieldTo .hold k

/-- Whether a new object gets the pointer the operation says. -/
def freshFor (s : Owned A) : UserOp A → Bool
  | .construct f _ => f = s.fibers.length
  | _ => true

/-- One step of the thread. -/
def step (s : Owned A) : OwnedLabel A → Option (Owned A)
  | .user op =>
      match s.control with
      | .running k =>
          match k.next with
          | some k' => if s.freshFor op then some (s.settle (s.userOp k' op)) else none
          | none => none
      | .fault _ => none
  | .swapIn f =>
      match s.control with
      | .running (.main n) => some (s.settle (s.swapIn f (.main (n + 1))))
      | _ => none
  | .enter =>
      match s.control with
      | .running (.mainFunc f) => some (s.settle (s.mainFunc f))
      | _ => none
  | .ret captured =>
      match s.control with
      | .running (.callback f cur _ _) => some (s.settle (s.mainFuncTerm f cur captured))
      | _ => none
  | .throw captured =>
      match s.control with
      | .running (.callback f cur _ _) => some (s.settle (s.mainFuncExcept f cur captured))
      | _ => none

/-- The main fiber swaps in only what is waiting or suspended, only what is waiting or finished is
    reset, and code uses only pointers it has. -/
def Permitted (s : Owned A) : OwnedLabel A → Prop
  | .user (.reset f _) => 0 < s.owners f ∧ ∃ x, s.fiber f = some x ∧ x.m_stack = true ∧
      (x.m_state = .term ∨ x.m_state = .except ∨ x.m_state = .init)
  | .user (.copy f) => 0 < s.owners f
  | .user (.drop f) => 0 < s.owners f
  | .swapIn f => s.t_threadFiber.isSome ∧ 0 < s.owners f ∧ ∃ x, s.fiber f = some x ∧
      (x.m_state = .init ∨ x.m_state = .ready ∨ x.m_state = .hold)
  | .ret captured => ∀ g, captured.count g ≤ s.owners g
  | .throw captured => ∀ g, captured.count g ≤ s.owners g
  | _ => True

end Owned

end Ipmsg
