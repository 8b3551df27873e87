import Mathlib.Data.List.Basic

set_option autoImplicit false

/-! # Fibers

The fibers of one thread, as a machine whose control is a continuation: `swapcontext` stores the
continuation of its caller in one `ucontext_t` and goes on with the one found in another. What the
code of the main fiber does next is chosen from outside, one operation at a time; a callback is the
sequence of what it does. An operation runs without interruption up to the point where it returns or
control leaves it, so the states in between are those in which code outside `Fiber` is about to run.

Log messages, fiber ids and counts, stack sizes and who owns a fiber are left out. -/

namespace Ipmsg

/-- A `Fiber*`. -/
abbrev FiberPtr := ℕ

/-- `Fiber::State`. -/
inductive FiberState
  | init
  | hold
  | exec
  | term
  | ready
  | except
  deriving DecidableEq, Repr

/-! ## Code -/

/-- What a callback does next; `A` names the steps that do not touch a fiber. -/
inductive CbAction (A : Type)
  | step (a : A)
  | yieldToReady
  | yieldToHold
  | ret
  | throw
  deriving DecidableEq

/-- A callback, as the sequence of what it does. Nothing after a `ret` or a `throw` matters. -/
abbrev Callback (A : Type) := ℕ → CbAction A

/-- Where code goes on. -/
inductive Cont (A : Type)
  /-- In the code of the main fiber, after its first `n` operations. -/
  | main (n : ℕ)
  /-- In the constructor of the main fiber, at the `getcontext`. -/
  | getcontext
  /-- At the start of `MainFunc`, on the stack of `f`. -/
  | mainFunc (f : FiberPtr)
  /-- In the callback `cb`, after its first `k` actions, called by `MainFunc` on the stack of `f`.
  -/
  | callback (f cur : FiberPtr) (cb : Callback A) (k : ℕ)
  /-- After the last `swapOut` of `MainFunc`, on the stack of `f`. -/
  | neverReach (f : FiberPtr)

inductive Fault
  /-- A failed `ASSERT_MACRO`. -/
  | assertion (text : String)
  /-- A null or dangling pointer is dereferenced. -/
  | badPointer
  deriving DecidableEq, Repr

inductive Control (A : Type)
  | running (k : Cont A)
  | fault (e : Fault)

/-! ## State -/

structure Fiber (A : Type) where
  m_state : FiberState
  m_ctx : Cont A
  /-- Whether the fiber has a stack of its own. -/
  m_stack : Bool
  m_cb : Option (Callback A)

/-- The fibers created so far, the thread-local pointers and the control of one thread. -/
structure Fibers (A : Type) where
  fibers : List (Fiber A)
  t_fiber : Option FiberPtr
  t_threadFiber : Option FiberPtr
  control : Control A

namespace Fibers

variable {A : Type}

/-- A thread that has not called into `Fiber` yet. -/
def init : Fibers A :=
  { fibers := [], t_fiber := none, t_threadFiber := none, control := .running (.main 0) }

def fiber (s : Fibers A) (f : FiberPtr) : Option (Fiber A) := s.fibers[f]?

def modify (s : Fibers A) (f : FiberPtr) (g : Fiber A → Fiber A) : Fibers A :=
  { s with fibers := s.fibers.modify f g }

def goto (s : Fibers A) (k : Cont A) : Fibers A := { s with control := .running k }

def deref (s : Fibers A) (f : Option FiberPtr) : Except Fault (Fiber A) :=
  match f.bind s.fiber with
  | some x => .ok x
  | none => .error .badPointer

end Fibers

def assertMacro (p : Prop) [Decidable p] (text : String) : Except Fault Unit :=
  if p then .ok () else .error (.assertion text)

/-! ## The functions of `Fiber` -/

namespace Fibers

variable {A : Type}

/-- `Fiber::SetThis`. -/
def setThis (s : Fibers A) (f : Option FiberPtr) : Fibers A := { s with t_fiber := f }

/-- `swapcontext(&oucp->m_ctx, &ucp->m_ctx)`, called where `k` is what comes next. -/
def swapcontext (s : Fibers A) (oucp ucp : FiberPtr) (k : Cont A) : Except Fault (Fibers A) := do
  let _ ← s.deref oucp
  let s := s.modify oucp fun x => { x with m_ctx := k }
  let x ← s.deref ucp
  pure (s.goto x.m_ctx)

/-- The private constructor, which makes the main fiber. -/
def newMain (s : Fibers A) : Fibers A × FiberPtr :=
  let this := s.fibers.length
  let main : Fiber A := { m_state := .exec, m_ctx := .getcontext, m_stack := false, m_cb := none }
  ({ s with fibers := s.fibers ++ [main] }.setThis this, this)

/-- The constructor of a sub-fiber; the new object is the last one. -/
def newFiber (s : Fibers A) (cb : Callback A) : Fibers A :=
  let this := s.fibers.length
  { s with fibers := s.fibers ++
      [{ m_state := .init, m_ctx := .mainFunc this, m_stack := true, m_cb := some cb }] }

/-- `Fiber::reset`. -/
def reset (s : Fibers A) (this : FiberPtr) (cb : Callback A) : Except Fault (Fibers A) := do
  let x ← s.deref this
  assertMacro x.m_stack "m_stack"
  assertMacro (x.m_state = .term ∨ x.m_state = .except ∨ x.m_state = .init)
    "m_state == STATE_TERM || m_state == STATE_EXCEPT || m_state == STATE_INIT"
  pure (s.modify this fun x =>
    { x with m_cb := some cb, m_ctx := .mainFunc this, m_state := .init })

/-- `Fiber::swapIn`, called where `k` is what comes next. -/
def swapIn (s : Fibers A) (this : FiberPtr) (k : Cont A) : Except Fault (Fibers A) := do
  let s := s.setThis this
  let x ← s.deref this
  assertMacro (x.m_state ≠ .exec) "m_state != STATE_EXEC"
  let s := s.modify this fun x => { x with m_state := .exec }
  match s.t_threadFiber with
  | none => .error .badPointer
  | some main => s.swapcontext main this k

/-- `Fiber::swapOut`, called where `k` is what comes next. -/
def swapOut (s : Fibers A) (this : FiberPtr) (k : Cont A) : Except Fault (Fibers A) :=
  let s := s.setThis s.t_threadFiber
  match s.t_threadFiber with
  | none => .error .badPointer
  | some main => s.swapcontext this main k

/-- `Fiber::GetThis`. -/
def getThis (s : Fibers A) : Except Fault (Fibers A × FiberPtr) :=
  match s.t_fiber with
  | some f => .ok (s, f)
  | none => do
      let (s, main_fiber) := s.newMain
      assertMacro (s.t_fiber = some main_fiber) "t_fiber == main_fiber.get()"
      pure ({ s with t_threadFiber := some main_fiber }, main_fiber)

/-- `YieldToReady` and `YieldToHold`, which differ in the state they leave behind. -/
def yieldTo (state : FiberState) (s : Fibers A) (k : Cont A) : Except Fault (Fibers A) := do
  let (s, cur) ← s.getThis
  let x ← s.deref cur
  assertMacro (x.m_state = .exec) "cur->m_state == STATE_EXEC"
  (s.modify cur fun x => { x with m_state := state }).swapOut cur k

def yieldToReady (s : Fibers A) (k : Cont A) : Except Fault (Fibers A) := s.yieldTo .ready k

def yieldToHold (s : Fibers A) (k : Cont A) : Except Fault (Fibers A) := s.yieldTo .hold k

/-- The end of `MainFunc` on the stack of `f`, after the callback returned. -/
def mainFuncTerm (s : Fibers A) (f cur : FiberPtr) : Except Fault (Fibers A) :=
  (s.modify cur fun x => { x with m_cb := none, m_state := .term }).swapOut cur (.neverReach f)

/-- The end of `MainFunc` on the stack of `f`, after an exception was caught. -/
def mainFuncExcept (s : Fibers A) (f cur : FiberPtr) : Except Fault (Fibers A) :=
  (s.modify cur fun x => { x with m_state := .except }).swapOut cur (.neverReach f)

/-- `Fiber::MainFunc` on the stack of `f`, up to the call of the callback. Calling an empty function
    throws `std::bad_function_call`. -/
def mainFunc (s : Fibers A) (f : FiberPtr) : Except Fault (Fibers A) := do
  let (s, cur) ← s.getThis
  let x ← s.deref cur
  match x.m_cb with
  | some cb => pure (s.goto (.callback f cur cb 0))
  | none => s.mainFuncExcept f cur

end Fibers

/-! ## Steps -/

/-- An operation of the code of the main fiber. -/
inductive MainOp (A : Type)
  | getThis
  /-- A new sub-fiber, which gets the pointer `f`. -/
  | construct (f : FiberPtr) (cb : Callback A)
  | reset (f : FiberPtr) (cb : Callback A)
  | swapIn (f : FiberPtr)
  | yieldToReady
  | yieldToHold
  /-- Code that does not touch a fiber. -/
  | step (a : A)

inductive FiberLabel (A : Type)
  | main (op : MainOp A)
  /-- `MainFunc` starts on the stack of `f`. -/
  | enter (f : FiberPtr)
  /-- The callback running on the stack of `f` does `a`. -/
  | act (f : FiberPtr) (a : CbAction A)
  /-- `MainFunc` goes on after its last `swapOut`, on the stack of `f`. -/
  | neverReach (f : FiberPtr)

namespace Fibers

variable {A : Type}

/-- A fault ends the run. -/
def settle (s : Fibers A) : Except Fault (Fibers A) → Fibers A
  | .ok s' => s'
  | .error e => { s with control := .fault e }

/-- The operation `op` of the main fiber's code, called where `k` comes next. -/
def mainOp (s : Fibers A) (k : Cont A) : MainOp A → Except Fault (Fibers A)
  | .getThis => do
      let (s, _) ← s.getThis
      pure (s.goto k)
  | .construct _ cb => .ok ((s.newFiber cb).goto k)
  | .reset f cb => do
      let s ← s.reset f cb
      pure (s.goto k)
  | .swapIn f => s.swapIn f k
  | .yieldToReady => s.yieldToReady k
  | .yieldToHold => s.yieldToHold k
  | .step _ => .ok (s.goto k)

/-- What the callback `cb` does after `k` actions. -/
def cbAction (s : Fibers A) (f cur : FiberPtr) (cb : Callback A) (k : ℕ) :
    CbAction A → Except Fault (Fibers A)
  | .step _ => .ok (s.goto (.callback f cur cb (k + 1)))
  | .yieldToReady => s.yieldToReady (.callback f cur cb (k + 1))
  | .yieldToHold => s.yieldToHold (.callback f cur cb (k + 1))
  | .ret => s.mainFuncTerm f cur
  | .throw => s.mainFuncExcept f cur

/-- Whether a new object gets the pointer the operation says. -/
def freshFor (s : Fibers A) : MainOp A → Bool
  | .construct f _ => f = s.fibers.length
  | _ => true

/-- One step of the thread. -/
def step [DecidableEq A] (s : Fibers A) : FiberLabel A → Option (Fibers A)
  | .main op =>
      match s.control with
      | .running (.main n) =>
          if s.freshFor op then some (s.settle (s.mainOp (.main (n + 1)) op)) else none
      | _ => none
  | .enter f =>
      match s.control with
      | .running (.mainFunc f') => if f' = f then some (s.settle (s.mainFunc f)) else none
      | _ => none
  | .act f a =>
      match s.control with
      | .running (.callback f' cur cb k) =>
          if f' = f ∧ cb k = a then some (s.settle (s.cbAction f cur cb k a)) else none
      | _ => none
  | .neverReach f =>
      match s.control with
      | .running (.neverReach f') =>
          if f' = f then some (s.settle (.error (.assertion "never reach here"))) else none
      | _ => none

end Fibers

end Ipmsg
