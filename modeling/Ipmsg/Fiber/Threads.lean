import Ipmsg.Fiber.Machine
import Mathlib.Algebra.Group.Nat.Defs
import Mathlib.Logic.Function.Basic

set_option autoImplicit false

/-! # Fibers on several threads

`t_fiber` and `t_threadFiber` belong to a thread; the `Fiber` objects and the two counters belong to
the program, and nothing in `Fiber` ties an object to the thread that made it. So a fiber may be
swapped in by one thread, yield, and be swapped in by another. Here the functions of `Fiber` are cut
where one thread may see what another does: at every access to an object or a counter. A
`swapcontext` is two such accesses, first the context it fills, then the one it goes on with. A
thread-local pointer is that of the thread the code runs on at the time.

Log messages, stacks and reference counts are left out; an object is destroyed when the code says so.
-/

namespace Ipmsg

variable {θ A : Type}

/-! ## State -/

/-- Where code goes on. -/
inductive Code (θ A : Type)
  /-- In the code of the main fiber of `t`, after its first `n` operations. -/
  | main (t : θ) (n : ℕ)
  /-- In the constructor of a main fiber, at the `getcontext`. -/
  | getcontext
  /-- At the start of `MainFunc`, on the stack of `f`. -/
  | mainFunc (f : FiberPtr)
  /-- In the callback `cb`, after its first `k` actions, called by `MainFunc` on the stack of `f`.
  -/
  | callback (f cur : FiberPtr) (cb : Callback A) (k : ℕ)
  /-- After the last `swapOut` of `MainFunc`, on the stack of `f`. -/
  | neverReach (f : FiberPtr)

structure FiberObject (θ A : Type) where
  m_id : ℕ
  m_state : FiberState
  m_ctx : Code θ A
  /-- Whether the fiber has a stack of its own. -/
  m_stack : Bool
  m_cb : Option (Callback A)
  /-- The object has been destroyed. -/
  freed : Bool

/-- Where a thread is: in code outside `Fiber`, or in a function of `Fiber` before its next access to
    what other threads may see. The last argument is where the caller goes on. -/
inductive Point (θ A : Type)
  | code (k : Code θ A)
  /-- In the constructor of a sub-fiber, which has its id and is not counted yet. -/
  | newFiber (this : FiberPtr) (id : ℕ) (cb : Callback A) (k : Code θ A)
  /-- In `reset`, at its assertions. -/
  | reset (this : FiberPtr) (cb : Callback A) (k : Code θ A)
  | resetCb (this : FiberPtr) (cb : Callback A) (k : Code θ A)
  | resetCtx (this : FiberPtr) (k : Code θ A)
  | resetState (this : FiberPtr) (k : Code θ A)
  /-- In `swapIn`, at its assertion. -/
  | swapIn (this : FiberPtr) (k : Code θ A)
  | swapInExec (this : FiberPtr) (k : Code θ A)
  /-- In a yield function, at its assertion. -/
  | yieldTo (state : FiberState) (cur : FiberPtr) (k : Code θ A)
  /-- In `MainFunc`, where it lets go of the callback. -/
  | term (cur : FiberPtr) (k : Code θ A)
  /-- Before the state is set with which the fiber swaps out. -/
  | leave (state : FiberState) (cur : FiberPtr) (k : Code θ A)
  /-- In `swapcontext(&oucp->m_ctx, &ucp->m_ctx)`, before the first context is filled. -/
  | save (oucp ucp : FiberPtr) (k : Code θ A)
  /-- In `swapcontext`, before it goes on with the second context. -/
  | load (oucp ucp : FiberPtr) (k : Code θ A)
  | fault (e : Fault)
  | exited

structure FiberThread (θ A : Type) where
  t_fiber : Option FiberPtr
  t_threadFiber : Option FiberPtr
  point : Point θ A

/-- The fibers of a program and its threads. -/
structure FiberThreads (θ A : Type) where
  objects : FiberPtr → Option (FiberObject θ A)
  /-- The pointer of the next object. -/
  next : FiberPtr
  s_fiber_id : ℕ
  s_fiber_count : ℕ
  threads : θ → FiberThread θ A

/-- The fiber on whose stack the code is, unless it is a main fiber. -/
def Code.stack : Code θ A → Option FiberPtr
  | .main _ _ => none
  | .getcontext => none
  | .mainFunc f => some f
  | .callback f _ _ _ => some f
  | .neverReach f => some f

/-- Where the code goes on that is running or has called the function. -/
def Point.cont : Point θ A → Option (Code θ A)
  | .code k => some k
  | .newFiber _ _ _ k => some k
  | .reset _ _ k => some k
  | .resetCb _ _ k => some k
  | .resetCtx _ k => some k
  | .resetState _ k => some k
  | .swapIn _ k => some k
  | .swapInExec _ k => some k
  | .yieldTo _ _ k => some k
  | .term _ k => some k
  | .leave _ _ k => some k
  | .save _ _ k => some k
  | .load _ _ k => some k
  | .fault _ => none
  | .exited => none

/-- The sub-fiber on whose stack the thread is. -/
def Point.stack (p : Point θ A) : Option FiberPtr := p.cont.bind Code.stack

/-- The fiber that is constructed, reset or swapped in, up to the switch, or that `swapcontext` goes
    to. It is not the one `swapOut` leaves, nor one whose `swapIn` has yet to return. -/
def Point.target : Point θ A → Option FiberPtr
  | .newFiber this _ _ _ => some this
  | .reset this _ _ => some this
  | .resetCb this _ _ => some this
  | .resetCtx this _ => some this
  | .resetState this _ => some this
  | .swapIn this _ => some this
  | .swapInExec this _ => some this
  | .save _ ucp _ => some ucp
  | .load _ ucp _ => some ucp
  | _ => none

namespace FiberThreads

variable [DecidableEq θ]

/-- A program whose threads have not called into `Fiber` yet. -/
def init : FiberThreads θ A where
  objects := fun _ => none
  next := 0
  s_fiber_id := 0
  s_fiber_count := 0
  threads := fun t => { t_fiber := none, t_threadFiber := none, point := .code (.main t 0) }

def fiber (s : FiberThreads θ A) (f : FiberPtr) : Option (FiberObject θ A) :=
  (s.objects f).filter fun x => !x.freed

def setObject (s : FiberThreads θ A) (f : FiberPtr) (o : Option (FiberObject θ A)) :
    FiberThreads θ A :=
  { s with objects := Function.update s.objects f o }

def modify (s : FiberThreads θ A) (f : FiberPtr) (g : FiberObject θ A → FiberObject θ A) :
    FiberThreads θ A :=
  s.setObject f ((s.objects f).map g)

def setThread (s : FiberThreads θ A) (t : θ) (x : FiberThread θ A) : FiberThreads θ A :=
  { s with threads := Function.update s.threads t x }

def setPoint (s : FiberThreads θ A) (t : θ) (p : Point θ A) : FiberThreads θ A :=
  s.setThread t { s.threads t with point := p }

def goto (s : FiberThreads θ A) (t : θ) (k : Code θ A) : FiberThreads θ A := s.setPoint t (.code k)

def deref (s : FiberThreads θ A) (f : FiberPtr) : Except Fault (FiberObject θ A) :=
  match s.fiber f with
  | some x => .ok x
  | none => .error .badPointer

/-! ## The functions of `Fiber`, in thread `t` -/

/-- `Fiber::SetThis`. -/
def setThis (s : FiberThreads θ A) (t : θ) (f : Option FiberPtr) : FiberThreads θ A :=
  s.setThread t { s.threads t with t_fiber := f }

/-- `++s_fiber_count`. -/
def countUp (s : FiberThreads θ A) : FiberThreads θ A :=
  { s with s_fiber_count := (s.s_fiber_count + 1) % 2 ^ 64 }

/-- `--s_fiber_count`. -/
def countDown (s : FiberThreads θ A) : FiberThreads θ A :=
  { s with s_fiber_count := (2 ^ 64 - 1 + s.s_fiber_count) % 2 ^ 64 }

/-- The private constructor, which makes the main fiber. -/
def newMain (s : FiberThreads θ A) (t : θ) : FiberThreads θ A × FiberPtr :=
  let this := s.next
  let main : FiberObject θ A :=
    { m_id := 0, m_state := .exec, m_ctx := .getcontext, m_stack := false, m_cb := none,
      freed := false }
  ((({ s with next := this + 1 }.setObject this (some main)).setThis t (some this)).countUp, this)

/-- `Fiber::GetThis`. -/
def getThis (s : FiberThreads θ A) (t : θ) : Except Fault (FiberThreads θ A × FiberPtr) :=
  match (s.threads t).t_fiber with
  | some f => do
      let _ ← s.deref f
      pure (s, f)
  | none => do
      let (s, main_fiber) := s.newMain t
      assertMacro ((s.threads t).t_fiber = some main_fiber) "t_fiber == main_fiber.get()"
      pure (s.setThread t { s.threads t with t_threadFiber := some main_fiber }, main_fiber)

/-- `Fiber::GetFiberId`; there is none where the current fiber is gone. -/
def getFiberId (s : FiberThreads θ A) (t : θ) : Option ℕ :=
  match (s.threads t).t_fiber with
  | some f => (s.fiber f).map FiberObject.m_id
  | none => some 0

/-- `Fiber::TotalFibers`. -/
def totalFibers (s : FiberThreads θ A) : ℕ := s.s_fiber_count

/-- The constructor of a sub-fiber, up to where it is counted. -/
def newFiber (s : FiberThreads θ A) (t : θ) (this : FiberPtr) (cb : Callback A) (k : Code θ A) :
    FiberThreads θ A :=
  let id := (s.s_fiber_id + 1) % 2 ^ 64
  { s with s_fiber_id := id, next := this + 1 }.setPoint t (.newFiber this id cb k)

/-- `Fiber::swapIn`, up to its assertion. -/
def swapIn (s : FiberThreads θ A) (t : θ) (this : FiberPtr) (k : Code θ A) : FiberThreads θ A :=
  (s.setThis t (some this)).setPoint t (.swapIn this k)

/-- `Fiber::swapOut`, up to its `swapcontext`. -/
def swapOut (s : FiberThreads θ A) (t : θ) (this : FiberPtr) (k : Code θ A) :
    Except Fault (FiberThreads θ A) :=
  match (s.threads t).t_threadFiber with
  | none => .error .badPointer
  | some main => .ok ((s.setThis t (some main)).setPoint t (.save this main k))

/-- `YieldToReady` and `YieldToHold`, up to the assertion. -/
def yieldTo (state : FiberState) (s : FiberThreads θ A) (t : θ) (k : Code θ A) :
    Except Fault (FiberThreads θ A) := do
  let (s, cur) ← s.getThis t
  pure (s.setPoint t (.yieldTo state cur k))

/-- `Fiber::MainFunc` on the stack of `f`, up to the call of the callback. Calling an empty function
    throws `std::bad_function_call`. -/
def mainFunc (s : FiberThreads θ A) (t : θ) (f : FiberPtr) : Except Fault (FiberThreads θ A) := do
  let (s, cur) ← s.getThis t
  let x ← s.deref cur
  match x.m_cb with
  | some cb => pure (s.goto t (.callback f cur cb 0))
  | none => pure (s.setPoint t (.leave .except cur (.neverReach f)))

/-- `Fiber::~Fiber`. -/
def destruct (s : FiberThreads θ A) (t : θ) (this : FiberPtr) :
    Except Fault (FiberThreads θ A) := do
  let x ← s.deref this
  let s := s.countDown
  if x.m_stack then
    assertMacro (x.m_state = .term ∨ x.m_state = .except ∨ x.m_state = .init)
      "m_state == STATE_TERM || m_state == STATE_EXCEPT || m_state == STATE_INIT"
    pure (s.modify this fun x => { x with freed := true })
  else
    assertMacro (x.m_cb.isNone = true) "!m_cb"
    assertMacro (x.m_state = .exec) "m_state == STATE_EXEC"
    let s := if (s.threads t).t_fiber = some this then s.setThis t none else s
    pure (s.modify this fun x => { x with freed := true })

/-- The next access of the function that thread `t` is in. -/
def access (s : FiberThreads θ A) (t : θ) : Point θ A → Except Fault (FiberThreads θ A)
  | .code (.mainFunc f) => s.mainFunc t f
  | .code (.neverReach _) => .error (.assertion "never reach here")
  | .newFiber this id cb k => do
      let x : FiberObject θ A :=
        { m_id := id, m_state := .init, m_ctx := .mainFunc this, m_stack := true, m_cb := some cb,
          freed := false }
      pure ((s.setObject this (some x)).countUp.goto t k)
  | .reset this cb k => do
      let x ← s.deref this
      assertMacro x.m_stack "m_stack"
      assertMacro (x.m_state = .term ∨ x.m_state = .except ∨ x.m_state = .init)
        "m_state == STATE_TERM || m_state == STATE_EXCEPT || m_state == STATE_INIT"
      pure (s.setPoint t (.resetCb this cb k))
  | .resetCb this cb k => do
      let _ ← s.deref this
      pure ((s.modify this fun x => { x with m_cb := some cb }).setPoint t (.resetCtx this k))
  | .resetCtx this k => do
      let _ ← s.deref this
      pure ((s.modify this fun x => { x with m_ctx := .mainFunc this }).setPoint t
        (.resetState this k))
  | .resetState this k => do
      let _ ← s.deref this
      pure ((s.modify this fun x => { x with m_state := .init }).goto t k)
  | .swapIn this k => do
      let x ← s.deref this
      assertMacro (x.m_state ≠ .exec) "m_state != STATE_EXEC"
      pure (s.setPoint t (.swapInExec this k))
  | .swapInExec this k => do
      let _ ← s.deref this
      match (s.threads t).t_threadFiber with
      | none => .error .badPointer
      | some main =>
          pure ((s.modify this fun x => { x with m_state := .exec }).setPoint t (.save main this k))
  | .yieldTo state cur k => do
      let x ← s.deref cur
      assertMacro (x.m_state = .exec) "cur->m_state == STATE_EXEC"
      pure (s.setPoint t (.leave state cur k))
  | .term cur k => do
      let _ ← s.deref cur
      pure ((s.modify cur fun x => { x with m_cb := none }).setPoint t (.leave .term cur k))
  | .leave state cur k => do
      let _ ← s.deref cur
      (s.modify cur fun x => { x with m_state := state }).swapOut t cur k
  | .save oucp ucp k => do
      let _ ← s.deref oucp
      pure ((s.modify oucp fun x => { x with m_ctx := k }).setPoint t (.load oucp ucp k))
  | .load _ ucp _ => do
      let x ← s.deref ucp
      pure (s.goto t x.m_ctx)
  | .code _ => .ok s
  | .fault _ => .ok s
  | .exited => .ok s

end FiberThreads

/-! ## Steps -/

/-- An operation of the code of a main fiber. -/
inductive FiberOp (A : Type)
  | getThis
  /-- A new sub-fiber, which gets the pointer `f`. -/
  | construct (f : FiberPtr) (cb : Callback A)
  | reset (f : FiberPtr) (cb : Callback A)
  | swapIn (f : FiberPtr)
  | yieldToReady
  | yieldToHold
  /-- The last pointer to `f` goes. -/
  | destroy (f : FiberPtr)
  /-- The thread ends, and with it `t_threadFiber`, the last pointer to its main fiber. -/
  | exit
  /-- Code that does not touch a fiber. -/
  | step (a : A)

inductive ThreadsLabel (θ A : Type)
  | main (t : θ) (op : FiberOp A)
  /-- The callback running on the stack of `f`, in thread `t`, does `a`. -/
  | act (t : θ) (f : FiberPtr) (a : CbAction A)
  /-- The function of `Fiber` that thread `t` is in makes its next access. -/
  | go (t : θ)

/-- A function of `Fiber` is under way, or about to start. -/
def Point.busy : Point θ A → Bool
  | .code (.mainFunc _) => true
  | .code (.neverReach _) => true
  | .code _ => false
  | .fault _ => false
  | .exited => false
  | _ => true

namespace FiberThreads

variable [DecidableEq θ]

/-- A fault ends the thread's run. -/
def settle (s : FiberThreads θ A) (t : θ) : Except Fault (FiberThreads θ A) → FiberThreads θ A
  | .ok s' => s'
  | .error e => s.setPoint t (.fault e)

/-- The operation `op` of the main fiber's code of `t`, called where `k` comes next. -/
def mainOp (s : FiberThreads θ A) (t : θ) (k : Code θ A) :
    FiberOp A → Except Fault (FiberThreads θ A)
  | .getThis => do
      let (s, _) ← s.getThis t
      pure (s.goto t k)
  | .construct f cb => .ok (s.newFiber t f cb k)
  | .reset f cb => .ok (s.setPoint t (.reset f cb k))
  | .swapIn f => .ok (s.swapIn t f k)
  | .yieldToReady => s.yieldTo .ready t k
  | .yieldToHold => s.yieldTo .hold t k
  | .destroy f => do
      let s ← s.destruct t f
      pure (s.goto t k)
  | .exit =>
      match (s.threads t).t_threadFiber with
      | none => .ok (s.setPoint t .exited)
      | some main => do
          let s ← (s.setThread t { s.threads t with t_threadFiber := none }).destruct t main
          pure (s.setPoint t .exited)
  | .step _ => .ok (s.goto t k)

/-- What the callback `cb`, on the stack of `f`, does after `k` actions. -/
def cbAction (s : FiberThreads θ A) (t : θ) (f cur : FiberPtr) (cb : Callback A) (k : ℕ) :
    CbAction A → Except Fault (FiberThreads θ A)
  | .step _ => .ok (s.goto t (.callback f cur cb (k + 1)))
  | .yieldToReady => s.yieldTo .ready t (.callback f cur cb (k + 1))
  | .yieldToHold => s.yieldTo .hold t (.callback f cur cb (k + 1))
  | .ret => .ok (s.setPoint t (.term cur (.neverReach f)))
  | .throw => .ok (s.setPoint t (.leave .except cur (.neverReach f)))

/-- Whether a new object gets the pointer the operation says. -/
def freshFor (s : FiberThreads θ A) : FiberOp A → Bool
  | .construct f _ => f = s.next
  | _ => true

/-- One step of one thread. -/
def step [DecidableEq A] (s : FiberThreads θ A) : ThreadsLabel θ A → Option (FiberThreads θ A)
  | .main t op =>
      match (s.threads t).point with
      | .code (.main t' n) =>
          if s.freshFor op then some (s.settle t (s.mainOp t (.main t' (n + 1)) op)) else none
      | _ => none
  | .act t f a =>
      match (s.threads t).point with
      | .code (.callback f' cur cb k) =>
          if f' = f ∧ cb k = a then some (s.settle t (s.cbAction t f cur cb k a)) else none
      | _ => none
  | .go t =>
      if (s.threads t).point.busy then some (s.settle t (s.access t (s.threads t).point)) else none

end FiberThreads

end Ipmsg
