import Mathlib.Logic.Function.Basic
import Mathlib.Order.Nat
import Ipmsg.Lib.Run
import Ipmsg.Basic

set_option autoImplicit false

/-! # Threads

The program is a step function over all its threads. `run` is cut where it lets the constructor go
on and where the callback starts; code of the program runs in the main thread and in callbacks.
`join` and the callbacks themselves are left out: what they do is the choice of the steps. What is
done through a pointer to an object that is gone is undefined, and no step.

A `Thread` object and the thread it starts have the same number; no number is used twice. -/

namespace Ipmsg

/-! ## State -/

/-- A `Thread` object. -/
structure Thread where
  m_id : Option ℕ := none
  m_name : String
  m_semaphore : ℕ := 0
  /-- Whether the constructor has returned. -/
  constructed : Bool := false

/-- Where a thread is. -/
inductive ThreadStage
  | main
  /-- In `run`: not started yet, before the `notify()`, and after it. -/
  | created
  | entered
  | notified
  | callback
  | finished
  deriving DecidableEq

/-- A thread of the system, with its `thread_local` variables. -/
structure Pthread where
  stage : ThreadStage
  t_thread : Option ℕ := none
  t_thread_name : String := "UNKNOW"
  /-- The name given to `pthread_setname_np`. -/
  system_name : List UInt8 := []
  /-- The object in whose constructor the thread waits. -/
  waits : Option ℕ := none

structure Process where
  objects : ℕ → Option Thread
  pthreads : ℕ → Option Pthread
  next : ℕ

namespace Process

/-- A program that has not created a thread yet. -/
def init : Process :=
  { objects := fun _ => none
    pthreads := Function.update (fun _ => none) 0 (some { stage := .main })
    next := 1 }

def setObject (s : Process) (p : ℕ) (o : Option Thread) : Process :=
  { s with objects := Function.update s.objects p o }

def setPthread (s : Process) (t : ℕ) (x : Pthread) : Process :=
  { s with pthreads := Function.update s.pthreads t (some x) }

@[simp] theorem setObject_objects (s : Process) (p q : ℕ) (o : Option Thread) :
    (s.setObject p o).objects q = if q = p then o else s.objects q := Function.update_apply ..

@[simp] theorem setObject_pthreads (s : Process) (p : ℕ) (o : Option Thread) :
    (s.setObject p o).pthreads = s.pthreads := rfl

@[simp] theorem setPthread_objects (s : Process) (t : ℕ) (x : Pthread) :
    (s.setPthread t x).objects = s.objects := rfl

@[simp] theorem setPthread_pthreads (s : Process) (t u : ℕ) (x : Pthread) :
    (s.setPthread t x).pthreads u = if u = t then some x else s.pthreads u :=
  Function.update_apply ..

/-- The thread, if it is running code of the program. -/
def user (s : Process) (t : ℕ) : Option Pthread :=
  (s.pthreads t).filter fun x => (x.stage = .main ∨ x.stage = .callback) ∧ x.waits = none

theorem user_eq_some {s : Process} {t : ℕ} {x : Pthread} : s.user t = some x ↔
    s.pthreads t = some x ∧ (x.stage = .main ∨ x.stage = .callback) ∧ x.waits = none := by
  rw [user, Option.filter_eq_some_iff, decide_eq_true_iff]

/-! ## The functions of `Thread` -/

/-- `Thread::GetThis()` in thread `t`. -/
def getThis (s : Process) (t : ℕ) : Option ℕ := (s.pthreads t).bind Pthread.t_thread

/-- `Thread::GetName()` in thread `t`. -/
def getName (s : Process) (t : ℕ) : Option String := (s.pthreads t).map Pthread.t_thread_name

/-- `Thread::setName` in thread `t`. -/
def setName (s : Process) (t : ℕ) (name : String) : Option Process :=
  (s.user t).bind fun x =>
    let s := s.setPthread t { x with t_thread_name := name }
    match x.t_thread with
    | none => some s
    | some p => (s.objects p).map fun o => s.setObject p (some { o with m_name := name })

/-- The constructor up to the `m_semaphore.wait()`, in thread `t`; `rt` is what `pthread_create`
    returns. If it fails, the exception leaves no object. -/
def construct (s : Process) (t : ℕ) (name : String) (rt : ℕ) : Option Process :=
  (s.user t).map fun x =>
    if rt ≠ 0 then s
    else
      let m_name := if name = "" then "UNKNOW" else name
      let s' := s.setPthread t { x with waits := some s.next }
      { (s'.setObject s.next (some { m_name })).setPthread s.next { stage := .created } with
        next := s.next + 1 }

/-- `sem_wait` has taken the count of the semaphore, and the constructor returns. -/
def wake (s : Process) (t : ℕ) : Option Process :=
  (s.pthreads t).bind fun x => x.waits.bind fun p => (s.objects p).bind fun o =>
    if 0 < o.m_semaphore then
      some ((s.setPthread t { x with waits := none }).setObject p
        (some { o with m_semaphore := o.m_semaphore - 1, constructed := true }))
    else none

/-- `sem_wait` fails while it waits. The constructor throws, and its members are destroyed. -/
def interrupt (s : Process) (t : ℕ) : Option Process :=
  (s.pthreads t).bind fun x => x.waits.bind fun p => (s.objects p).bind fun o =>
    if o.m_semaphore = 0 then
      some ((s.setPthread t { x with waits := none }).setObject p none)
    else none

/-- The destructor, in thread `t`. -/
def destroy (s : Process) (t p : ℕ) : Option Process :=
  (s.user t).bind fun _ => (s.objects p).bind fun o =>
    if o.constructed then some (s.setObject p none) else none

/-- `Thread::run` in thread `u`, up to the `notify()`. -/
def enter (s : Process) (u : ℕ) : Option Process :=
  (s.pthreads u).bind fun x => (s.objects u).bind fun o =>
    if x.stage = .created then
      some ((s.setPthread u { x with
          stage := .entered
          t_thread := some u
          system_name := ((bytes o.m_name).take 15).takeWhile fun b => b ≠ 0 }).setObject u
        (some { o with m_id := some u }))
    else none

/-- The `notify()`. -/
def notify (s : Process) (u : ℕ) : Option Process :=
  (s.pthreads u).bind fun x => (s.objects u).bind fun o =>
    if x.stage = .entered then
      some ((s.setPthread u { x with stage := .notified }).setObject u
        (some { o with m_semaphore := o.m_semaphore + 1 }))
    else none

/-- The callback starts. -/
def call (s : Process) (u : ℕ) : Option Process :=
  (s.pthreads u).bind fun x =>
    if x.stage = .notified then some (s.setPthread u { x with stage := .callback }) else none

/-- The callback returns, and with it `run`. -/
def finish (s : Process) (u : ℕ) : Option Process :=
  (s.user u).bind fun x =>
    if x.stage = .callback then some (s.setPthread u { x with stage := .finished }) else none

end Process

/-! ## Steps -/

inductive ThreadStep
  | construct (t : ℕ) (name : String) (rt : ℕ)
  | wake (t : ℕ)
  | interrupt (t : ℕ)
  | destroy (t p : ℕ)
  | enter (u : ℕ)
  | notify (u : ℕ)
  | call (u : ℕ)
  | setName (t : ℕ) (name : String)
  | finish (u : ℕ)

namespace Process

def step (s : Process) : ThreadStep → Option Process
  | .construct t name rt => s.construct t name rt
  | .wake t => s.wake t
  | .interrupt t => s.interrupt t
  | .destroy t p => s.destroy t p
  | .enter u => s.enter u
  | .notify u => s.notify u
  | .call u => s.call u
  | .setName t name => s.setName t name
  | .finish u => s.finish u

end Process

end Ipmsg
