import Ipmsg.Fiber.Threads
import Ipmsg.Fiber.OwnersInvariant
import Ipmsg.Lib.Ownership

set_option autoImplicit false

/-! # Who works on which fiber

A thread works on its main fiber, on the fiber on whose stack it is, and on the one it resets or
swaps in. As long as threads take only fibers that nobody works on, each finds its fibers as it left
them, or as the thread left them that worked on them before: waiting, suspended or finished. -/

namespace Ipmsg

variable {θ A : Type}

namespace FiberThreads

/-! ## Histories -/

/-- The thread that takes the step. -/
def labelThread : ThreadsLabel θ A → θ
  | .main t _ => t
  | .act t _ _ => t
  | .go t => t

/-- The callback a fiber was given last and the actions done since, in whichever threads. -/
abbrev Record (A : Type) := Option (Callback A × List (CbAction A))

/-- What a step adds to the record of `f`. -/
def recordOf (f : FiberPtr) (r : Record A) : ThreadsLabel θ A → Record A
  | .main _ (.construct g cb) => if g = f then some (cb, []) else r
  | .main _ (.reset g cb) => if g = f then some (cb, []) else r
  | .act _ g a => if g = f then r.map fun r => (r.1, r.2 ++ [a]) else r
  | _ => r

def ranSince (f : FiberPtr) (hist : List (ThreadsLabel θ A)) : Record A :=
  hist.foldl (recordOf f) none

theorem ranSince_concat (f : FiberPtr) (hist : List (ThreadsLabel θ A)) (l : ThreadsLabel θ A) :
    ranSince f (hist ++ [l]) = recordOf f (ranSince f hist) l := by
  simp [ranSince, List.foldl_append]

section
variable [DecidableEq θ]

/-- The operations of the main fiber's code of `t`, in order. -/
def opsOf (t : θ) (hist : List (ThreadsLabel θ A)) : List (FiberOp A) :=
  hist.filterMap fun l => match l with
    | .main u op => if u = t then some op else none
    | _ => none

@[simp] theorem opsOf_concat_main (t : θ) (hist : List (ThreadsLabel θ A)) (op : FiberOp A) :
    opsOf t (hist ++ [.main t op]) = opsOf t hist ++ [op] := by
  simp [opsOf]

@[simp] theorem opsOf_concat_act (t u : θ) (hist : List (ThreadsLabel θ A)) (f : FiberPtr)
    (a : CbAction A) : opsOf t (hist ++ [.act u f a]) = opsOf t hist := by
  simp [opsOf]

@[simp] theorem opsOf_concat_go (t u : θ) (hist : List (ThreadsLabel θ A)) :
    opsOf t (hist ++ [.go u]) = opsOf t hist := by
  simp [opsOf]

theorem opsOf_concat_of_ne {t : θ} (hist : List (ThreadsLabel θ A)) {l : ThreadsLabel θ A}
    (hne : t ≠ labelThread l) : opsOf t (hist ++ [l]) = opsOf t hist := by
  cases l with
  | main u op => simp [opsOf, show u ≠ t from Ne.symm hne]
  | act u f a => simp
  | go u => simp

end

end FiberThreads

@[simp] theorem Code.stack_main (t : θ) (n : ℕ) : (Code.main t n : Code θ A).stack = none := rfl

/-! ## What a thread works on -/

/-- Its main fiber, the fiber on whose stack it is, and the one its call is about. -/
def FiberThread.Uses (x : FiberThread θ A) (f : FiberPtr) : Prop :=
  x.t_threadFiber = some f ∨ x.point.stack = some f ∨ x.point.target = some f

instance (x : FiberThread θ A) (f : FiberPtr) : Decidable (x.Uses f) :=
  inferInstanceAs (Decidable (_ ∨ _ ∨ _))

section
variable {x x' : FiberThread θ A} {f : FiberPtr}

/-- A step of a function leaves the thread where it was. -/
theorem FiberThread.uses_congr (hmain : x'.t_threadFiber = x.t_threadFiber)
    (hstack : x'.point.stack = x.point.stack) (htarget : x'.point.target = x.point.target) :
    x'.Uses f ↔ x.Uses f := by
  rw [Uses, Uses, hmain, hstack, htarget]

theorem FiberThread.uses_iff_main (hstack : x.point.stack = none)
    (htarget : x.point.target ≠ some f) : x.Uses f ↔ x.t_threadFiber = some f := by
  simp [Uses, hstack, htarget]

end

namespace FiberThreads

/-- No thread works on the fiber. -/
def Unused (s : FiberThreads θ A) (f : FiberPtr) : Prop := ∀ t, ¬ (s.threads t).Uses f

/-- What is stated of the functions of `Fiber`: the main fiber's code, once there is one, swaps in
    sub-fibers that are waiting or suspended, resets and destroys those that are waiting or finished,
    and does not yield. -/
def Stated (s : FiberThreads θ A) : ThreadsLabel θ A → Prop
  | .main t (.swapIn f) => (s.threads t).t_threadFiber.isSome ∧ ∃ x, s.fiber f = some x ∧
      x.m_stack = true ∧ (x.m_state = .init ∨ x.m_state = .ready ∨ x.m_state = .hold)
  | .main _ (.reset f _) => ∃ x, s.fiber f = some x ∧ x.m_stack = true ∧ x.m_state.AtRest
  | .main _ (.destroy f) => ∃ x, s.fiber f = some x ∧ x.m_stack = true ∧ x.m_state.AtRest
  | .main _ .yieldToReady => False
  | .main _ .yieldToHold => False
  | _ => True

/-- The fiber an operation takes or destroys is one that nobody works on. -/
def TakesUnused (s : FiberThreads θ A) : ThreadsLabel θ A → Prop
  | .main _ (.swapIn f) => s.Unused f
  | .main _ (.reset f _) => s.Unused f
  | .main _ (.destroy f) => s.Unused f
  | _ => True

end FiberThreads

/-! ## Sub-fibers -/

/-- The callback did `as` and no action of it ends it but the last. -/
def Ended (as : List (CbAction A)) : Prop :=
  ∃ as' a, as = as' ++ [a] ∧ a.ends = true ∧ ∀ b ∈ as', b.ends = false

def Live (as : List (CbAction A)) : Prop := ∀ a ∈ as, a.ends = false

namespace FiberObject

/-- The sub-fiber `f` swaps out in `state`, to go on at `k`. -/
inductive Leaves (f : FiberPtr) (cb : Callback A) (as : List (CbAction A)) (state : FiberState) :
    Code θ A → Prop
  | suspended (yields : state = .ready ∨ state = .hold) (live : Live as) :
      Leaves f cb as state (.callback f f cb as.length)
  | finished (ends : state = .term ∨ state = .except) (ended : Ended as) :
      Leaves f cb as state (.neverReach f)

/-- The sub-fiber `f` goes on at `k`, at the start of `MainFunc` or in its callback. -/
inductive GoesOn (f : FiberPtr) (x : FiberObject θ A) (cb : Callback A) (as : List (CbAction A)) :
    Code θ A → Prop
  | enter (given : x.m_cb = some cb) (nothing : as = []) : GoesOn f x cb as (.mainFunc f)
  | resume (live : Live as) : GoesOn f x cb as (.callback f f cb as.length)

/-- The sub-fiber `f` waits, is suspended or has finished. -/
inductive Parked (f : FiberPtr) (x : FiberObject θ A) (cb : Callback A) (as : List (CbAction A)) :
    Prop
  | waiting (state : x.m_state = .init) (ctx : x.m_ctx = .mainFunc f) (given : x.m_cb = some cb)
      (nothing : as = [])
  | left (leaves : Leaves f cb as x.m_state x.m_ctx)

/-- The object of a sub-fiber, which was given `cb` last and has done `as` since. -/
structure IsSub (x : FiberObject θ A) (cb : Callback A) (as : List (CbAction A)) : Prop where
  alive : x.freed = false
  stack : x.m_stack = true
  inOrder : as = (List.range as.length).map cb

structure IsMain (x : FiberObject θ A) : Prop where
  alive : x.freed = false
  stack : x.m_stack = false
  state : x.m_state = .exec
  callback : x.m_cb = none
  id : x.m_id = 0

/-- A suspended or waiting sub-fiber that is swapped in goes on where it stopped. -/
theorem Parked.goesOn {f : FiberPtr} {x : FiberObject θ A} {cb : Callback A}
    {as : List (CbAction A)} (h : x.Parked f cb as)
    (hstate : x.m_state = .init ∨ x.m_state = .ready ∨ x.m_state = .hold) (state : FiberState) :
    GoesOn f { x with m_state := state } cb as x.m_ctx := by
  rcases h with ⟨-, hctx, hcb, hnil⟩ | hleaves
  · rw [hctx]
    exact .enter hcb hnil
  · generalize x.m_ctx = k at hleaves ⊢
    cases hleaves with
    | suspended _ hlive => exact .resume hlive
    | finished hends => rcases hends with hs | hs <;> simp [hs] at hstate

theorem GoesOn.stack {f : FiberPtr} {x : FiberObject θ A} {cb : Callback A}
    {as : List (CbAction A)} {k : Code θ A} (h : GoesOn f x cb as k) : k.stack = some f := by
  cases h <;> rfl

theorem Leaves.stack {f : FiberPtr} {cb : Callback A} {as : List (CbAction A)}
    {state : FiberState} {k : Code θ A} (h : Leaves f cb as state k) : k.stack = some f := by
  cases h <;> rfl

/-- Only the state of an object says whether its callback has ended. -/
theorem Leaves.ends_iff {f : FiberPtr} {cb : Callback A} {as : List (CbAction A)}
    {state : FiberState} {k : Code θ A} (h : Leaves f cb as state k) :
    (state = .term ∨ state = .except) ↔ ∃ a ∈ as, a.ends = true := by
  cases h with
  | suspended hyields hlive =>
      refine iff_of_false ?_ ?_
      · rcases hyields with hs | hs <;> simp [hs]
      · rintro ⟨a, ha, hends⟩
        rw [hlive a ha] at hends
        exact absurd hends (by simp)
  | finished hends hended =>
      obtain ⟨as', a, rfl, ha, -⟩ := hended
      exact iff_of_true hends ⟨a, by simp, ha⟩

end FiberObject

/-! ## What a thread relies on -/

/-- An object with the record of what its callback did. -/
abbrev Recorded (θ A : Type) := Option (FiberObject θ A) × FiberThreads.Record A

namespace FiberThread

open FiberObject

variable (t : θ) (x : FiberThread θ A) (ops : List (FiberOp A)) (h : FiberPtr → Recorded θ A)

/-- The thread has no main fiber yet, or runs the code of its main fiber. -/
def Home : Prop :=
  (x.t_fiber = none ∧ x.t_threadFiber = none) ∨
    ∃ m y r, x.t_fiber = some m ∧ x.t_threadFiber = some m ∧ h m = (some y, r) ∧ y.IsMain

/-- The main fiber waits after the `swapIn` of `f`. -/
def Away (f : FiberPtr) : Prop :=
  ∃ m y r, x.t_threadFiber = some m ∧ h m = (some y, r) ∧ y.IsMain ∧
    y.m_ctx = .main t ops.length ∧ ops.getLast? = some (.swapIn f)

/-- `reset` has come to a point. -/
inductive Resetting (f : FiberPtr) (y : FiberObject θ A) (cb : Callback A) (k : Code θ A) :
    Point θ A → Prop
  | checks (state : y.m_state.AtRest) : Resetting f y cb k (.reset f cb k)
  | callback : Resetting f y cb k (.resetCb f cb k)
  | context (given : y.m_cb = some cb) : Resetting f y cb k (.resetCtx f k)
  | state (given : y.m_cb = some cb) (ctx : y.m_ctx = .mainFunc f) :
      Resetting f y cb k (.resetState f k)

/-- The thread is on the stack of `f`, which is current. -/
inductive Inside (f : FiberPtr) (y : FiberObject θ A) (cb : Callback A) (as : List (CbAction A)) :
    Point θ A → Prop
  | code {k : Code θ A} (goesOn : GoesOn f y cb as k) : Inside f y cb as (.code k)
  | yields {state : FiberState} {k : Code θ A} (leaves : Leaves f cb as state k) :
      Inside f y cb as (.yieldTo state f k)
  | returns (ended : Ended as) : Inside f y cb as (.term f (.neverReach f))
  | leaves {state : FiberState} {k : Code θ A} (leaves : Leaves f cb as state k) :
      Inside f y cb as (.leave state f k)

/-- What thread `t`, whose main fiber's code has done `ops`, relies on. -/
inductive Works : Prop
  | idle (point : x.point = .code (.main t ops.length)) (home : Home x h)
  | constructing (f id : ℕ) (cb : Callback A)
      (point : x.point = .newFiber f id cb (.main t ops.length)) (home : Home x h)
      (given : h f = (none, some (cb, [])))
  | resetting (f : FiberPtr) (y : FiberObject θ A) (cb : Callback A) (home : Home x h)
      (obj : h f = (some y, some (cb, []))) (sub : y.IsSub cb [])
      (point : Resetting f y cb (.main t ops.length) x.point)
  | entering (f m : FiberPtr) (y z : FiberObject θ A) (r : FiberThreads.Record A) (cb : Callback A)
      (as : List (CbAction A)) (current : x.t_fiber = some f) (main : x.t_threadFiber = some m)
      (mainObj : h m = (some z, r)) (isMain : z.IsMain) (obj : h f = (some y, some (cb, as)))
      (sub : y.IsSub cb as) (parked : y.Parked f cb as)
      (state : y.m_state = .init ∨ y.m_state = .ready ∨ y.m_state = .hold)
      (last : ops.getLast? = some (.swapIn f))
      (point : x.point = .swapIn f (.main t ops.length) ∨
        x.point = .swapInExec f (.main t ops.length))
  | switchingIn (f m : FiberPtr) (y z : FiberObject θ A) (r : FiberThreads.Record A)
      (cb : Callback A) (as : List (CbAction A)) (current : x.t_fiber = some f)
      (main : x.t_threadFiber = some m) (mainObj : h m = (some z, r)) (isMain : z.IsMain)
      (obj : h f = (some y, some (cb, as))) (sub : y.IsSub cb as) (state : y.m_state = .exec)
      (goesOn : GoesOn f y cb as y.m_ctx) (last : ops.getLast? = some (.swapIn f))
      (point : x.point = .save m f (.main t ops.length) ∨
        x.point = .load m f (.main t ops.length) ∧ z.m_ctx = .main t ops.length)
  | inside (f : FiberPtr) (y : FiberObject θ A) (cb : Callback A) (as : List (CbAction A))
      (current : x.t_fiber = some f) (away : Away t x ops h f)
      (obj : h f = (some y, some (cb, as))) (sub : y.IsSub cb as) (state : y.m_state = .exec)
      (point : Inside f y cb as x.point)
  | switchingOut (f m : FiberPtr) (y : FiberObject θ A) (cb : Callback A) (as : List (CbAction A))
      (k : Code θ A) (current : x.t_fiber = some m) (main : x.t_threadFiber = some m)
      (away : Away t x ops h f) (obj : h f = (some y, some (cb, as))) (sub : y.IsSub cb as)
      (leaves : Leaves f cb as y.m_state k)
      (point : x.point = .save f m k ∨ x.point = .load f m k ∧ y.m_ctx = k)
  | exited (point : x.point = .exited) (gone : x.t_threadFiber = none)

section
variable {t x ops h} {x' : FiberThread θ A} {h' : FiberPtr → Recorded θ A}

theorem Home.mono (hh : Home x h) (hcur : x'.t_fiber = x.t_fiber)
    (hmain : x'.t_threadFiber = x.t_threadFiber)
    (heq : ∀ m y r, x.t_threadFiber = some m → h m = (some y, r) → y.IsMain → h' m = (some y, r)) :
    Home x' h' := by
  rcases hh with ⟨hc, hm⟩ | ⟨m, y, r, hc, hm, hobj, hy⟩
  · exact Or.inl ⟨hcur.trans hc, hmain.trans hm⟩
  · exact Or.inr ⟨m, y, r, hcur.trans hc, hmain.trans hm, heq m y r hm hobj hy, hy⟩

theorem Away.mono {f : FiberPtr} (hh : Away t x ops h f) (hmain : x'.t_threadFiber = x.t_threadFiber)
    (heq : ∀ m y r, x.t_threadFiber = some m → h m = (some y, r) → y.IsMain → h' m = (some y, r)) :
    Away t x' ops h' f := by
  obtain ⟨m, y, r, hm, hobj, hy, hrest⟩ := hh
  exact ⟨m, y, r, hmain.trans hm, heq m y r hm hobj hy, hy, hrest⟩

theorem Resetting.target {f : FiberPtr} {y : FiberObject θ A} {cb : Callback A} {k : Code θ A}
    {p : Point θ A} (hp : Resetting f y cb k p) : p.target = some f := by
  cases hp <;> rfl

theorem Resetting.stack {f : FiberPtr} {y : FiberObject θ A} {cb : Callback A} {n : ℕ}
    {p : Point θ A} (hp : Resetting f y cb (.main t n) p) : p.stack = none := by
  cases hp <;> rfl

theorem Inside.stack {f : FiberPtr} {y : FiberObject θ A} {cb : Callback A}
    {as : List (CbAction A)} {p : Point θ A} (hp : Inside f y cb as p) : p.stack = some f := by
  cases hp with
  | code hk => exact hk.stack
  | yields hk => exact hk.stack
  | returns => rfl
  | leaves hk => exact hk.stack

/-- What a thread relies on is about what it works on. -/
theorem Works.frame (hw : Works t x ops h) (heq : ∀ k, x.Uses k → h' k = h k) :
    Works t x ops h' := by
  have hmain : ∀ m y r, x.t_threadFiber = some m → h m = (some y, r) → y.IsMain →
      h' m = (some y, r) := fun m y r hm hobj _ => (heq m (Or.inl hm)).trans hobj
  cases hw with
  | idle hpoint hhome => exact .idle hpoint (hhome.mono rfl rfl hmain)
  | constructing f id cb hpoint hhome hgiven =>
      refine .constructing f id cb hpoint (hhome.mono rfl rfl hmain) ((heq f ?_).trans hgiven)
      exact Or.inr (Or.inr (by rw [hpoint]; rfl))
  | resetting f y cb hhome hobj hsub hpoint =>
      refine .resetting f y cb (hhome.mono rfl rfl hmain) ((heq f ?_).trans hobj) hsub hpoint
      exact Or.inr (Or.inr hpoint.target)
  | entering f m y z r cb as hcur hm hmobj hz hobj hsub hparked hstate hlast hpoint =>
      refine .entering f m y z r cb as hcur hm ((heq m (Or.inl hm)).trans hmobj) hz
        ((heq f ?_).trans hobj) hsub hparked hstate hlast hpoint
      refine Or.inr (Or.inr ?_)
      rcases hpoint with hp | hp <;> rw [hp] <;> rfl
  | switchingIn f m y z r cb as hcur hm hmobj hz hobj hsub hstate hgoes hlast hpoint =>
      refine .switchingIn f m y z r cb as hcur hm ((heq m (Or.inl hm)).trans hmobj) hz
        ((heq f ?_).trans hobj) hsub hstate hgoes hlast hpoint
      refine Or.inr (Or.inr ?_)
      rcases hpoint with hp | ⟨hp, -⟩ <;> rw [hp] <;> rfl
  | inside f y cb as hcur haway hobj hsub hstate hpoint =>
      refine .inside f y cb as hcur (haway.mono rfl hmain) ((heq f ?_).trans hobj) hsub hstate hpoint
      exact Or.inr (Or.inl hpoint.stack)
  | switchingOut f m y cb as k hcur hm haway hobj hsub hleaves hpoint =>
      refine .switchingOut f m y cb as k hcur hm (haway.mono rfl hmain) ((heq f ?_).trans hobj) hsub
        hleaves hpoint
      refine Or.inr (Or.inl ?_)
      rcases hpoint with hp | ⟨hp, -⟩ <;> rw [hp] <;> exact hleaves.stack
  | exited hpoint hgone => exact .exited hpoint hgone

end

end FiberThread

/-! ## The invariant -/

namespace FiberThreads

/-- What is left of an object that nobody works on. -/
def Rests (f : FiberPtr) (o : Recorded θ A) : Prop :=
  ∀ x, o.1 = some x → x.freed = false → ∃ cb as, o.2 = some (cb, as) ∧ x.IsSub cb as ∧
    x.Parked f cb as

/-- Threads, with the operations of their main fibers' code, share the fibers. -/
def sharing (θ A : Type) :
    Ownership θ (FiberThread θ A × List (FiberOp A)) FiberPtr (Recorded θ A) where
  owns := fun x => x.1.Uses
  Works := fun t x h => FiberThread.Works t x.1 x.2 h
  Rests := Rests
  frame := fun heq hw => hw.frame heq

def heapOf (hist : List (ThreadsLabel θ A)) (s : FiberThreads θ A) (f : FiberPtr) : Recorded θ A :=
  (s.objects f, ranSince f hist)

variable [DecidableEq θ]

def threadsOf (hist : List (ThreadsLabel θ A)) (s : FiberThreads θ A) (t : θ) :
    FiberThread θ A × List (FiberOp A) :=
  (s.threads t, opsOf t hist)

structure Inv (hist : List (ThreadsLabel θ A)) (s : FiberThreads θ A) : Prop where
  shared : (sharing θ A).Inv (threadsOf hist s) (heapOf hist s)
  fresh : ∀ f, s.next ≤ f → s.objects f = none ∧ s.Unused f

namespace Inv

variable {hist : List (ThreadsLabel θ A)} {s s' : FiberThreads θ A} {l : ThreadsLabel θ A}

theorem works (h : Inv hist s) (t : θ) : (s.threads t).Works t (opsOf t hist) (heapOf hist s) :=
  h.shared.works t

theorem rests (h : Inv hist s) {f : FiberPtr} (hf : s.Unused f) : Rests f (heapOf hist s f) :=
  h.shared.rests f hf

/-- A thread that takes a step takes unused fibers and new ones, and leaves the others as they are.
-/
theorem next (h : Inv hist s) {t : θ} (ht : labelThread l = t) (hnext : s.next ≤ s'.next)
    (hother : ∀ u, u ≠ t → s'.threads u = s.threads u)
    (htake : ∀ f, (s'.threads t).Uses f → (s.threads t).Uses f ∨ s.Unused f ∧ f < s'.next)
    (hkeep : ∀ f, ¬ (s.threads t).Uses f → ¬ (s'.threads t).Uses f →
      heapOf (hist ++ [l]) s' f = heapOf hist s f ∨
        s.Unused f ∧ f < s'.next ∧ Rests f (heapOf (hist ++ [l]) s' f))
    (hworks : (s'.threads t).Works t (opsOf t (hist ++ [l])) (heapOf (hist ++ [l]) s'))
    (hrests : ∀ f, (s.threads t).Uses f → ¬ (s'.threads t).Uses f →
      Rests f (heapOf (hist ++ [l]) s' f)) : Inv (hist ++ [l]) s' := by
  refine ⟨h.shared.step (fun u hu => ?_) (fun f hf => (htake f hf).imp_right And.left)
    (fun f hf hf' => (hkeep f hf hf').imp_right fun hk => ⟨hk.1, hk.2.2⟩) hworks hrests,
    fun f hf => ?_⟩
  · exact Prod.ext (hother u hu) (opsOf_concat_of_ne hist (ht ▸ hu))
  · obtain ⟨hnone, hunused⟩ := h.fresh f (Nat.le_trans hnext hf)
    have hnot : ¬ (s'.threads t).Uses f := fun hu =>
      (htake f hu).elim (hunused t) fun htaken => absurd hf (Nat.not_le.2 htaken.2)
    refine ⟨?_, fun u => ?_⟩
    · rcases hkeep f (hunused t) hnot with heq | ⟨-, hlt, -⟩
      · exact (congrArg Prod.fst heq).trans hnone
      · exact absurd hf (Nat.not_le.2 hlt)
    · by_cases hu : u = t
      · rw [hu]
        exact hnot
      · rw [hother u hu]
        exact hunused u

end Inv

end FiberThreads

end Ipmsg
