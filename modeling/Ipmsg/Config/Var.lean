import Mathlib.Algebra.Group.Nat.Defs
import Mathlib.Order.Nat
import Ipmsg.Basic
import Ipmsg.Lib.KeyedSet

set_option autoImplicit false

/-! # Configuration variables

A `ConfigVar<T>` keeps a value and the listeners that are called, in the order of their ids, before
the value changes. A listener is a function of the old and the new value that may throw; what it
does elsewhere is not part of the variable. The message `fromString` logs for an exception is left
out. -/

namespace Ipmsg

variable {T : Type}

/-- `on_change_back`. -/
abbrev Listener (T : Type) := T → T → Except StdException Unit

/-- One call of a listener. -/
structure Call (T : Type) where
  id : ℕ
  old_value : T
  new_value : T

/-- The pair of values a listener was called with. -/
def Call.change (c : Call T) : T × T := (c.old_value, c.new_value)

/-- `ConfigVar<T>` with its base class. -/
structure ConfigVar (T : Type) where
  m_name : String
  m_val : T
  m_cbs : OrdMap ℕ (Listener T)

namespace ConfigVar

/-- The constructor; the base class lowers the name. -/
def new (name : String) (default_value : T) : ConfigVar T :=
  { m_name := tolower name, m_val := default_value, m_cbs := ∅ }

/-! ## Changing the value -/

/-- The loop over `m_cbs`; it ends at the first listener that throws. -/
def callListeners (old_value new_value : T) :
    List (ℕ × Listener T) → List (Call T) × Option StdException
  | [] => ([], none)
  | (id, cb) :: rest =>
      match cb old_value new_value with
      | .error e => ([⟨id, old_value, new_value⟩], some e)
      | .ok _ =>
          let (calls, thrown) := callListeners old_value new_value rest
          (⟨id, old_value, new_value⟩ :: calls, thrown)

/-- The first critical section of `setValue`, under the read lock: whether the value is the same,
    the calls made, and the exception that left the section. -/
def notify [BEq T] (x : ConfigVar T) (v : T) : Bool × List (Call T) × Option StdException :=
  if v == x.m_val then (true, [], none)
  else (false, callListeners x.m_val v x.m_cbs.elems)

/-- The second critical section of `setValue`, under the write lock. -/
def store (x : ConfigVar T) (v : T) : ConfigVar T := { x with m_val := v }

/-- `ConfigVar::setValue`: the variable, the calls made and the exception thrown. -/
def setValue [BEq T] (x : ConfigVar T) (v : T) :
    ConfigVar T × List (Call T) × Option StdException :=
  match x.notify v with
  | (true, calls, thrown) => (x, calls, thrown)
  | (false, calls, some e) => (x, calls, some e)
  | (false, calls, none) => (x.store v, calls, none)

/-- `ConfigVar::fromString`: the variable, the calls made and the result, which is always false. -/
def fromString [BEq T] (fromStr : String → Except StdException T) (x : ConfigVar T)
    (val : String) : ConfigVar T × List (Call T) × Bool :=
  match fromStr val with
  | .error _ => (x, [], false)
  | .ok v =>
      let (x, calls, _) := x.setValue v
      (x, calls, false)

/-! ## Listeners -/

/-- `ConfigVar::addListener` on the counter `s_fun_id` that all variables of the type share: the id
    returned, which is also the new value of the counter. -/
def addListener (x : ConfigVar T) (s_fun_id : ℕ) (ocb : Listener T) : ConfigVar T × ℕ :=
  let s_fun_id := (s_fun_id + 1) % 2 ^ 64
  ({ x with m_cbs := x.m_cbs.assign (s_fun_id, ocb) }, s_fun_id)

/-- `ConfigVar::delListener`. -/
def delListener (x : ConfigVar T) (key : ℕ) : ConfigVar T :=
  { x with m_cbs := x.m_cbs.erase key }

/-- `ConfigVar::clearListener`. -/
def clearListener (x : ConfigVar T) : ConfigVar T := { x with m_cbs := ∅ }

end ConfigVar

/-! ## What setting a value does -/

/-- The listener never throws. -/
def Listener.Quiet (cb : Listener T) : Prop := ∀ a b, cb a b = .ok ()

namespace ConfigVar

/-- The loop calls all listeners, or those up to the first that throws. -/
theorem callListeners_spec (a b : T) (cbs : List (ℕ × Listener T)) :
    ((∀ e ∈ cbs, e.2 a b = .ok ()) ∧
        callListeners a b cbs = (cbs.map fun e => ⟨e.1, a, b⟩, none)) ∨
      ∃ before e after err, cbs = before ++ e :: after ∧ (∀ e ∈ before, e.2 a b = .ok ()) ∧
        e.2 a b = .error err ∧
        callListeners a b cbs = ((before ++ [e]).map fun e => ⟨e.1, a, b⟩, some err) := by
  induction cbs with
  | nil => exact Or.inl ⟨by simp, rfl⟩
  | cons e cbs ih =>
      obtain ⟨id, cb⟩ := e
      cases hcb : cb a b with
      | error err =>
          refine Or.inr ⟨[], (id, cb), cbs, err, rfl, by simp, hcb, ?_⟩
          simp only [callListeners, hcb, List.nil_append, List.map_cons, List.map_nil]
      | ok _ =>
          rcases ih with ⟨hall, heq⟩ | ⟨before, e, after, err, rfl, hbefore, he, heq⟩
          · refine Or.inl ⟨List.forall_mem_cons.2 ⟨hcb, hall⟩, ?_⟩
            simp only [callListeners, hcb, heq, List.map_cons]
          · refine Or.inr ⟨(id, cb) :: before, e, after, err, rfl,
              List.forall_mem_cons.2 ⟨hcb, hbefore⟩, he, ?_⟩
            simp only [callListeners, hcb, heq, List.cons_append, List.map_cons]

/-- Quiet listeners are all called. -/
theorem callListeners_quiet (a b : T) {cbs : List (ℕ × Listener T)}
    (h : ∀ e ∈ cbs, e.2.Quiet) :
    callListeners a b cbs = (cbs.map fun e => ⟨e.1, a, b⟩, none) := by
  rcases callListeners_spec a b cbs with ⟨-, heq⟩ | ⟨before, e, after, err, rfl, -, he, -⟩
  · exact heq
  · rw [h e (by simp) a b] at he
    exact absurd he (by simp)

theorem setValue_same [BEq T] {x : ConfigVar T} {v : T} (h : (v == x.m_val) = true) :
    x.setValue v = (x, [], none) := by
  simp only [setValue, notify, if_pos h]

/-- A different value reaches every listener and is stored. -/
theorem setValue_changed [BEq T] {x : ConfigVar T} {v : T} (h : ¬ (v == x.m_val) = true)
    (hquiet : ∀ e ∈ x.m_cbs, e.2.Quiet) :
    x.setValue v = (x.store v, x.m_cbs.elems.map fun e => ⟨e.1, x.m_val, v⟩, none) := by
  simp only [setValue, notify, if_neg h, callListeners_quiet x.m_val v hquiet]

/-- Setting a value keeps the name and the listeners. -/
theorem setValue_keeps [BEq T] (x : ConfigVar T) (v : T) :
    (x.setValue v).1.m_name = x.m_name ∧ (x.setValue v).1.m_cbs = x.m_cbs := by
  unfold setValue
  split <;> exact ⟨rfl, rfl⟩

/-- An exception leaves the variable as it was. -/
theorem setValue_thrown [BEq T] {x x' : ConfigVar T} {v : T} {calls : List (Call T)}
    {e : StdException} (h : x.setValue v = (x', calls, some e)) : x' = x := by
  unfold setValue at h
  split at h
  · exact (Prod.mk.inj h).1.symm
  · exact (Prod.mk.inj h).1.symm
  · exact absurd (Prod.mk.inj (Prod.mk.inj h).2).2 (by simp)

/-- A text that can be converted is set as a value. -/
theorem fromString_setValue [BEq T] {fromStr : String → Except StdException T} {val : String}
    {v : T} (h : fromStr val = .ok v) (x : ConfigVar T) :
    x.fromString fromStr val = ((x.setValue v).1, (x.setValue v).2.1, false) := by
  simp only [fromString, h]

/-- An exception comes from a listener that was called. -/
theorem callListeners_thrown {a b : T} {cbs : List (ℕ × Listener T)} {calls : List (Call T)}
    {e : StdException} (h : callListeners a b cbs = (calls, some e)) : calls ≠ [] := by
  rcases callListeners_spec a b cbs with ⟨-, heq⟩ | ⟨before, e', after, err, -, -, -, heq⟩
  · rw [heq] at h
    exact absurd (Prod.mk.inj h).2 (by simp)
  · rw [heq] at h
    rw [← (Prod.mk.inj h).1]
    simp

/-- Setting a value does nothing at all only if it is the same value. -/
theorem setValue_idle_iff [BEq T] [ReflBEq T] {x : ConfigVar T} {v : T} :
    (x.setValue v).1 = x ∧ (x.setValue v).2.1 = [] ↔ (v == x.m_val) = true := by
  constructor
  · rintro ⟨hvar, hcalls⟩
    by_contra hne
    simp only [setValue, notify, if_neg hne] at hvar hcalls
    rcases hloop : callListeners x.m_val v x.m_cbs.elems with ⟨calls, _ | e⟩
    · rw [hloop] at hvar
      have hval : v = x.m_val := congrArg ConfigVar.m_val hvar
      exact hne (hval ▸ BEq.rfl)
    · rw [hloop] at hcalls
      exact callListeners_thrown hloop hcalls
  · intro h
    rw [setValue_same h]
    exact ⟨rfl, rfl⟩

theorem fromString_idle_iff [BEq T] [ReflBEq T] {fromStr : String → Except StdException T}
    {x : ConfigVar T} {val : String} :
    (x.fromString fromStr val).1 = x ∧ (x.fromString fromStr val).2.1 = [] ↔
      ∀ v, fromStr val = .ok v → (v == x.m_val) = true := by
  cases h : fromStr val with
  | error e => simp [fromString, h]
  | ok v =>
      rw [fromString_setValue h, setValue_idle_iff]
      simp

theorem fromString_keeps [BEq T] (fromStr : String → Except StdException T) (x : ConfigVar T)
    (val : String) :
    (x.fromString fromStr val).1.m_name = x.m_name ∧
      (x.fromString fromStr val).1.m_cbs = x.m_cbs := by
  unfold fromString
  split
  · exact ⟨rfl, rfl⟩
  · next v _ => exact x.setValue_keeps v

end ConfigVar

end Ipmsg
