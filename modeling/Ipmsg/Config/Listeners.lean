import Ipmsg.Config.Var
import Ipmsg.Lib.Chain
import Mathlib.Data.List.Induction
import Mathlib.Logic.Function.Basic

set_option autoImplicit false

/-! # Listeners of several variables

Any number of `ConfigVar<T>` objects of one type share the counter that `addListener` takes its ids
from. This module follows whole sequences of calls on them: the ids, which listeners are registered,
and the changes each of them has been told of. -/

namespace Ipmsg

variable {ι T : Type}

/-! ## Calls and events -/

/-- The public calls on the variables; `i` is the variable called. -/
inductive Op (ι T : Type)
  | addListener (i : ι) (ocb : Listener T)
  | delListener (i : ι) (key : ℕ)
  | clearListener (i : ι)
  | setValue (i : ι) (v : T)
  | fromString (i : ι) (val : String)

/-- What a caller or a listener sees. -/
inductive Event (ι T : Type)
  | returned (i : ι) (id : ℕ)
  | called (i : ι) (call : Call T)

/-- The variables and the counter they share. -/
structure Vars (ι T : Type) where
  var : ι → ConfigVar T
  s_fun_id : ℕ

namespace Op

def isAdd : Op ι T → Bool
  | addListener _ _ => true
  | _ => false

/-- The call takes the listener with this id out of the variable. -/
def Removes (i : ι) (id : ℕ) : Op ι T → Prop
  | delListener j key => j = i ∧ key = id
  | clearListener j => j = i
  | _ => False

/-- A listener that is added never throws. -/
def Quiet : Op ι T → Prop
  | addListener _ ocb => ocb.Quiet
  | _ => True

end Op

variable [DecidableEq ι] [BEq T] (fromStr : String → Except StdException T)

/-- One call: the variables after it, and what was seen. -/
def Vars.step (s : Vars ι T) : Op ι T → Vars ι T × List (Event ι T)
  | .addListener i ocb =>
      let (x, id) := (s.var i).addListener s.s_fun_id ocb
      ({ var := Function.update s.var i x, s_fun_id := id }, [.returned i id])
  | .delListener i key =>
      ({ s with var := Function.update s.var i ((s.var i).delListener key) }, [])
  | .clearListener i => ({ s with var := Function.update s.var i (s.var i).clearListener }, [])
  | .setValue i v =>
      let (x, calls, _) := (s.var i).setValue v
      ({ s with var := Function.update s.var i x }, calls.map (.called i))
  | .fromString i val =>
      let (x, calls, _) := (s.var i).fromString fromStr val
      ({ s with var := Function.update s.var i x }, calls.map (.called i))

/-- A sequence of calls on the variables `vars`, from the first registration on. -/
def runOps (vars : ι → ConfigVar T) (ops : List (Op ι T)) : Vars ι T × List (Event ι T) :=
  ops.foldl (fun c op => ((c.1.step fromStr op).1, c.2 ++ (c.1.step fromStr op).2))
    ({ var := vars, s_fun_id := 0 }, [])

/-- The ids returned, over all variables. -/
def idsOf (es : List (Event ι T)) : List ℕ :=
  es.filterMap fun
    | .returned _ id => some id
    | .called _ _ => none

/-- The changes listener `id` of variable `i` was called with. -/
def changesOf (i : ι) (id : ℕ) (es : List (Event ι T)) : List (T × T) :=
  es.filterMap fun
    | .called j call => if j = i ∧ call.id = id then some call.change else none
    | .returned _ _ => none

/-- The `cb` that got `id` from `addListener` on `i`, when the value was `start`, has not been taken
    out since. -/
def Registered (vars : ι → ConfigVar T) (ops : List (Op ι T)) (i : ι) (id : ℕ) (cb : Listener T)
    (start : T) : Prop :=
  ∃ before after, ops = before ++ .addListener i cb :: after ∧
    ((runOps fromStr vars before).1.step fromStr (.addListener i cb)).2 = [.returned i id] ∧
    ((runOps fromStr vars before).1.var i).m_val = start ∧ ∀ op ∈ after, ¬ op.Removes i id

/-! ## One call more -/

theorem runOps_concat (vars : ι → ConfigVar T) (ops : List (Op ι T)) (op : Op ι T) :
    runOps fromStr vars (ops ++ [op]) =
      (((runOps fromStr vars ops).1.step fromStr op).1,
        (runOps fromStr vars ops).2 ++ ((runOps fromStr vars ops).1.step fromStr op).2) := by
  simp only [runOps, List.foldl_append, List.foldl_cons, List.foldl_nil]

omit [BEq T] in
theorem changesOf_append (i : ι) (id : ℕ) (es es' : List (Event ι T)) :
    changesOf i id (es ++ es') = changesOf i id es ++ changesOf i id es' :=
  List.filterMap_append

omit [BEq T] in
/-- Calling all listeners of a variable tells each of its listeners once. -/
theorem changesOf_called (i j : ι) (id : ℕ) (a b : T) (cbs : OrdMap ℕ (Listener T)) :
    changesOf j id ((cbs.elems.map fun e => (⟨e.1, a, b⟩ : Call T)).map (Event.called i)) =
      if i = j then (cbs.find? id).toList.map fun _ => (a, b) else [] := by
  rw [← KeyedSet.filter_key_eq, changesOf, List.map_map, List.filterMap_map]
  split
  · next hij =>
      rw [← List.filterMap_eq_map, List.filterMap_filter]
      refine List.filterMap_congr fun e _ => ?_
      by_cases he : e.1 = id <;> simp [hij, he, Call.change]
  · next hij =>
      refine List.filterMap_eq_nil_iff.2 fun e _ => ?_
      simp [hij]

omit [BEq T] [DecidableEq ι] in
theorem idsOf_append (es es' : List (Event ι T)) : idsOf (es ++ es') = idsOf es ++ idsOf es' :=
  List.filterMap_append

omit [BEq T] [DecidableEq ι] in
/-- Calls of listeners return no ids. -/
theorem idsOf_called (i : ι) (calls : List (Call T)) : idsOf (calls.map (Event.called i)) = [] := by
  rw [idsOf, List.filterMap_map]
  exact List.filterMap_eq_nil_iff.2 fun _ _ => rfl

omit [BEq T] in
/-- Replacing one variable by one that agrees with it in `g` changes `g` of none. -/
theorem update_keeps {β : Type} (g : ConfigVar T → β) {var : ι → ConfigVar T} {i : ι}
    {x : ConfigVar T} (h : g x = g (var i)) (j : ι) : g (Function.update var i x j) = g (var j) := by
  by_cases hj : j = i
  · rw [hj, Function.update_self, h]
  · rw [Function.update_of_ne hj]

theorem registered_concat {vars : ι → ConfigVar T} {ops : List (Op ι T)} {op : Op ι T} {i : ι}
    {id : ℕ} {cb : Listener T} {start : T} :
    Registered fromStr vars (ops ++ [op]) i id cb start ↔
      (Registered fromStr vars ops i id cb start ∧ ¬ op.Removes i id) ∨
        (op = .addListener i cb ∧
          ((runOps fromStr vars ops).1.step fromStr op).2 = [.returned i id] ∧
          ((runOps fromStr vars ops).1.var i).m_val = start) := by
  constructor
  · rintro ⟨before, after, heq, hid, hstart, hafter⟩
    rcases List.eq_nil_or_concat after with rfl | ⟨after, op', rfl⟩
    · -- the registration is the last call
      obtain ⟨rfl, hop⟩ := List.append_inj' heq rfl
      obtain rfl := List.head_eq_of_cons_eq hop
      exact Or.inr ⟨rfl, hid, hstart⟩
    · rw [List.concat_eq_append, ← List.cons_append, ← List.append_assoc] at heq
      obtain ⟨hops, hop⟩ := List.append_inj' heq rfl
      obtain rfl := List.head_eq_of_cons_eq hop
      rw [List.concat_eq_append] at hafter
      refine Or.inl ⟨⟨before, after, hops, hid, hstart, fun o ho => ?_⟩, ?_⟩
      · exact hafter o (List.mem_append_left _ ho)
      · exact hafter op (List.mem_append_right _ (List.mem_singleton.2 rfl))
  · rintro (⟨⟨before, after, rfl, hid, hstart, hafter⟩, hop⟩ | ⟨rfl, hid, hstart⟩)
    · refine ⟨before, after ++ [op], by simp, hid, hstart, fun o ho => ?_⟩
      rcases List.mem_append.1 ho with ho | ho
      · exact hafter o ho
      · rwa [List.mem_singleton.1 ho]
    · exact ⟨ops, [], rfl, hid, hstart, by simp⟩

/-- A call that adds no listener only takes some out. -/
theorem registered_concat_of_not_add {vars : ι → ConfigVar T} {ops : List (Op ι T)} {op : Op ι T}
    (hadd : op.isAdd = false) (i : ι) (id : ℕ) (cb : Listener T) (start : T) :
    Registered fromStr vars (ops ++ [op]) i id cb start ↔
      Registered fromStr vars ops i id cb start ∧ ¬ op.Removes i id := by
  rw [registered_concat]
  refine or_iff_left ?_
  rintro ⟨rfl, -⟩
  exact absurd hadd (by simp [Op.isAdd])

/-- A registration adds one listener and takes none out. -/
theorem registered_concat_add {vars : ι → ConfigVar T} {ops : List (Op ι T)} {i : ι}
    {ocb : Listener T} {n : ℕ}
    (hret : ((runOps fromStr vars ops).1.step fromStr (.addListener i ocb)).2 = [.returned i n])
    (j : ι) (id : ℕ) (cb : Listener T) (start : T) :
    Registered fromStr vars (ops ++ [.addListener i ocb]) j id cb start ↔
      Registered fromStr vars ops j id cb start ∨
        (j = i ∧ (id, cb) = (n, ocb) ∧ ((runOps fromStr vars ops).1.var i).m_val = start) := by
  rw [registered_concat, hret]
  refine or_congr (and_iff_left (fun hrem => hrem)) ?_
  constructor
  · rintro ⟨hop, hid, hstart⟩
    obtain ⟨rfl, rfl⟩ : i = j ∧ ocb = cb := by simpa using hop
    obtain rfl : n = id := by simpa using hid
    exact ⟨rfl, rfl, hstart⟩
  · rintro ⟨rfl, hpair, hstart⟩
    obtain ⟨rfl, rfl⟩ : id = n ∧ cb = ocb := by simpa using hpair
    exact ⟨rfl, rfl, hstart⟩

/-! ## The invariant of a run -/

/-- The calls `ops` have given out the ids 1, 2, …, one for each registration; the listeners held
are those registered, and each has been told every change since. -/
structure InStep (vars : ι → ConfigVar T) (ops : List (Op ι T)) : Prop where
  counter : (runOps fromStr vars ops).1.s_fun_id = ops.countP Op.isAdd
  ids : idsOf (runOps fromStr vars ops).2 = List.range' 1 (ops.countP Op.isAdd)
  bound : ∀ i, ∀ e ∈ ((runOps fromStr vars ops).1.var i).m_cbs, e.1 ≤ ops.countP Op.isAdd
  quiet : ∀ i, ∀ e ∈ ((runOps fromStr vars ops).1.var i).m_cbs, e.2.Quiet
  unused : ∀ i id, ops.countP Op.isAdd < id → changesOf i id (runOps fromStr vars ops).2 = []
  registered : ∀ i id cb, (id, cb) ∈ ((runOps fromStr vars ops).1.var i).m_cbs ↔
    ∃ start, Registered fromStr vars ops i id cb start
  chain : ∀ i id cb start, Registered fromStr vars ops i id cb start →
    Chain start (changesOf i id (runOps fromStr vars ops).2)
        ((runOps fromStr vars ops).1.var i).m_val ∧
      ∀ c ∈ changesOf i id (runOps fromStr vars ops).2, c.1 ≠ c.2

section
variable {fromStr} {vars : ι → ConfigVar T} {ops : List (Op ι T)}

theorem InStep.nil (hfresh : ∀ i, (vars i).m_cbs = ∅) : InStep fromStr vars [] := by
  have hnone : ∀ i, ∀ e ∈ (vars i).m_cbs, False := by
    intro i e he
    rw [hfresh i] at he
    exact KeyedSet.notMem_empty e he
  have hnot : ∀ i id cb start, ¬ Registered fromStr vars [] i id cb start := by
    rintro i id cb start ⟨before, after, heq, -⟩
    exact absurd heq.symm (by simp)
  refine ⟨rfl, rfl, fun i e he => (hnone i e he).elim, fun i e he => (hnone i e he).elim,
    fun _ _ _ => rfl, fun i id cb => ?_, fun i id cb start h => (hnot i id cb start h).elim⟩
  refine iff_of_false (hnone i (id, cb)) ?_
  rintro ⟨start, h⟩
  exact hnot i id cb start h

/-- A call that shows nothing and changes no value, but may take out listeners. -/
theorem InStep.silent (h : InStep fromStr vars ops) {op : Op ι T} (s' : Vars ι T)
    (hadd : op.isAdd = false) (hstep : (runOps fromStr vars ops).1.step fromStr op = (s', []))
    (hid : s'.s_fun_id = (runOps fromStr vars ops).1.s_fun_id)
    (hval : ∀ j, (s'.var j).m_val = ((runOps fromStr vars ops).1.var j).m_val)
    (hcbs : ∀ j e, e ∈ (s'.var j).m_cbs ↔
      e ∈ ((runOps fromStr vars ops).1.var j).m_cbs ∧ ¬ op.Removes j e.1) :
    InStep fromStr vars (ops ++ [op]) := by
  have hcount : (ops ++ [op]).countP Op.isAdd = ops.countP Op.isAdd := by simp [hadd]
  have hrun : runOps fromStr vars (ops ++ [op]) = (s', (runOps fromStr vars ops).2) := by
    rw [runOps_concat, hstep, List.append_nil]
  have hreg : ∀ i id cb start, Registered fromStr vars (ops ++ [op]) i id cb start ↔
      Registered fromStr vars ops i id cb start ∧ ¬ op.Removes i id :=
    registered_concat_of_not_add fromStr hadd
  constructor
  · rw [hrun, hcount, hid, h.counter]
  · rw [hrun, hcount, h.ids]
  · intro i e he
    rw [hrun] at he
    rw [hcount]
    exact h.bound i e ((hcbs i e).1 he).1
  · intro i e he
    rw [hrun] at he
    exact h.quiet i e ((hcbs i e).1 he).1
  · rw [hrun, hcount]
    exact h.unused
  · intro i id cb
    rw [hrun, hcbs, h.registered]
    simp only [hreg, exists_and_right]
  · intro i id cb start hr
    rw [hrun, hval]
    exact h.chain i id cb start ((hreg i id cb start).1 hr).1

/-- A call that takes listeners out of one variable. -/
theorem InStep.takeOut (h : InStep fromStr vars ops) {op : Op ι T} {i : ι} {x : ConfigVar T}
    (hadd : op.isAdd = false)
    (hstep : (runOps fromStr vars ops).1.step fromStr op =
      ({ (runOps fromStr vars ops).1 with
          var := Function.update (runOps fromStr vars ops).1.var i x }, []))
    (hval : x.m_val = ((runOps fromStr vars ops).1.var i).m_val)
    (hcbs : ∀ e, e ∈ x.m_cbs ↔
      e ∈ ((runOps fromStr vars ops).1.var i).m_cbs ∧ ¬ op.Removes i e.1)
    (hother : ∀ j, j ≠ i → ∀ id, ¬ op.Removes j id) : InStep fromStr vars (ops ++ [op]) := by
  refine h.silent _ hadd hstep rfl (update_keeps ConfigVar.m_val hval) fun j e => ?_
  · show e ∈ (Function.update (runOps fromStr vars ops).1.var i x j).m_cbs ↔ _
    by_cases hj : j = i
    · rw [hj, Function.update_self, hcbs]
    · rw [Function.update_of_ne hj]
      exact (and_iff_left (hother j hj e.1)).symm

/-- A registration after `n` others: the next id is returned, and the listener goes into its
variable. -/
theorem InStep.step_addListener (h : InStep fromStr vars ops) {n : ℕ}
    (hn : n = ops.countP Op.isAdd) (hlt : n + 1 < 2 ^ 64) (i : ι) (ocb : Listener T) :
    ∃ s', (runOps fromStr vars ops).1.step fromStr (.addListener i ocb) =
        (s', [.returned i (n + 1)]) ∧
      s'.s_fun_id = n + 1 ∧ (∀ j, (s'.var j).m_val = ((runOps fromStr vars ops).1.var j).m_val) ∧
      ∀ j e, e ∈ (s'.var j).m_cbs ↔
        e ∈ ((runOps fromStr vars ops).1.var j).m_cbs ∨ (j = i ∧ e = (n + 1, ocb)) := by
  have hid : ((runOps fromStr vars ops).1.s_fun_id + 1) % 2 ^ 64 = n + 1 := by
    rw [h.counter, ← hn]
    exact Nat.mod_eq_of_lt hlt
  obtain ⟨s, hs⟩ : ∃ s, s = (runOps fromStr vars ops).1 := ⟨_, rfl⟩
  have hbound : ∀ j, ∀ e ∈ (s.var j).m_cbs, e.1 ≤ n := by
    rw [hs, hn]
    exact h.bound
  rw [← hs] at hid ⊢
  refine ⟨{
      var := Function.update s.var i { s.var i with m_cbs := (s.var i).m_cbs.assign (n + 1, ocb) }
      s_fun_id := n + 1 }, ?_, rfl, update_keeps ConfigVar.m_val rfl, fun j e => ?_⟩
  · simp only [Vars.step, ConfigVar.addListener, hid]
  · show e ∈ (Function.update s.var i _ j).m_cbs ↔ _
    by_cases hj : j = i
    · subst hj
      -- no listener of the variable has the new id yet
      have hne : e ∈ (s.var j).m_cbs → e.1 ≠ n + 1 := by
        intro he
        have := hbound j e he
        omega
      rw [Function.update_self, KeyedSet.mem_assign, or_comm]
      simp only [true_and]
      exact or_congr_left (and_iff_left_of_imp hne)
    · rw [Function.update_of_ne hj]
      simp [hj]

/-- A registration takes the next id, and its listener starts at the current value. -/
theorem InStep.add (h : InStep fromStr vars ops) {i : ι} {ocb : Listener T} (hquiet : ocb.Quiet)
    (hlt : ops.countP Op.isAdd + 1 < 2 ^ 64) :
    InStep fromStr vars (ops ++ [.addListener i ocb]) := by
  obtain ⟨n, hn⟩ : ∃ n, n = ops.countP Op.isAdd := ⟨_, rfl⟩
  have hcount : (ops ++ [Op.addListener i ocb]).countP Op.isAdd = n + 1 := by
    simp [Op.isAdd, hn]
  obtain ⟨s', hstep, hid, hval, hcbs⟩ := h.step_addListener hn (hn ▸ hlt) i ocb
  have hrun : runOps fromStr vars (ops ++ [.addListener i ocb]) =
      (s', (runOps fromStr vars ops).2 ++ [.returned i (n + 1)]) := by
    rw [runOps_concat, hstep]
  have hchanges : ∀ j id, changesOf j id ((runOps fromStr vars ops).2 ++ [.returned i (n + 1)]) =
      changesOf j id (runOps fromStr vars ops).2 := by
    intro j id
    rw [changesOf_append]
    exact List.append_nil _
  have hreg := registered_concat_add fromStr (congrArg Prod.snd hstep)
  constructor
  · rw [hrun, hcount, hid]
  · -- the id returned is the next one
    rw [hrun, hcount, idsOf_append, h.ids, ← hn, List.range'_concat, Nat.one_mul, Nat.add_comm 1 n]
    rfl
  · intro j e he
    rw [hrun] at he
    rw [hcount]
    rcases (hcbs j e).1 he with he | ⟨-, rfl⟩
    · exact Nat.le_succ_of_le (hn ▸ h.bound j e he)
    · exact Nat.le_refl _
  · intro j e he
    rw [hrun] at he
    rcases (hcbs j e).1 he with he | ⟨-, rfl⟩
    · exact h.quiet j e he
    · exact hquiet
  · intro j id hlt'
    rw [hrun, hchanges]
    rw [hcount] at hlt'
    exact h.unused j id (by omega)
  · intro j id cb
    rw [hrun, hcbs]
    simp only [hreg, exists_or]
    exact or_congr (h.registered j id cb) (by simp)
  · intro j id cb start hr
    rw [hrun, hchanges, hval]
    rcases (hreg j id cb start).1 hr with hr | ⟨rfl, hpair, hstart⟩
    · exact h.chain j id cb start hr
    · -- the new listener has been told nothing, under an id nobody had
      obtain ⟨rfl, rfl⟩ : id = n + 1 ∧ cb = ocb := by simpa using hpair
      rw [h.unused j (n + 1) (by omega)]
      exact ⟨hstart.symm, by simp⟩

/-- The changes a listener is told of when the value of variable `i` changes to `v`. -/
theorem InStep.chain_changed (h : InStep fromStr vars ops) {i : ι} {v : T}
    (hv : v ≠ ((runOps fromStr vars ops).1.var i).m_val) {j : ι} {id : ℕ} {cb : Listener T} {start : T}
    (hr : Registered fromStr vars ops j id cb start) :
    Chain start (changesOf j id (runOps fromStr vars ops).2 ++
          if i = j then (((runOps fromStr vars ops).1.var i).m_cbs.find? id).toList.map
            fun _ => (((runOps fromStr vars ops).1.var i).m_val, v) else [])
        (if i = j then v else ((runOps fromStr vars ops).1.var j).m_val) ∧
      ∀ c ∈ changesOf j id (runOps fromStr vars ops).2 ++
          (if i = j then (((runOps fromStr vars ops).1.var i).m_cbs.find? id).toList.map
            fun _ => (((runOps fromStr vars ops).1.var i).m_val, v) else []), c.1 ≠ c.2 := by
  obtain ⟨hchain, hne⟩ := h.chain j id cb start hr
  by_cases hj : i = j
  · subst hj
    have hmem : (id, cb) ∈ ((runOps fromStr vars ops).1.var i).m_cbs :=
      (h.registered i id cb).2 ⟨start, hr⟩
    have hfind : ((runOps fromStr vars ops).1.var i).m_cbs.find? id = some (id, cb) :=
      KeyedSet.find?_of_mem hmem
    simp only [if_pos, hfind, Option.toList_some, List.map_cons, List.map_nil]
    refine ⟨chain_concat.2 ⟨hchain, rfl⟩, fun c hc => ?_⟩
    rcases List.mem_append.1 hc with hc | hc
    · exact hne c hc
    · obtain rfl := List.mem_singleton.1 hc
      exact Ne.symm hv
  · simp only [if_neg hj, List.append_nil]
    exact ⟨hchain, hne⟩

/-- A call that changes variable `i` to `v` stores the value and tells its listeners. -/
theorem InStep.run_changed [LawfulBEq T] (h : InStep fromStr vars ops) {op : Op ι T} {i : ι} {v : T}
    {s : Vars ι T} (hs : s = (runOps fromStr vars ops).1)
    (hop : (runOps fromStr vars ops).1.step fromStr op =
      (runOps fromStr vars ops).1.step fromStr (.setValue i v))
    (hv : v ≠ (s.var i).m_val) :
    runOps fromStr vars (ops ++ [op]) =
      ({ s with var := Function.update s.var i ((s.var i).store v) },
        (runOps fromStr vars ops).2 ++
          (((s.var i).m_cbs.elems.map fun e => (⟨e.1, (s.var i).m_val, v⟩ : Call T)).map
            (Event.called i))) := by
  have hquiet : ∀ e ∈ (s.var i).m_cbs, e.2.Quiet := by
    rw [hs]
    exact h.quiet i
  have hset := ConfigVar.setValue_changed (x := s.var i) (v := v) (by simpa using hv) hquiet
  rw [runOps_concat, hop, ← hs]
  simp only [Vars.step, hset]

omit [BEq T] in
theorem update_store_m_val (var : ι → ConfigVar T) (i : ι) (v : T) (j : ι) :
    (Function.update var i ((var i).store v) j).m_val = if i = j then v else (var j).m_val := by
  split_ifs with hj
  · rw [← hj, Function.update_self]
    rfl
  · rw [Function.update_of_ne (Ne.symm hj)]

/-- An id that was never given out belongs to no listener. -/
theorem InStep.find?_unused (h : InStep fromStr vars ops) (i : ι) {id : ℕ}
    (hlt : ops.countP Op.isAdd < id) : ((runOps fromStr vars ops).1.var i).m_cbs.find? id = none := by
  apply KeyedSet.find?_eq_none.2
  intro e he
  have := h.bound i e he
  show e.1 ≠ id
  omega

/-- A new value is told to every listener of its variable. -/
theorem InStep.changed [LawfulBEq T] (h : InStep fromStr vars ops) {op : Op ι T}
    (hadd : op.isAdd = false) (hremoves : ∀ j id, ¬ op.Removes j id) {i : ι} {v : T}
    (hop : (runOps fromStr vars ops).1.step fromStr op =
      (runOps fromStr vars ops).1.step fromStr (.setValue i v))
    (hv : v ≠ ((runOps fromStr vars ops).1.var i).m_val) :
    InStep fromStr vars (ops ++ [op]) := by
  obtain ⟨s, hs⟩ : ∃ s, s = (runOps fromStr vars ops).1 := ⟨_, rfl⟩
  have hcount : (ops ++ [op]).countP Op.isAdd = ops.countP Op.isAdd := by simp [hadd]
  have hrun := h.run_changed hs hop (hs ▸ hv)
  have hcbs : ∀ j, (Function.update s.var i ((s.var i).store v) j).m_cbs = (s.var j).m_cbs :=
    update_keeps ConfigVar.m_cbs rfl
  have hreg : ∀ i id cb start, Registered fromStr vars (ops ++ [op]) i id cb start ↔
      Registered fromStr vars ops i id cb start := fun j id cb start =>
    (registered_concat_of_not_add fromStr hadd j id cb start).trans (and_iff_left (hremoves j id))
  constructor
  · rw [hrun, hcount, hs]
    exact h.counter
  · rw [hrun, hcount, ← h.ids, idsOf_append, idsOf_called, List.append_nil]
  · intro j e he
    rw [hrun] at he
    rw [hcount]
    exact h.bound j e (hs ▸ hcbs j ▸ he)
  · intro j e he
    rw [hrun] at he
    exact h.quiet j e (hs ▸ hcbs j ▸ he)
  · intro j id hlt
    rw [hcount] at hlt
    have hnone : (s.var i).m_cbs.find? id = none := hs ▸ h.find?_unused i hlt
    rw [hrun, changesOf_append, h.unused j id hlt, changesOf_called, hnone, List.nil_append]
    exact ite_self []
  · intro j id cb
    rw [hrun]
    show (id, cb) ∈ (Function.update s.var i ((s.var i).store v) j).m_cbs ↔ _
    simp only [hcbs, hreg]
    rw [hs]
    exact h.registered j id cb
  · intro j id cb start hr
    rw [hrun, changesOf_append, changesOf_called]
    show Chain start _ (Function.update s.var i ((s.var i).store v) j).m_val ∧ _
    rw [update_store_m_val, hs]
    exact h.chain_changed hv ((hreg j id cb start).1 hr)

/-- A call that sets a value, directly or from a text. -/
theorem InStep.value [LawfulBEq T] (h : InStep fromStr vars ops) {op : Op ι T}
    (hadd : op.isAdd = false) (hremoves : ∀ j id, ¬ op.Removes j id) {i : ι} {v : T}
    (hop : (runOps fromStr vars ops).1.step fromStr op =
      (runOps fromStr vars ops).1.step fromStr (.setValue i v)) :
    InStep fromStr vars (ops ++ [op]) := by
  by_cases hv : v = ((runOps fromStr vars ops).1.var i).m_val
  · refine h.silent (runOps fromStr vars ops).1 hadd ?_ rfl (fun _ => rfl) fun j e => ?_
    · rw [hop, Vars.step, ConfigVar.setValue_same (by simpa using hv)]
      simp only [Function.update_eq_self, List.map_nil]
    · exact (and_iff_left (hremoves j e.1)).symm
  · exact h.changed hadd hremoves hop hv

/-- Every call keeps the listeners in step. -/
theorem InStep.step [LawfulBEq T] (h : InStep fromStr vars ops) {op : Op ι T} (hquiet : op.Quiet)
    (hlt : (ops ++ [op]).countP Op.isAdd < 2 ^ 64) : InStep fromStr vars (ops ++ [op]) := by
  cases op with
  | addListener i ocb =>
      refine h.add hquiet ?_
      simpa [Op.isAdd] using hlt
  | delListener i key =>
      refine h.takeOut (i := i) (x := _) rfl rfl rfl (fun e => ?_) fun j hj id hrem => hj hrem.1.symm
      simp [ConfigVar.delListener, KeyedSet.mem_erase, Op.Removes, eq_comm]
  | clearListener i =>
      refine h.takeOut (i := i) (x := _) rfl rfl rfl (fun e => ?_) fun j hj id hrem => hj hrem.symm
      simp [ConfigVar.clearListener, Op.Removes]
  | setValue i v => exact h.value rfl (fun _ _ hrem => hrem) rfl
  | fromString i val =>
      cases hconv : fromStr val with
      | error e =>
          -- the conversion throws, and `fromString` catches the exception
          refine h.silent (runOps fromStr vars ops).1 rfl ?_ rfl (fun _ => rfl)
            fun j e => (and_iff_left fun hrem => hrem).symm
          simp only [Vars.step, ConfigVar.fromString, hconv, Function.update_eq_self, List.map_nil]
      | ok v =>
          refine h.value (i := i) (v := v) rfl (fun _ _ hrem => hrem) ?_
          simp only [Vars.step, ConfigVar.fromString, hconv]

theorem runOps_inStep [LawfulBEq T] (hfresh : ∀ i, (vars i).m_cbs = ∅)
    (hquiet : ∀ op ∈ ops, op.Quiet) (hlt : ops.countP Op.isAdd < 2 ^ 64) :
    InStep fromStr vars ops := by
  induction ops using List.reverseRecOn with
  | nil => exact .nil hfresh
  | append_singleton ops op ih =>
      have hle : ops.countP Op.isAdd ≤ (ops ++ [op]).countP Op.isAdd := by
        rw [List.countP_append]
        omega
      refine (ih (fun o ho => hquiet o (List.mem_append_left _ ho)) (by omega)).step ?_ hlt
      exact hquiet op (List.mem_append_right _ (List.mem_singleton.2 rfl))

end

/-- Removing an id takes one listener out of one variable. -/
theorem Vars.step_delListener (s : Vars ι T) (i : ι) (key : ℕ) :
    ∃ s', s.step fromStr (.delListener i key) = (s', []) ∧ s'.s_fun_id = s.s_fun_id ∧
      ∀ j, (s'.var j).m_name = (s.var j).m_name ∧ (s'.var j).m_val = (s.var j).m_val ∧
        ∀ id cb, (id, cb) ∈ (s'.var j).m_cbs ↔
          (id, cb) ∈ (s.var j).m_cbs ∧ ¬ (j = i ∧ id = key) := by
  refine ⟨_, rfl, rfl, fun j => ?_⟩
  by_cases hj : j = i
  · subst hj
    simp [ConfigVar.delListener, KeyedSet.mem_erase]
  · simp [hj]

/-- **Listeners keep in step.** Over every sequence of calls on variables of one type, with
listeners that do not throw and fewer than 2^64 registrations: the ids returned are distinct;
removing an id takes out the listener registered under it on that variable and nothing else; the
listeners held are those that were registered and not taken out since; and the changes each of them
was told of lead without a gap from the value at its registration to the current value. -/
theorem listeners_in_step [LawfulBEq T] (vars : ι → ConfigVar T)
    (hfresh : ∀ i, (vars i).m_cbs = ∅) (ops : List (Op ι T)) (hquiet : ∀ op ∈ ops, op.Quiet)
    (hlt : ops.countP Op.isAdd < 2 ^ 64) :
    (idsOf (runOps fromStr vars ops).2).Nodup ∧
    (∀ i key, ∃ s', (runOps fromStr vars ops).1.step fromStr (.delListener i key) = (s', []) ∧
      s'.s_fun_id = (runOps fromStr vars ops).1.s_fun_id ∧
      ∀ j, (s'.var j).m_name = ((runOps fromStr vars ops).1.var j).m_name ∧
        (s'.var j).m_val = ((runOps fromStr vars ops).1.var j).m_val ∧
        ∀ id cb, (id, cb) ∈ (s'.var j).m_cbs ↔
          (id, cb) ∈ ((runOps fromStr vars ops).1.var j).m_cbs ∧ ¬ (j = i ∧ id = key)) ∧
    (∀ i id cb, (id, cb) ∈ ((runOps fromStr vars ops).1.var i).m_cbs ↔
      ∃ start, Registered fromStr vars ops i id cb start) ∧
    ∀ i id cb start, Registered fromStr vars ops i id cb start →
      Chain start (changesOf i id (runOps fromStr vars ops).2)
          ((runOps fromStr vars ops).1.var i).m_val ∧
        ∀ c ∈ changesOf i id (runOps fromStr vars ops).2, c.1 ≠ c.2 := by
  have h : InStep fromStr vars ops := runOps_inStep hfresh hquiet hlt
  refine ⟨?_, Vars.step_delListener fromStr _, h.registered, h.chain⟩
  rw [h.ids]
  exact List.nodup_range'

/-- Two variables; the listener of the first is told of the change from 0 to 5. -/
theorem listeners_in_step_sample :
    let ops : List (Op Bool ℤ) :=
      [.addListener false fun _ _ => .ok (), .addListener true fun _ _ => .ok (),
        .setValue false 5, .fromString false "five"]
    let run := runOps (fun _ => .error .badLexicalCast)
      (fun i : Bool => ConfigVar.new (if i then "b" else "a") 0) ops
    Chain 0 (changesOf false 1 run.2) (run.1.var false).m_val := by
  intro ops run
  have hquiet : ∀ op ∈ ops, op.Quiet := by
    intro op hop
    simp only [ops, List.mem_cons, List.not_mem_nil, or_false] at hop
    rcases hop with rfl | rfl | rfl | rfl <;> simp [Op.Quiet, Listener.Quiet]
  have h := listeners_in_step (fun _ => .error .badLexicalCast)
    (fun i : Bool => ConfigVar.new (if i then "b" else "a") (0 : ℤ)) (fun _ => rfl) ops hquiet
    (Nat.lt_of_le_of_lt List.countP_le_length (by decide))
  exact (h.2.2.2 false 1 (fun _ _ => .ok ()) 0
    ⟨[], ops.tail, rfl, rfl, rfl, by simp [ops, Op.Removes]⟩).1

end Ipmsg
