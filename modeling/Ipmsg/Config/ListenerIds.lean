import Ipmsg.Config.Var
import Ipmsg.Lib.Rely
import Ipmsg.Lib.Schedule
import Mathlib.Data.List.TFAE
import Mathlib.Tactic.TFAE

set_option autoImplicit false

/-! # Ids of listeners under threads

`addListener` takes its ids from a counter that all `ConfigVar<T>` objects of a type share, but what
it locks is the mutex of its own object. Here its four uses of the counter are accesses of their
own, so another thread can come in between if it registers on another object. -/

namespace Ipmsg

/-- The `ConfigVar<T>` objects `ι` of one type, as far as their listeners go, with the counter of
    `addListener`. The other fields are not in the code and record what has been done. -/
structure Registrations (ι F : Type) where
  s_fun_id : ℕ
  m_cbs : ι → OrdMap ℕ F
  /-- How often the counter has been increased. -/
  counted : ℕ
  /-- Each listener with the object and the id it was stored under. -/
  stored : List (ι × ℕ × F)
  /-- Each listener with the id that `addListener` returned. -/
  returned : List (ι × ℕ × F)
  /-- The listeners stored and not taken out since. -/
  live : ι → List (ℕ × F)

namespace Registrations

variable {ι F : Type}

def new : Registrations ι F where
  s_fun_id := 0
  m_cbs _ := ∅
  counted := 0
  stored := []
  returned := []
  live _ := []

/-! ## Accesses -/

section
variable [DecidableEq ι]

/-- The end of `++s_fun_id`. -/
def increase (count : ℕ) (s : Registrations ι F) : Registrations ι F :=
  { s with s_fun_id := (count + 1) % 2 ^ 64, counted := s.counted + 1 }

/-- `m_cbs[key] = ocb`. -/
def assign (n : ι) (key : ℕ) (ocb : F) (s : Registrations ι F) : Registrations ι F :=
  { s with
    m_cbs := Function.update s.m_cbs n ((s.m_cbs n).assign (key, ocb))
    stored := s.stored ++ [(n, key, ocb)]
    live := Function.update s.live n (s.live n ++ [(key, ocb)]) }

/-- `return s_fun_id`. -/
def ret (n : ι) (ocb : F) (s : Registrations ι F) : Registrations ι F :=
  { s with returned := s.returned ++ [(n, s.s_fun_id, ocb)] }

/-- `m_cbs.erase(key)`. -/
def erase (n : ι) (key : ℕ) (s : Registrations ι F) : Registrations ι F :=
  { s with
    m_cbs := Function.update s.m_cbs n ((s.m_cbs n).erase key)
    live := Function.update s.live n ((s.live n).filter fun e => e.1 ≠ key) }

/-- `m_cbs.clear()`. -/
def clear (n : ι) (s : Registrations ι F) : Registrations ι F :=
  { s with m_cbs := Function.update s.m_cbs n ∅, live := Function.update s.live n [] }

end

/-! ## Methods -/

/-- The value of the counter. -/
def load : Prog ι (Registrations ι F) ℕ := do return (← Prog.get).s_fun_id

section
variable [DecidableEq ι]

/-- What `ConfigVar::addListener` does under its lock. -/
def register (n : ι) (ocb : F) : Prog ι (Registrations ι F) ℕ := do
  let count ← load
  Prog.modify (increase count)
  let key ← load
  Prog.modify (assign n key ocb)
  .access (ret n ocb) fun s => return s.s_fun_id

/-- `ConfigVar::addListener`. -/
def addListener (n : ι) (ocb : F) : Prog ι (Registrations ι F) ℕ :=
  Prog.locked n .exclusive (register n ocb)

/-- `ConfigVar::delListener`. -/
def delListener (n : ι) (key : ℕ) : Prog ι (Registrations ι F) Unit :=
  Prog.locked n .exclusive (Prog.modify (erase n key))

/-- `ConfigVar::clearListener`. -/
def clearListener (n : ι) : Prog ι (Registrations ι F) Unit :=
  Prog.locked n .exclusive (Prog.modify (clear n))

/-- `ConfigVar::getListener`. -/
def getListener (n : ι) (key : ℕ) : Prog ι (Registrations ι F) (Option F) :=
  Prog.locked n .shared do return (((← Prog.get).m_cbs n).find? key).map Prod.snd

end

/-- What a thread calls. Listeners are added to the objects in `V` only. -/
inductive Op (F : Type) (V : Set ι)
  | addListener (n : ι) (hn : n ∈ V) (ocb : F)
  | delListener (n : ι) (key : ℕ)
  | clearListener (n : ι)
  | getListener (n : ι) (key : ℕ)

def Op.prog [DecidableEq ι] {V : Set ι} : Op F V → Prog ι (Registrations ι F) Unit
  | .addListener n _ ocb => (Registrations.addListener n ocb).dropped
  | .delListener n key => Registrations.delListener n key
  | .clearListener n => Registrations.clearListener n
  | .getListener n key => (Registrations.getListener n key).dropped

/-- With no other thread in between, the object and the id are those of `ConfigVar.addListener`. -/
theorem addListener_alone [DecidableEq ι] {T : Type} {s : Registrations ι (Listener T)} {n : ι}
    {x : ConfigVar T} (hx : x.m_cbs = s.m_cbs n) (ocb : Listener T) :
    x.addListener s.s_fun_id ocb =
        ({ x with m_cbs := ((addListener n ocb).run s).2.m_cbs n }, ((addListener n ocb).run s).1) ∧
      ((addListener n ocb).run s).2.s_fun_id = ((addListener n ocb).run s).1 ∧
      ∀ m ≠ n, ((addListener n ocb).run s).2.m_cbs m = s.m_cbs m := by
  have hrun : (addListener n ocb).run s =
      ((s.s_fun_id + 1) % 2 ^ 64, ret n ocb (assign n ((s.s_fun_id + 1) % 2 ^ 64) ocb
        (increase s.s_fun_id s))) := Prog.run_locked n .exclusive (register n ocb) s
  rw [hrun]
  refine ⟨?_, rfl, fun m hm => Function.update_of_ne hm _ _⟩
  simp only [ConfigVar.addListener, ret, assign, increase, Function.update_self, hx]

/-! ## What listeners rely on -/

/-- No two listeners were stored under the same id. -/
def Distinct (s : Registrations ι F) : Prop := (s.stored.map fun e => e.2.1).Nodup

/-- `addListener` returned the id it had stored the listener under. -/
def Returned (s : Registrations ι F) : Prop := ∀ e ∈ s.returned, e ∈ s.stored

/-- Each object has the listeners stored in it and not taken out since, none replaced by another. -/
def Kept (s : Registrations ι F) : Prop := ∀ n, (s.m_cbs n).elems.Perm (s.live n)

/-- All three, and what is in an object was stored there. -/
structure Sound (s : Registrations ι F) : Prop where
  distinct : s.Distinct
  returned : s.Returned
  kept : s.Kept
  live : ∀ n, ∀ e ∈ s.live n, (n, e) ∈ s.stored

namespace Sound

variable {s : Registrations ι F}

theorem new : (new : Registrations ι F).Sound where
  distinct := List.nodup_nil
  returned _ he := absurd he List.not_mem_nil
  kept _ := .refl []
  live _ _ he := absurd he List.not_mem_nil

/-- What the accesses do to the counter is no part of it. -/
theorem increase (h : s.Sound) (count : ℕ) : (s.increase count).Sound :=
  ⟨h.distinct, h.returned, h.kept, h.live⟩

variable [DecidableEq ι]

/-- A listener is stored under a new id. -/
theorem assign (h : s.Sound) {n : ι} {key : ℕ} (hkey : ∀ e ∈ s.stored, e.2.1 ≠ key) (ocb : F) :
    (s.assign n key ocb).Sound where
  distinct := by
    show ((s.stored ++ [(n, key, ocb)]).map fun e => e.2.1).Nodup
    rw [List.map_append]
    refine h.distinct.append (List.nodup_singleton key) fun k hk hk' => ?_
    obtain ⟨e, he, rfl⟩ := List.mem_map.1 hk
    exact hkey e he (List.mem_singleton.1 hk')
  returned e he := List.mem_append_left _ (h.returned e he)
  kept m := by
    by_cases hm : m = n
    · subst hm
      have hnew : ∀ e ∈ (s.m_cbs m).elems, e.1 ≠ key :=
        fun e he => hkey (m, e) (h.live m e ((h.kept m).mem_iff.1 he))
      show (Function.update s.m_cbs m _ m).elems.Perm (Function.update s.live m _ m)
      rw [Function.update_self, Function.update_self]
      exact (KeyedSet.assign_perm hnew).trans
        (((h.kept m).cons _).trans (List.perm_append_singleton _ _).symm)
    · show (Function.update s.m_cbs n _ m).elems.Perm (Function.update s.live n _ m)
      rw [Function.update_of_ne hm, Function.update_of_ne hm]
      exact h.kept m
  live m e he := by
    replace he : e ∈ Function.update s.live n (s.live n ++ [(key, ocb)]) m := he
    by_cases hm : m = n
    · subst hm
      rw [Function.update_self] at he
      rcases List.mem_append.1 he with he | he
      · exact List.mem_append_left _ (h.live m e he)
      · exact List.mem_append_right _ (List.mem_singleton.1 he ▸ List.mem_singleton_self _)
    · rw [Function.update_of_ne hm] at he
      exact List.mem_append_left _ (h.live m e he)

omit [DecidableEq ι] in
theorem ret (h : s.Sound) {n : ι} {ocb : F} (hmem : (n, s.s_fun_id, ocb) ∈ s.stored) :
    (s.ret n ocb).Sound where
  distinct := h.distinct
  returned e he := by
    rcases List.mem_append.1 he with he | he
    · exact h.returned e he
    · exact List.mem_singleton.1 he ▸ hmem
  kept := h.kept
  live := h.live

/-- Listeners are taken out of one object. -/
theorem filter (h : s.Sound) (n : ι) (p : ℕ × F → Bool) {x : OrdMap ℕ F}
    (hx : x.elems = (s.m_cbs n).elems.filter p) :
    Sound { s with
      m_cbs := Function.update s.m_cbs n x
      live := Function.update s.live n ((s.live n).filter p) } where
  distinct := h.distinct
  returned := h.returned
  kept m := by
    show (Function.update s.m_cbs n _ m).elems.Perm (Function.update s.live n _ m)
    by_cases hm : m = n
    · subst hm
      rw [Function.update_self, Function.update_self, hx]
      exact (h.kept m).filter p
    · rw [Function.update_of_ne hm, Function.update_of_ne hm]
      exact h.kept m
  live m e he := by
    replace he : e ∈ Function.update s.live n ((s.live n).filter p) m := he
    by_cases hm : m = n
    · subst hm
      rw [Function.update_self] at he
      exact h.live m e (List.mem_of_mem_filter he)
    · rw [Function.update_of_ne hm] at he
      exact h.live m e he

theorem erase (h : s.Sound) (n : ι) (key : ℕ) : (s.erase n key).Sound :=
  h.filter n (fun e => e.1 ≠ key) rfl

theorem clear (h : s.Sound) (n : ι) : (s.clear n).Sound := by
  have hnone := h.filter n (fun _ => false) (x := ∅) (by simp)
  rwa [List.filter_false] at hnone

end Sound

/-! ## One object

If listeners are added to one object only, its lock protects the counter. -/

/-- What `addListener` relies on. -/
def counter (s : Registrations ι F) : ℕ × ℕ × List (ι × ℕ × F) :=
  (s.s_fun_id, s.counted, s.stored)

/-- The counter is what has been counted, and the ids stored are below `bound` of it. -/
def Counts (bound : ℕ → ℕ) (s : Registrations ι F) : Prop :=
  s.counted < 2 ^ 64 → s.s_fun_id = s.counted ∧ ∀ e ∈ s.stored, e.2.1 < bound s.s_fun_id

/-- An assertion about the counter. -/
def Rests (P : Registrations ι F → Prop) : Prop := ∀ s s', s'.counter = s.counter → P s → P s'

theorem counter_eq_iff {s s' : Registrations ι F} : s'.counter = s.counter ↔
    s'.s_fun_id = s.s_fun_id ∧ s'.counted = s.counted ∧ s'.stored = s.stored := by
  simp [counter]

theorem rests_counts (bound : ℕ → ℕ) : Rests (Counts (ι := ι) (F := F) bound) := by
  intro s s' h hs
  obtain ⟨hid, hcounted, hstored⟩ := counter_eq_iff.1 h
  rw [Counts, hid, hcounted, hstored]
  exact hs

theorem Rests.and {P Q : Registrations ι F → Prop} (hP : Rests P) (hQ : Rests Q) :
    Rests fun s => P s ∧ Q s :=
  fun s s' h hs => ⟨hP s s' h hs.1, hQ s s' h hs.2⟩

theorem rests_eq (x : ℕ) : Rests fun s : Registrations ι F => x = s.s_fun_id :=
  fun _ _ h hx => hx.trans (congrArg Prod.fst h).symm

/-- The lock of the object that listeners are added to protects the counter. -/
def discipline (F : Type) (V : Set ι) : Discipline ι (Registrations ι F) where
  guar s s' := s.counted ≤ s'.counted ∧
    ((s.counted < 2 ^ 64 → s.Sound) → s'.counted < 2 ^ 64 → s'.Sound)
  same n s s' := n ∈ V → s'.counter = s.counter
  inv n s := n ∈ V → s.Counts Nat.succ
  guar_refl _ := ⟨le_rfl, id⟩
  guar_trans h h' := ⟨h.1.trans h'.1, fun hs => h'.2 (h.2 hs)⟩
  same_refl _ _ _ := rfl
  same_trans h h' hn := (h' hn).trans (h hn)
  inv_same h hs hn := rests_counts _ _ _ (h hn) (hs hn)

section
variable {V : Set ι} {n : ι} {P Q : Registrations ι F → Prop}

/-- Others do not touch the counter while the lock is held. -/
theorem Rests.stable (hP : Rests P) (hn : n ∈ V) {m : LockMode} :
    (discipline F V).Stable [(n, m)] P :=
  fun s s' hs henv => hP s s' (henv.2 _ (List.mem_singleton_self _) hn) hs

variable [DecidableEq ι]

theorem load_triple (hn : n ∈ V) (hP : Rests P) :
    Prog.Triple (discipline F V) [(n, .exclusive)] P load fun x s => P s ∧ x = s.s_fun_id := by
  refine Prog.triple_get_bind (hP.stable hn) fun s hs => ?_
  refine Prog.triple_pure fun s' s'' henv henv' => ?_
  have hcounter : s''.counter = s.counter := (henv.trans henv').2 _ (List.mem_singleton_self _) hn
  exact ⟨hP s s'' hcounter hs, (congrArg Prod.fst hcounter).symm⟩

/-- An access by the thread that has the lock of the only object listeners are added to. -/
theorem access_triple (hV : V.Subsingleton) (hn : n ∈ V) (hP : Rests P) (hQ : Rests Q)
    {f : Registrations ι F → Registrations ι F} {α : Type} (result : Registrations ι F → α)
    (hf : ∀ s, P s → (discipline F V).guar s (f s) ∧ Q (f s)) :
    Prog.Triple (discipline F V) [(n, .exclusive)] P (.access f fun s => .pure (result s))
      fun _ => Q := by
  refine Prog.triple_access (R := fun _ => Q) (fun s s' hs henv => ?_) fun s =>
    Prog.triple_pure fun s' s'' hs' henv => hQ.stable hn s' s'' hs' henv
  obtain ⟨hguar, hend⟩ := hf s' (hP.stable hn s s' hs henv)
  refine ⟨hguar, fun l hl hlV => ?_, hend⟩
  exact absurd (List.mem_singleton.2 (congrArg (·, LockMode.exclusive) (hV hlV hn))) hl

omit [DecidableEq ι] in
theorem Counts.increase {s : Registrations ι F} (hs : s.Counts Nat.succ) :
    (s.increase s.s_fun_id).Counts id := by
  intro hlt
  replace hlt : s.counted + 1 < 2 ^ 64 := hlt
  obtain ⟨hcount, hbelow⟩ := hs (Nat.lt_of_succ_lt hlt)
  have hnext : (s.increase s.s_fun_id).s_fun_id = s.counted + 1 := by
    rw [Registrations.increase, hcount, Nat.mod_eq_of_lt hlt]
  refine ⟨hnext, fun e he => ?_⟩
  rw [hnext, ← hcount]
  exact hbelow e he

theorem Counts.assign {s : Registrations ι F} (hs : s.Counts id) (n : ι) (ocb : F) :
    (s.assign n s.s_fun_id ocb).Counts Nat.succ := by
  intro hlt
  obtain ⟨hcount, hbelow⟩ := hs hlt
  refine ⟨hcount, fun e he => ?_⟩
  rcases List.mem_append.1 he with he | he
  · exact (hbelow e he).trans (Nat.lt_succ_self _)
  · rw [List.mem_singleton.1 he]
    exact Nat.lt_succ_self _

/-- `addListener` under its lock. -/
theorem register_triple (hV : V.Subsingleton) (hn : n ∈ V) (ocb : F) :
    Prog.Triple (discipline F V) [(n, .exclusive)] (Counts Nat.succ) (register n ocb)
      fun _ => Counts Nat.succ := by
  have hmem : Rests fun s => s.Counts Nat.succ ∧
      (s.counted < 2 ^ 64 → (n, s.s_fun_id, ocb) ∈ s.stored) := by
    refine (rests_counts _).and fun s s' h hs => ?_
    obtain ⟨hid, hcounted, hstored⟩ := counter_eq_iff.1 h
    rwa [hid, hcounted, hstored]
  -- while the lock is held, the counter is one ahead of the ids until the listener is stored
  refine (load_triple hn (rests_counts _)).bind fun count => ?_
  refine (access_triple hV hn ((rests_counts _).and (rests_eq count)) (rests_counts id)
    (fun _ => ()) ?_).bind fun _ => ?_
  · rintro s ⟨hs, rfl⟩
    refine ⟨⟨Nat.le_succ _, fun hsound hlt => ?_⟩, hs.increase⟩
    exact (hsound (Nat.lt_of_succ_lt hlt)).increase _
  refine (load_triple hn (rests_counts _)).bind fun key => ?_
  refine (access_triple hV hn ((rests_counts _).and (rests_eq key)) hmem (fun _ => ()) ?_).bind
    fun _ => ?_
  · rintro s ⟨hs, rfl⟩
    refine ⟨⟨le_rfl, fun hsound hlt => (hsound hlt).assign (fun e he => ?_) ocb⟩, hs.assign n ocb,
      fun _ => List.mem_append_right _ (List.mem_singleton_self _)⟩
    exact ((hs hlt).2 e he).ne
  · refine access_triple hV hn hmem (rests_counts _) s_fun_id fun s hs => ?_
    exact ⟨⟨le_rfl, fun hsound hlt => (hsound hlt).ret (hs.2 hlt)⟩, hs.1⟩

/-- Listeners are taken out of any object. -/
theorem modify_triple {h : List (ι × LockMode)} {f : Registrations ι F → Registrations ι F}
    (hf : ∀ s, (f s).counter = s.counter) (hsound : ∀ s, s.Sound → (f s).Sound) (hP : Rests P)
    (hstable : (discipline F V).Stable h P) :
    Prog.Triple (discipline F V) h P (Prog.modify f) fun _ => P := by
  refine Prog.triple_modify fun s s' hs henv => ?_
  have hcounted : (f s').counted = s'.counted := (counter_eq_iff.1 (hf s')).2.1
  refine ⟨⟨hcounted.ge, fun h' hlt => hsound s' (h' (hcounted ▸ hlt))⟩, fun l _ _ => hf s', ?_⟩
  exact fun s'' => hstable _ s'' (hP s' _ (hf s') (hstable s s' hs henv))

/-- Every method keeps to it. -/
theorem Op.prog_triple (hV : V.Subsingleton) (o : Op F V) :
    Prog.Triple (discipline F V) [] (fun _ => True) o.prog fun _ _ => True := by
  have hstable : (discipline F V).Stable [] fun _ => True := fun _ _ _ _ => trivial
  have hend {α : Type} {p : Prog ι (Registrations ι F) α}
      (hp : Prog.Triple (discipline F V) [] (fun _ => True) p fun _ _ => True) :
      Prog.Triple (discipline F V) [] (fun _ => True) p.dropped fun _ _ => True :=
    hp.bind fun _ => Prog.triple_pure fun _ _ _ _ => trivial
  have hwrite (n : ι) {f : Registrations ι F → Registrations ι F}
      (hf : ∀ s, (f s).counter = s.counter) (hsound : ∀ s, s.Sound → (f s).Sound) :
      Prog.Triple (discipline F V) [] (fun _ => True)
        (Prog.locked n .exclusive (Prog.modify f)) fun _ _ => True := by
    refine Prog.triple_locked hstable (fun _ => hstable) ?_
    refine (modify_triple (P := (discipline F V).inv n) hf hsound ?_ ?_).conseq (fun s => And.right)
      fun _ s hs => ⟨fun _ => hs, trivial⟩
    · exact fun s s' h hs hn => rests_counts _ s s' h (hs hn)
    · exact fun s s' hs henv => (discipline F V).inv_same (henv.2 _ (List.mem_singleton_self _)) hs
  cases o with
  | addListener n hn ocb =>
      refine hend (Prog.triple_locked hstable (fun _ => hstable) ?_)
      exact (register_triple hV hn ocb).conseq (fun s hs => hs.2 hn)
        fun _ s hs => ⟨fun _ _ => hs, trivial⟩
  | delListener n key => exact hwrite n (fun _ => rfl) fun s hs => hs.erase n key
  | clearListener n => exact hwrite n (fun _ => rfl) fun s hs => hs.clear n
  | getListener n key =>
      refine hend (Prog.triple_locked hstable (fun _ => hstable) ?_)
      refine Prog.triple_get_bind (fun s s' hs henv => ⟨trivial, ?_⟩) fun s hs => ?_
      · exact (discipline F V).inv_same (henv.2 _ (List.mem_singleton_self _)) hs.2
      · exact Prog.triple_pure fun _ _ _ _ => ⟨nofun, trivial⟩

end

/-! ## Runs -/

section
variable {θ : Type} [DecidableEq θ] [DecidableEq ι] {V : Set ι}

/-- It holds wherever any number of threads get to with fewer than `2 ^ 64` calls of `addListener`
    on the objects in `V`. -/
def Always (θ : Type) [DecidableEq θ] (V : Set ι) (P : Registrations ι F → Prop) : Prop :=
  ∀ c : Pool θ ι (Registrations ι F), Pool.Reachable (Set.range (Op.prog (V := V)))
    (Pool.idle new) c → c.shared.counted < 2 ^ 64 → P c.shared

theorem always_sound (hV : V.Subsingleton) : Always θ V (Sound (F := F)) := by
  intro c hc
  have hobeying : c.Obeying (discipline F V) new := by
    refine Pool.obeying ?_ (fun n _ _ => ⟨rfl, fun _ he => absurd he List.not_mem_nil⟩) hc
    rintro _ ⟨o, rfl⟩ s -
    exact (o.prog_triple hV s trivial).mono fun _ _ _ hq => hq.1
  exact hobeying.guar.2 fun _ => .new

omit [DecidableEq ι] in
theorem lockless_load : (load : Prog ι (Registrations ι F) ℕ).Lockless :=
  Prog.lockless_get.bind fun _ => trivial

/-- What `addListener` does once it has read the counter, up to its return. -/
def store (n : ι) (ocb : F) (count : ℕ) : Prog ι (Registrations ι F) Unit := do
  Prog.modify (increase count)
  let key ← load
  Prog.modify (assign n key ocb)

theorem lockless_store (n : ι) (ocb : F) (count : ℕ) : (store n ocb count).Lockless := by
  refine (Prog.lockless_modify _).bind fun _ => lockless_load.bind fun key => ?_
  exact Prog.lockless_modify _

theorem lockless_register (n : ι) (ocb : F) : (register n ocb).Lockless := by
  refine lockless_load.bind fun count => (Prog.lockless_modify _).bind fun _ => ?_
  exact lockless_load.bind fun key => (Prog.lockless_modify _).bind fun _ _ => trivial

/-- What it does after that. -/
def tell (n : ι) (ocb : F) : Prog ι (Registrations ι F) Unit :=
  .access (ret n ocb) fun _ => .release n .exclusive (.pure ())

/-- One more listener on `m`. -/
def registered (m : ι) (ocb : F) (s : Registrations ι F) : Registrations ι F :=
  ((register m ocb).run s).2

/-- A listener is registered on `n` by a thread that reads the counter, waits while two are
    registered on `m`, stores its own, and waits for a third one before it returns. -/
def overtaken (n m : ι) (ocb : F) : Registrations ι F :=
  ret n ocb (registered m ocb ((store n ocb 0).run (registered m ocb (registered m ocb new))).2)

theorem overtaken_reachable [Nontrivial θ] {n m : ι} (hn : n ∈ V) (hm : m ∈ V) (hne : m ≠ n)
    (ocb : F) : ∃ c : Pool θ ι (Registrations ι F),
      Pool.Reachable (Set.range (Op.prog (V := V))) (Pool.idle new) c ∧
        c.shared = overtaken n m ocb := by
  obtain ⟨t, t', ht⟩ := exists_pair_ne θ
  have hop (l : ι) (hl : l ∈ V) : (Prog.locked l .exclusive (register l ocb)).dropped ∈
      Set.range (Op.prog (V := V)) := ⟨.addListener l hl ocb, rfl⟩
  have hfree : ¬ Excluded [(n, LockMode.exclusive)] (m, .exclusive) := by
    simp [excluded_exclusive_iff, hne]
  have hother (p : Prog ι (Registrations ι F) Unit) (s : Registrations ι F) :
      Pool.Reachable (Set.range (Op.prog (V := V))) (Pool.stopped t p [(n, .exclusive)] s)
        (Pool.stopped t p [(n, .exclusive)] (registered m ocb s)) :=
    Pool.reachable_stopped_other (lockless_register m ocb) (hop m hm) ht.symm hfree
  have hload : Pool.Reachable (Set.range (Op.prog (V := V))) (Pool.idle new) (Pool.stopped t
      ((store n ocb 0).bind fun _ => tell n ocb) [(n, .exclusive)] new) :=
    (Pool.reachable_stopped (hop n hn) t new).trans (Pool.reachable_stopped_bind lockless_load
      fun count => (store n ocb count).bind fun _ => tell n ocb)
  have hlate := ((hload.trans (hother _ new)).trans (hother _ _)).trans
    (Pool.reachable_stopped_bind (lockless_store n ocb 0) fun _ => tell n ocb)
  exact ⟨_, (hlate.trans (hother _ _)).tail (.access t Pool.stopped_prog_self), rfl⟩

theorem registered_self (m : ι) (ocb : F) (s : Registrations ι F) :
    (registered m ocb s).m_cbs m = (s.m_cbs m).assign ((s.s_fun_id + 1) % 2 ^ 64, ocb) ∧
      (registered m ocb s).live m = s.live m ++ [((s.s_fun_id + 1) % 2 ^ 64, ocb)] :=
  ⟨Function.update_self m _ _, Function.update_self m _ _⟩

theorem store_of_ne {n m : ι} (hne : m ≠ n) (ocb : F) (count : ℕ) (s : Registrations ι F) :
    ((store n ocb count).run s).2.m_cbs m = s.m_cbs m ∧
      ((store n ocb count).run s).2.live m = s.live m :=
  ⟨Function.update_of_ne hne _ _, Function.update_of_ne hne _ _⟩

/-- Three listeners are added to `m`, and it has two. -/
theorem overtaken_self {n m : ι} (hne : m ≠ n) (ocb : F) :
    ((overtaken n m ocb).m_cbs m).elems = [(1, ocb), (2, ocb)] ∧
      (overtaken n m ocb).live m = [(1, ocb), (2, ocb), (2, ocb)] := by
  have hcbs : (overtaken n m ocb).m_cbs m =
      (((∅ : OrdMap ℕ F).assign (1, ocb)).assign (2, ocb)).assign (2, ocb) := by
    refine (registered_self m ocb _).1.trans ?_
    rw [(store_of_ne hne ocb 0 _).1, (registered_self m ocb _).1, (registered_self m ocb _).1]
    rfl
  refine ⟨congrArg KeyedSet.elems hcbs, (registered_self m ocb _).2.trans ?_⟩
  rw [(store_of_ne hne ocb 0 _).2, (registered_self m ocb _).2, (registered_self m ocb _).2]
  rfl

/-- The late listener has an id that is taken, a later one takes the place of another, and the late
    thread returns the id of that one. -/
theorem overtaken_unsound {n m : ι} (hne : m ≠ n) (ocb : F) :
    (overtaken n m ocb).counted = 4 ∧ ¬ (overtaken n m ocb).Distinct ∧
      ¬ (overtaken n m ocb).Returned ∧ ¬ (overtaken n m ocb).Kept := by
  have hstored : (overtaken n m ocb).stored =
    [(m, 1, ocb), (m, 2, ocb), (n, 1, ocb), (m, 2, ocb)] := rfl
  refine ⟨rfl, fun h => ?_, fun h => ?_, fun h => ?_⟩
  · rw [Distinct, hstored] at h
    exact absurd (show [1, 2, 1, 2].Nodup from h) (by decide)
  · have hlate : (n, 2, ocb) ∈ (overtaken n m ocb).stored :=
      h _ (List.mem_append_right _ (List.mem_singleton_self _))
    rw [hstored] at hlate
    simp [hne.symm] at hlate
  · obtain ⟨hcbs, hlive⟩ := overtaken_self hne ocb
    have hkept := h m
    rw [hcbs, hlive] at hkept
    exact absurd (show 2 = 3 from hkept.length_eq) (by decide)

/-- **Ids of listeners.** While `addListener` is called fewer than `2 ^ 64` times, the ids it stores
    listeners under are distinct, the ids it returns are these, and no listener takes the place of
    another, in all runs of two threads or more, exactly if listeners are added to one object only.
    With two objects, each of the three can fail. -/
theorem unique_tfae [Nontrivial θ] [Nonempty F] (V : Set ι) :
    List.TFAE [V.Subsingleton, Always θ V (Distinct (F := F)), Always θ V (Returned (F := F)),
      Always θ V (Kept (F := F))] := by
  obtain ⟨ocb⟩ := ‹Nonempty F›
  have hsub {P : Registrations ι F → Prop} (hP : ∀ n m, m ≠ n → ¬ P (overtaken n m ocb))
      (halways : Always θ V P) : V.Subsingleton := by
    intro n hn m hm
    by_contra hne
    obtain ⟨c, hc, hshared⟩ := overtaken_reachable (θ := θ) hn hm (Ne.symm hne) ocb
    have hfew : c.shared.counted < 2 ^ 64 := by
      rw [hshared, (overtaken_unsound (Ne.symm hne) ocb).1]
      decide
    exact hP n m (Ne.symm hne) (hshared ▸ halways c hc hfew)
  tfae_have 1 → 2 := fun hV c hc hfew => (always_sound hV c hc hfew).distinct
  tfae_have 1 → 3 := fun hV c hc hfew => (always_sound hV c hc hfew).returned
  tfae_have 1 → 4 := fun hV c hc hfew => (always_sound hV c hc hfew).kept
  tfae_have 2 → 1 := hsub fun n m hne => (overtaken_unsound hne ocb).2.1
  tfae_have 3 → 1 := hsub fun n m hne => (overtaken_unsound hne ocb).2.2.1
  tfae_have 4 → 1 := hsub fun n m hne => (overtaken_unsound hne ocb).2.2.2
  tfae_finish

/-- Two threads that register on two objects, and on one of them only. -/
theorem unique_tfae_sample : ¬ Always Bool Set.univ (Kept (ι := Bool) (F := Unit)) ∧
    Always Bool {true} (Kept (F := Unit)) := by
  refine ⟨fun h => ?_, ?_⟩
  · have hsub := ((unique_tfae (θ := Bool) (F := Unit) Set.univ).out 0 3).2 h
    exact absurd (hsub (Set.mem_univ true) (Set.mem_univ false)) (by decide)
  · exact ((unique_tfae (θ := Bool) (F := Unit) {true}).out 0 3).1 Set.subsingleton_singleton

end

end Registrations

end Ipmsg
