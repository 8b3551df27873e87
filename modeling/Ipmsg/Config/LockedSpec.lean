import Ipmsg.Config.Locked
import Ipmsg.Log.LockedSpec

set_option autoImplicit false

/-! # What a variable's programs do alone

A program on a variable that no other thread interferes with does what the method of `ConfigVar` it
stands for does. -/

namespace Ipmsg

variable {K : ConfigTypes} {t : K.Ty}

/-! ## The variable by itself -/

/-- The function that is registered. -/
def SharedListener.callback : SharedListener K (some t) → Listener (K.El t)
  | .user cb => cb

def SharedVar.alone (x : SharedVar K (some t)) : ConfigVar (K.El t) where
  m_name := x.m_name
  m_val := x.m_val
  m_cbs := ⟨x.m_cbs.elems.map fun e => (e.1, e.2.callback), List.pairwise_map.2 x.m_cbs.sorted⟩

theorem SharedVar.mem_alone {x : SharedVar K (some t)} {id : ℕ} {cb : Listener (K.El t)} :
    (id, cb) ∈ x.alone.m_cbs ↔ (id, .user cb) ∈ x.m_cbs := by
  rw [KeyedSet.mem_def, KeyedSet.mem_def]
  show (id, cb) ∈ x.m_cbs.elems.map _ ↔ _
  rw [List.mem_map]
  constructor
  · rintro ⟨⟨id', cb'⟩, he, heq⟩
    cases cb' with
    | user cb' =>
        obtain ⟨rfl, rfl⟩ := Prod.mk.inj heq
        exact he
  · exact fun he => ⟨_, he, rfl⟩

theorem SharedVar.alone_eq {x : SharedVar K (some t)} {y : ConfigVar (K.El t)}
    (hname : x.m_name = y.m_name) (hval : x.m_val = y.m_val)
    (hcbs : ∀ id cb, (id, .user cb) ∈ x.m_cbs ↔ (id, cb) ∈ y.m_cbs) : x.alone = y := by
  have hset : x.alone.m_cbs = y.m_cbs := by
    apply KeyedSet.ext_mem
    rintro ⟨id, cb⟩
    rw [mem_alone, hcbs]
  cases y
  exact ConfigVar.mk.injEq .. ▸ ⟨hname, hval, hset⟩

namespace Locked

open Prog

/-! ## Calling the listeners -/

theorem call_run (cb : SharedListener K (some t)) (a b : ValueOf K (some t)) (s : Shared K) :
    Prog.run (call cb a b).run s = ((cb.callback a b).mapError .exception, s) := by
  cases cb with
  | user cb => rfl

/-- The outcome of the loop over the listeners. -/
theorem listeners_run (a b : ValueOf K (some t)) (s : Shared K)
    (cbs : List (ℕ × SharedListener K (some t))) :
    Prog.run (cbs.foldlM (fun _ i => call i.2 a b) () : ConfigProgT K Unit).run s =
      (match (ConfigVar.callListeners a b (cbs.map fun e => (e.1, e.2.callback))).2 with
        | none => .ok ()
        | some e => .error (.exception e), s) := by
  induction cbs with
  | nil => rfl
  | cons e cbs ih =>
      rw [List.foldlM_cons, run_bindT, call_run, List.map_cons]
      unfold ConfigVar.callListeners
      cases hcall : e.2.callback a b with
      | error err => rfl
      | ok _ => exact ih

section
variable [DecidableEq K.Ty]

/-- A change that leaves the variable as it is. -/
theorem modifyVar_eq_self {t : Option K.Ty} {n : ℕ} {s : Shared K} {x : SharedVar K t}
    (hx : s.var t n = some x) {f : SharedVar K t → SharedVar K t} (hf : f x = x) :
    modifyVar t n f s = s := by
  have hn : (s.var t n).map f = s.var t n := by rw [hx, Option.map_some, hf]
  unfold modifyVar
  rw [hn, Function.update_eq_self, Function.update_eq_self]

/-- `ConfigVar::setValue`. -/
theorem setValue_run {n : ℕ} {s : Shared K} {x : SharedVar K (some t)}
    (hx : s.var (some t) n = some x) (v : K.El t) :
    letI := K.beq t
    Prog.run (setValue (some t) n v).run s =
      match x.alone.setValue v with
      | (_, _, some e) => (.error (.exception e), s)
      | (x', _, none) =>
          (.ok (), modifyVar (some t) n (fun y => { y with m_val := x'.m_val }) s) := by
  unfold setValue
  rw [run_bindT]
  simp only [lockedT, ExceptT.run_mk, run_locked]
  rw [run_lift_bindT]
  simp only [shared, run_get, hx]
  unfold ConfigVar.setValue ConfigVar.notify
  let _ := K.beq t
  by_cases hsame : sameValue (some t) v x.m_val = true
  · rw [if_pos hsame, if_pos (show (v == x.alone.m_val) = true from hsame)]
    exact congrArg (Prod.mk (Except.ok ())) (modifyVar_eq_self hx rfl).symm
  · have hcalls : Prog.run (x.m_cbs.elems.foldlM (fun _ i => call i.2 x.m_val v) ()
          : ConfigProgT K Unit).run s =
        (match (ConfigVar.callListeners x.alone.m_val v x.alone.m_cbs.elems).2 with
          | none => .ok ()
          | some e => .error (.exception e), s) := listeners_run x.m_val v s x.m_cbs.elems
    rw [if_neg hsame, if_neg (show ¬ (v == x.alone.m_val) = true from hsame), run_bindT, hcalls]
    obtain ⟨calls, thrown⟩ := ConfigVar.callListeners x.alone.m_val v x.alone.m_cbs.elems
    cases thrown with
    | none => rfl
    | some e => rfl

/-- Only the variable changes. -/
theorem modifyVar_var {t : Option K.Ty} {n : ℕ} {s : Shared K} {x : SharedVar K t}
    (hx : s.var t n = some x) (f : SharedVar K t → SharedVar K t) :
    (modifyVar t n f s).var t n = some (f x) := by
  simp [modifyVar, hx]

/-- `ConfigVar::addListener`: the listener, its id and the counter. -/
theorem addListener_run {n : ℕ} {s : Shared K} {x : SharedVar K (some t)}
    (hx : s.var (some t) n = some x) (cb : Listener (K.El t)) :
    ((addListener (some t) n (.user cb)).run s).1 =
        (x.alone.addListener (s.s_fun_id (some t)) cb).2 ∧
      ((addListener (some t) n (.user cb)).run s).2.s_fun_id (some t) =
        (x.alone.addListener (s.s_fun_id (some t)) cb).2 ∧
      ∃ x', ((addListener (some t) n (.user cb)).run s).2.var (some t) n = some x' ∧
        x'.alone = (x.alone.addListener (s.s_fun_id (some t)) cb).1 := by
  refine ⟨rfl, Function.update_self .., _, modifyVar_var hx _, ?_⟩
  apply SharedVar.alone_eq rfl rfl
  intro id cb'
  have huser : (SharedListener.user cb' : SharedListener K (some t)) = .user cb ↔ cb' = cb :=
    ⟨SharedListener.user.inj, fun h => h ▸ rfl⟩
  show _ ↔ (id, cb') ∈ x.alone.m_cbs.assign _
  simp only [KeyedSet.mem_assign, SharedVar.mem_alone, Prod.mk.injEq, huser]

/-- `ConfigVar::delListener`. -/
theorem delListener_run {n : ℕ} {s : Shared K} {x : SharedVar K (some t)}
    (hx : s.var (some t) n = some x) (key : ℕ) :
    ∃ x', ((delListener (some t) n key).run s).2.var (some t) n = some x' ∧
      x'.alone = x.alone.delListener key := by
  refine ⟨_, modifyVar_var hx _, ?_⟩
  apply SharedVar.alone_eq rfl rfl
  intro id cb
  show _ ↔ (id, cb) ∈ x.alone.m_cbs.erase key
  rw [KeyedSet.mem_erase, KeyedSet.mem_erase, SharedVar.mem_alone]

/-- `ConfigVar::clearListener`. -/
theorem clearListener_run {n : ℕ} {s : Shared K} {x : SharedVar K (some t)}
    (hx : s.var (some t) n = some x) :
    ∃ x', ((clearListener (some t) n).run s).2.var (some t) n = some x' ∧
      x'.alone = x.alone.clearListener :=
  ⟨_, modifyVar_var hx _, rfl⟩

/-! ## Setting from a text -/

omit [DecidableEq K.Ty] in
/-- A message changes no variable. -/
theorem logRoot_var (level : Level) (event : String) (s : Shared K) :
    (Prog.run (logRoot level event).run s).2.var = s.var := by
  unfold logRoot onLog
  simp only [shared, run_lift_bindT, run_get, ExceptT.run_mk, run_bind, run_pure]
  have hzoom := @run_zoom Lock LogState _ (Shared K) Shared.log (fun s l => { s with log := l })
    (fun _ _ => rfl) (fun _ => rfl) (fun _ _ _ => rfl) (logLevel s.log.m_root level event).run s
  rw [hzoom]

omit [DecidableEq K.Ty] in
/-- The handler of `fromString` changes no variable. -/
theorem report_var (text : String) (s : Shared K) :
    (Prog.run (do logRoot .error text; return false : ConfigProgT K Bool).run s).2.var = s.var := by
  rw [run_bindT, ← logRoot_var .error text s]
  obtain ⟨r, s'⟩ := Prog.run (logRoot .error text).run s
  cases r <;> rfl

omit [DecidableEq K.Ty] in
theorem fromStr_run (Y : YamlCpp) {val : String} {r : Except StdException (ValueOf K (some t))}
    (hconv : K.fromStr t val = r) (s : Shared K) :
    Prog.run (Prog.ofExcept ((fromStr Y (some t) val).mapError .exception)
      : ConfigProgT K (ValueOf K (some t))).run s = (r.mapError .exception, s) :=
  congrArg (fun r => (Except.mapError Abort.exception r, s)) hconv

/-- `ConfigVar::fromString`: the variable afterwards, whatever is logged. -/
theorem fromString_run (Y : YamlCpp) (M : MessageTexts K) {n : ℕ} {s : Shared K}
    {x : SharedVar K (some t)} (hx : s.var (some t) n = some x) (val : String) :
    letI := K.beq t
    ∃ x', (Prog.run (fromString Y M (some t) n val).run s).2.var (some t) n = some x' ∧
      x'.alone = (x.alone.fromString (K.fromStr t) val).1 := by
  let _ := K.beq t
  unfold fromString
  simp only [ExceptT.run_mk, run_bind, run_bindT]
  cases hconv : K.fromStr t val with
  | error e =>
      have herror := fromStr_run Y hconv s
      refine ⟨x, ?_, ?_⟩
      · rw [herror]
        dsimp only [Except.mapError]
        rw [report_var, hx]
      · simp only [ConfigVar.fromString, hconv]
  | ok v =>
      have hok := fromStr_run Y hconv s
      rw [hok, ConfigVar.fromString_setValue hconv]
      dsimp only [Except.mapError]
      rw [setValue_run hx]
      have hkeeps := x.alone.setValue_keeps v
      rcases hset : x.alone.setValue v with ⟨x', calls, _ | e⟩
      · -- no listener threw, and the value is stored
        rw [hset] at hkeeps
        refine ⟨_, modifyVar_var hx _, SharedVar.alone_eq hkeeps.1.symm rfl fun id cb => ?_⟩
        show _ ↔ (id, cb) ∈ x'.m_cbs
        rw [hkeeps.2, SharedVar.mem_alone]
      · have hsame : x' = x.alone := ConfigVar.setValue_thrown hset
        refine ⟨x, ?_, hsame.symm⟩
        dsimp only
        rw [report_var, hx]

end
end Locked
end Ipmsg
