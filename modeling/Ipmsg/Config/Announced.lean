import Ipmsg.Config.Var
import Ipmsg.Lib.Run

set_option autoImplicit false

/-! # Listeners and the stored value

`setValue` calls the listeners one after another and stores the value after the last of them. A
listener that throws ends the call, so those before it have been told of a change that does not take
place, and `fromString` reports it like a text that cannot be converted. -/

namespace Ipmsg

variable {T : Type}

/-- The call was one of the listener, and the listener returned from it. -/
def Call.takenBy (e : ℕ × Listener T) (c : Call T) : Bool :=
  c.id = e.1 && (e.2 c.old_value c.new_value).isOk

/-- The new value of the last call the listener returned from. -/
def lastTaken (e : ℕ × Listener T) (calls : List (Call T)) : Option T :=
  (calls.reverse.find? (Call.takenBy e)).map Call.new_value

theorem lastTaken_append (e : ℕ × Listener T) (calls calls' : List (Call T)) :
    lastTaken e (calls ++ calls') = (lastTaken e calls').or (lastTaken e calls) := by
  simp only [lastTaken, List.reverse_append, List.find?_append, Option.map_or]

theorem mem_of_lastTaken {e : ℕ × Listener T} {calls : List (Call T)} {v : T}
    (h : lastTaken e calls = some v) : ∃ c ∈ calls, c.takenBy e = true ∧ c.new_value = v := by
  obtain ⟨c, hc, rfl⟩ := Option.map_eq_some_iff.1 h
  exact ⟨c, List.mem_reverse.1 (List.mem_of_find?_eq_some hc), List.find?_some hc, rfl⟩

theorem lastTaken_isSome {e : ℕ × Listener T} {calls : List (Call T)} {c : Call T} (hc : c ∈ calls)
    (htaken : c.takenBy e = true) : (lastTaken e calls).isSome := by
  rw [lastTaken, Option.isSome_map, List.find?_isSome]
  exact ⟨c, List.mem_reverse.2 hc, htaken⟩

/-- A variable with the calls its listeners have received. -/
structure Watched (T : Type) where
  var : ConfigVar T
  calls : List (Call T)

namespace Watched

variable [BEq T] (fromStr : String → Except StdException T)

/-- `ConfigVar::fromString` on the variable. -/
def fromString (s : Watched T) (val : String) : Watched T :=
  let (x, calls, _) := s.var.fromString fromStr val
  { var := x, calls := s.calls ++ calls }

omit [BEq T] in
/-- What a listener was last told, without throwing, is the stored value. -/
def UpToDate (s : Watched T) : Prop :=
  ∀ e ∈ s.var.m_cbs, ∀ v ∈ lastTaken e s.calls, v = s.var.m_val

/-- If the text is a change and a listener throws on being told of it, the first listener does. -/
def FirstThrows (s : Watched T) (val : String) : Prop :=
  ∀ v, fromStr val = .ok v → (v == s.var.m_val) = false → v ≠ s.var.m_val →
    (∀ e ∈ s.var.m_cbs, e.2 s.var.m_val v = .ok ()) ∨
      ∃ e after err, s.var.m_cbs.elems = e :: after ∧ e.2 s.var.m_val v = .error err

variable {fromStr}

/-! ## One call -/

/-- A text that is converted to another value. -/
theorem fromString_eq {s : Watched T} {val : String} {v : T} (hv : fromStr val = .ok v)
    (hne : (v == s.var.m_val) = false) :
    s.fromString fromStr val =
      { var := if (ConfigVar.callListeners s.var.m_val v s.var.m_cbs.elems).2 = none
          then s.var.store v else s.var
        calls := s.calls ++ (ConfigVar.callListeners s.var.m_val v s.var.m_cbs.elems).1 } := by
  have hne' : ¬ (v == s.var.m_val) = true := by simp [hne]
  simp only [Watched.fromString, ConfigVar.fromString_setValue hv, ConfigVar.setValue,
    ConfigVar.notify, if_neg hne']
  rcases ConfigVar.callListeners s.var.m_val v s.var.m_cbs.elems with ⟨calls, _ | e⟩ <;> rfl

/-- A text that cannot be converted, or is converted to the stored value. -/
theorem fromString_idle {s : Watched T} {val : String}
    (h : ∀ v, fromStr val = .ok v → (v == s.var.m_val) = true) :
    s.fromString fromStr val = s := by
  cases hv : fromStr val with
  | error e =>
      simp only [Watched.fromString, ConfigVar.fromString, hv, List.append_nil]
  | ok v =>
      simp only [Watched.fromString, ConfigVar.fromString_setValue hv,
        ConfigVar.setValue_same (h v hv), List.append_nil]

omit [BEq T] in
theorem callListeners_new_value (a v : T) (cbs : List (ℕ × Listener T)) :
    ∀ c ∈ (ConfigVar.callListeners a v cbs).1, c.new_value = v := by
  intro c hc
  rcases ConfigVar.callListeners_spec a v cbs with ⟨-, heq⟩ | ⟨before, e, after, err, -, -, -, heq⟩
  all_goals
    rw [heq, List.mem_map] at hc
    obtain ⟨e, -, rfl⟩ := hc
    rfl

omit [BEq T] in
/-- New calls keep the listeners up to date if those that took one were told of what is stored, and
    nothing new was stored for the others. -/
theorem UpToDate.append {s : Watched T} {x : ConfigVar T} {calls : List (Call T)} {v : T}
    (h : s.UpToDate) (hcbs : x.m_cbs = s.var.m_cbs) (hcalls : ∀ c ∈ calls, c.new_value = v)
    (htaken : ∀ e ∈ s.var.m_cbs, (lastTaken e calls).isSome → x.m_val = v)
    (hrest : ∀ e ∈ s.var.m_cbs, lastTaken e calls = none → x.m_val = s.var.m_val) :
    UpToDate { var := x, calls := s.calls ++ calls } := by
  intro e he w hw
  rw [hcbs] at he
  rw [lastTaken_append] at hw
  cases hlast : lastTaken e calls with
  | none =>
      rw [hlast, Option.none_or] at hw
      exact (h e he w hw).trans (hrest e he hlast).symm
  | some u =>
      rw [hlast, Option.some_or] at hw
      obtain ⟨c, hc, -, hcu⟩ := mem_of_lastTaken hlast
      rw [htaken e he (by rw [hlast]; rfl), ← hcalls c hc, hcu]
      exact (Option.some.inj hw).symm

omit [BEq T] in
theorem takenBy_told {e : ℕ × Listener T} {a v : T} (h : e.2 a v = .ok ()) :
    Call.takenBy e ⟨e.1, a, v⟩ = true := by
  simp [Call.takenBy, h, Except.isOk, Except.toBool]

omit [BEq T] in
/-- No listener of the set takes the call of one that throws. -/
theorem lastTaken_thrown {cbs : OrdMap ℕ (Listener T)} {e e' : ℕ × Listener T} {a v : T}
    {err : StdException} (he : e ∈ cbs) (he' : e' ∈ cbs) (h : e'.2 a v = .error err) :
    lastTaken e [⟨e'.1, a, v⟩] = none := by
  have hnot : Call.takenBy e ⟨e'.1, a, v⟩ = false := by
    by_cases hid : e'.1 = e.1
    · obtain rfl : e' = e := KeyedSet.eq_of_key_eq he' he hid
      simp [Call.takenBy, h, Except.isOk, Except.toBool]
    · simp [Call.takenBy, hid]
  simp [lastTaken, hnot]

/-- Nobody is told before the first listener. -/
theorem FirstThrows.eq_nil {s : Watched T} {val : String} (hfirst : s.FirstThrows fromStr val)
    {v : T} (hv : fromStr val = .ok v) (hne : (v == s.var.m_val) = false) (hval : v ≠ s.var.m_val)
    {before after : List (ℕ × Listener T)} {e : ℕ × Listener T} {err : StdException}
    (hsplit : s.var.m_cbs.elems = before ++ e :: after)
    (hbefore : ∀ e ∈ before, e.2 s.var.m_val v = .ok ()) (he : e.2 s.var.m_val v = .error err) :
    before = [] := by
  rcases hfirst v hv hne hval with hall | ⟨e', after', err', hhead, hthrow⟩
  · rw [hall e (by rw [KeyedSet.mem_def, hsplit]; simp)] at he
    exact absurd he (by simp)
  · cases before with
    | nil => rfl
    | cons b before =>
        rw [hhead] at hsplit
        obtain ⟨rfl, -⟩ := List.cons.inj hsplit
        rw [hbefore e' List.mem_cons_self] at hthrow
        exact absurd hthrow (by simp)

theorem UpToDate.fromString {s : Watched T} (h : s.UpToDate) {val : String}
    (hfirst : s.FirstThrows fromStr val) : (s.fromString fromStr val).UpToDate := by
  by_cases hidle : ∀ v, fromStr val = .ok v → (v == s.var.m_val) = true
  · rw [fromString_idle hidle]
    exact h
  · push Not at hidle
    obtain ⟨v, hv, hne⟩ := hidle
    have hne : (v == s.var.m_val) = false := by simpa using hne
    have hnew := callListeners_new_value s.var.m_val v s.var.m_cbs.elems
    rw [fromString_eq hv hne]
    rcases ConfigVar.callListeners_spec s.var.m_val v s.var.m_cbs.elems with
      ⟨hall, heq⟩ | ⟨before, e, after, err, hsplit, hbefore, he, heq⟩
    · -- the value is stored, and every listener took it
      rw [if_pos (congrArg Prod.snd heq)]
      refine h.append rfl hnew (fun _ _ _ => rfl) fun e he hnone => absurd hnone ?_
      have hcall : (⟨e.1, s.var.m_val, v⟩ : Call T) ∈
          (ConfigVar.callListeners s.var.m_val v s.var.m_cbs.elems).1 := by
        rw [heq]
        exact List.mem_map.2 ⟨e, he, rfl⟩
      rw [← ne_eq, Option.ne_none_iff_isSome]
      exact lastTaken_isSome hcall (takenBy_told (hall e he))
    · -- the value is not stored; unless it is the one stored before, no listener took it
      have hthrown : (ConfigVar.callListeners s.var.m_val v s.var.m_cbs.elems).2 ≠ none := by
        rw [heq]
        exact Option.some_ne_none err
      rw [if_neg hthrown]
      refine h.append rfl hnew (fun e₁ he₁ hsome => ?_) fun _ _ _ => rfl
      by_contra hval
      have hmem : e ∈ s.var.m_cbs := by rw [KeyedSet.mem_def, hsplit]; simp
      have hnil : before = [] := hfirst.eq_nil hv hne (Ne.symm hval) hsplit hbefore he
      rw [heq, hnil, List.nil_append, List.map_singleton, lastTaken_thrown he₁ hmem he] at hsome
      exact absurd hsome (by simp)

omit [BEq T] in
/-- Of new calls a listener took one of, what they told is what is stored. -/
theorem UpToDate.eq_of_taken {x : ConfigVar T} {told calls : List (Call T)} {v : T}
    {e : ℕ × Listener T} (h : UpToDate { var := x, calls := told ++ calls }) (he : e ∈ x.m_cbs)
    (hcalls : ∀ c ∈ calls, c.new_value = v) (htaken : (lastTaken e calls).isSome) :
    v = x.m_val := by
  obtain ⟨u, hu⟩ := Option.isSome_iff_exists.1 htaken
  obtain ⟨c, hc, -, hcu⟩ := mem_of_lastTaken hu
  rw [← hcalls c hc, hcu]
  exact h e he u (by rw [lastTaken_append, hu, Option.some_or]; rfl)

/-- Where another listener than the first throws, the first has taken a value that is not stored. -/
theorem not_upToDate_fromString {s : Watched T} {val : String}
    (hfirst : ¬ s.FirstThrows fromStr val) : ¬ (s.fromString fromStr val).UpToDate := by
  simp only [FirstThrows, not_forall] at hfirst
  obtain ⟨v, hv, hne, hval, hthrows⟩ := hfirst
  rw [not_or] at hthrows
  have hnew := callListeners_new_value s.var.m_val v s.var.m_cbs.elems
  intro hup
  rw [fromString_eq hv hne] at hup
  rcases ConfigVar.callListeners_spec s.var.m_val v s.var.m_cbs.elems with
    ⟨hall, -⟩ | ⟨before, e, after, err, hsplit, hbefore, he, heq⟩
  · exact hthrows.1 hall
  · cases before with
    | nil => exact hthrows.2 ⟨e, after, err, hsplit, he⟩
    | cons b before =>
        have hthrown : (ConfigVar.callListeners s.var.m_val v s.var.m_cbs.elems).2 ≠ none := by
          rw [heq]
          exact Option.some_ne_none err
        have hcall : (⟨b.1, s.var.m_val, v⟩ : Call T) ∈
            (ConfigVar.callListeners s.var.m_val v s.var.m_cbs.elems).1 := by
          rw [heq]
          exact List.mem_map.2 ⟨b, List.mem_cons_self .., rfl⟩
        have htaken := lastTaken_isSome hcall (takenBy_told (hbefore b (List.mem_cons_self ..)))
        have hb : b ∈ s.var.m_cbs := by rw [KeyedSet.mem_def, hsplit]; simp
        rw [if_neg hthrown] at hup
        exact hval (hup.eq_of_taken hb hnew htaken)

/-! ## Any number of calls -/

/-- `fromString` as a step of a run; it is always possible. -/
def step (fromStr : String → Except StdException T) (s : Watched T) (val : String) :
    Option (Watched T) :=
  some (s.fromString fromStr val)

/-- After every call of a sequence the listeners are up to date exactly if, in each of them, no
    listener throws on being told of the change or the first one does. -/
theorem upToDate_iff (fromStr : String → Except StdException T) (x : ConfigVar T)
    (vals : List String) :
    (∀ before s, before <+: vals → exec (step fromStr) ⟨x, []⟩ before = some s → s.UpToDate) ↔
      Along (step fromStr) (FirstThrows fromStr) ⟨x, []⟩ vals := by
  have hstart : UpToDate ⟨x, []⟩ := fun _ _ _ h => absurd h (by simp [lastTaken])
  have hkeep : ∀ s val s', UpToDate s → s.FirstThrows fromStr val →
      step fromStr s val = some s' → s'.UpToDate := by
    intro s val s' h hfirst hs
    rw [← Option.some.inj hs]
    exact h.fromString hfirst
  have hbreak : ∀ s val s', ¬ s.FirstThrows fromStr val → step fromStr s val = some s' →
      ¬ s'.UpToDate := by
    intro s val s' hfirst hs
    rw [← Option.some.inj hs]
    exact not_upToDate_fromString hfirst
  exact forall_reached_iff_along (fun _ => UpToDate) (fun _ => UpToDate) (fun _ _ h => h)
    (fun _ s val s' h _ hfirst hs => hkeep s val s' h hfirst hs)
    (fun _ s val s' _ _ hfirst hs => hbreak s val s' hfirst hs) [] hstart
    (along_of_forall (fun _ _ => trivial) _) (exec_total (Watched.fromString fromStr) vals ⟨x, []⟩)

/-- A listener that returns, and after it one that throws: the first acts on a value that is not
    stored. -/
theorem not_upToDate : ∃ s : Watched ℕ,
    exec (step fun _ => .ok 1)
      ⟨(((ConfigVar.new "system.port" 0).addListener 0 fun _ _ => .ok ()).1.addListener 1
        fun _ _ => .error (.other "rejected")).1, []⟩ ["1"] = some s ∧
      s.var.m_val = 0 ∧ s.calls.map (fun c => (c.id, c.new_value)) = [(1, 1), (2, 1)] ∧
      ¬ s.UpToDate := by
  refine ⟨_, rfl, rfl, rfl, fun h => ?_⟩
  exact absurd (h (1, fun _ _ => .ok ()) List.mem_cons_self 1 rfl) (by decide)

end Watched

end Ipmsg
