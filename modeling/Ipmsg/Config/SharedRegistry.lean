import Ipmsg.Deadlock
import Ipmsg.Lib.Accesses
import Ipmsg.Lib.Schedule

set_option autoImplicit false

/-! # Lookups from many threads

Threads call `Config::Lookup` with any names and types while others load documents, set variables
and log. What each call answers is written down here, and all answers ever given fit together: a
name means one object, whoever asks for it first. -/

namespace Ipmsg

open Prog

variable {K : ConfigTypes}

/-! ## Answers -/

/-- What a call that looks up a name returns or throws. -/
inductive Answer (K : ConfigTypes)
  | object (name : String) (ptr : VarPtr K)
  | nullptr (name : String) (t : Option K.Ty)
  | invalidName (name : String)

instance [DecidableEq K.Ty] : DecidableEq (Answer K)
  | .object name ptr, .object name' ptr' => decidable_of_iff (name = name' ∧ ptr = ptr') (by simp)
  | .nullptr name t, .nullptr name' t' => decidable_of_iff (name = name' ∧ t = t') (by simp)
  | .invalidName name, .invalidName name' => decidable_of_iff (name = name') (by simp)
  | .object _ _, .nullptr _ _ | .object _ _, .invalidName _ => isFalse nofun
  | .nullptr _ _, .object _ _ | .nullptr _ _, .invalidName _ => isFalse nofun
  | .invalidName _, .object _ _ | .invalidName _, .nullptr _ _ => isFalse nofun

/-- The shared state, and the answers in the order they were given. -/
structure Asked (K : ConfigTypes) where
  shared : Shared K
  answers : List (Answer K)

namespace Asked

def init [DecidableEq K.Ty] (os : ℕ → Os) : Asked K where
  shared := Shared.init os
  answers := []

/-- A program of the library. -/
def call {α : Type} (p : ConfigProg K α) : Prog Lock (Asked K) α :=
  p.zoom Asked.shared fun s x => { s with shared := x }

/-- The answer is written down. -/
def answer : Option (Answer K) → Prog Lock (Asked K) Unit
  | some a => Prog.modify fun s => { s with answers := s.answers ++ [a] }
  | none => return ()

end Asked

/-- The answer of `Lookup<T>(name, default_value)`, unless the process has ended. -/
def Answer.ofLookup (t : Option K.Ty) (name : String) :
    Except Abort (Option ℕ) → Option (Answer K)
  | .ok (some n) => some (.object name (t, n))
  | .ok none => some (.nullptr name t)
  | .error (.exception _) => some (.invalidName name)
  | .error (.crash _) => none

section
variable [DecidableEq K.Ty] (Y : YamlCpp) (M : MessageTexts K)
  (toStr : ∀ t, K.El t → Except StdException String)

/-- An operation of the library. Where a name is looked up, the answer is written down. -/
def LibraryOp.asking : LibraryOp K → Prog Lock (Asked K) Unit
  | lookup t name default_value => do
      let r ← Asked.call (Locked.lookup Y M toStr t name default_value).run
      Asked.answer (Answer.ofLookup t name r)
  | find t name => do
      let r ← Asked.call (Locked.find t name)
      Asked.answer (r.map fun n => .object name (t, n))
  | lookupBase name => do
      let r ← Asked.call (Locked.lookupBase name)
      Asked.answer (r.map fun ptr => .object name ptr)
  | o => Asked.call (o.prog Y M toStr)

end

/-! ## What the threads agree on -/

namespace Shared

variable {s s' s'' : Shared K}

/-- What `Config::GetDatas()` has under the name. -/
def bound (s : Shared K) (name : String) : Option (VarPtr K) := (s.datas.find? name).map Prod.snd

/-- Each name is that of an object of its own. -/
structure Named (s : Shared K) : Prop where
  named : ∀ name ptr, s.bound name = some ptr →
    ∃ x, s.var ptr.1 ptr.2 = some x ∧ x.m_name = tolower name
  valid : ∀ name ptr, s.bound name = some ptr → findFirstNotOf name lookupChars = none
  apart : ∀ name name' ptr, s.bound name = some ptr → s.bound name' = some ptr → name = name'
  numbered : ∀ t n x, s.var t n = some x → n < s.nextVar

/-- The names bound stay bound to what they are. -/
def Keeps (s s' : Shared K) : Prop :=
  ∀ name ptr, s.bound name = some ptr → s'.bound name = some ptr

/-- No name is bound and no object constructed. -/
structure Calm (s s' : Shared K) : Prop where
  datas : s'.datas = s.datas
  nextVar : s'.nextVar = s.nextVar
  names : ∀ t n, (s'.var t n).map SharedVar.m_name = (s.var t n).map SharedVar.m_name

theorem Calm.refl (s : Shared K) : s.Calm s := ⟨rfl, rfl, fun _ _ => rfl⟩

theorem Calm.bound (h : s.Calm s') (name : String) : s'.bound name = s.bound name := by
  rw [Shared.bound, h.datas, Shared.bound]

theorem Calm.named (h : s.Calm s') (hs : s.Named) : s'.Named where
  named name ptr hb := by
    obtain ⟨x, hx, hname⟩ := hs.named name ptr (h.bound name ▸ hb)
    have hx' : (s'.var ptr.1 ptr.2).map SharedVar.m_name = some x.m_name := by
      rw [h.names, hx, Option.map_some]
    obtain ⟨x', hx', heq⟩ := Option.map_eq_some_iff.1 hx'
    exact ⟨x', hx', heq.trans hname⟩
  valid name ptr hb := hs.valid name ptr (h.bound name ▸ hb)
  apart name name' ptr hb hb' := hs.apart name name' ptr (h.bound name ▸ hb) (h.bound name' ▸ hb')
  numbered t n x hx := by
    have hmap : (s.var t n).map SharedVar.m_name = some x.m_name := by
      rw [← h.names, hx, Option.map_some]
    obtain ⟨y, hy, -⟩ := Option.map_eq_some_iff.1 hmap
    exact h.nextVar ▸ hs.numbered t n y hy

/-- What holds at all times: no names are lost, and the loggers are as their locks need them. -/
def Good (s : Shared K) : Prop := Rooted s.log ∧ s.Named

/-- The lock of the registry protects `Config::GetDatas()`. -/
def registryD (K : ConfigTypes) : Discipline Lock (Shared K) where
  guar s s' := s.Good → s'.Good ∧ s.Keeps s'
  same l s s' := l = .registry → s'.datas = s.datas
  inv _ _ := True
  guar_refl _ hs := ⟨hs, fun _ _ => id⟩
  guar_trans h h' hs :=
    ⟨(h' (h hs).1).1, fun name _ hb => (h' (h hs).1).2 name _ ((h hs).2 name _ hb)⟩
  same_refl _ _ _ := rfl
  same_trans h h' hl := (h' hl).trans (h hl)
  inv_same _ h := h

theorem Calm.guar (h : s.Calm s') (hroot : Rooted s'.log) : (registryD K).guar s s' :=
  fun hs => ⟨⟨hroot, h.named hs.2⟩, fun name _ hb => (h.bound name).trans hb⟩

end Shared

/-! ## Programs that bind no name -/

namespace Locked

open Shared

/-- All that is thrown is a crash. -/
def IsCrash : Abort → Prop
  | .crash _ => True
  | .exception _ => False

/-- The program binds no name, and constructs no object. -/
abbrev CalmProg {α : Type} (p : ConfigProg K α) : Prop := p.Accesses Calm fun _ => True

abbrev CalmProgT {α : Type} (E : Abort → Prop) (p : ConfigProgT K α) : Prop := AccessesT Calm E p

theorem calm_log (s : Shared K) (l : LogState) : s.Calm { s with log := l } :=
  ⟨rfl, rfl, fun _ _ => rfl⟩

theorem onLog_calm (p : LogProgT Unit) : CalmProgT IsCrash (onLog p : ConfigProgT K Unit) := by
  refine (accesses_zoom calm_log p.run).bind fun r _ => ?_
  cases r with
  | ok a => exact fun _ he => nomatch he
  | error d => exact fun e he => Except.error.inj he ▸ trivial

theorem logRoot_calm (level : Level) (event : String) :
    CalmProgT IsCrash (logRoot level event : ConfigProgT K Unit) :=
  accessesT_get_bind Calm.refl fun _ => onLog_calm _

theorem readVar_calm {α : Type} (t : Option K.Ty) (n : ℕ) (f : SharedVar K t → α) :
    CalmProg (readVar t n f) :=
  accesses_locked (accesses_get_bind Calm.refl fun _ => trivial)

theorem toString_calm (Y : YamlCpp) (M : MessageTexts K)
    (toStr : ∀ t, K.El t → Except StdException String) (t : Option K.Ty) (n : ℕ) :
    CalmProgT IsCrash (toString Y M toStr t n) := by
  refine (accessesT_lift (readVar_calm t n _)).bind fun text => ?_
  match text with
  | none => exact accessesT_pure ""
  | some (.ok s) => exact accessesT_pure s
  | some (.error e) => exact (logRoot_calm .error _).bind fun _ => accessesT_pure ""

/-- What else may be thrown is of no interest. -/
theorem CalmProgT.any {α : Type} {E : Abort → Prop} {p : ConfigProgT K α} (hp : CalmProgT E p) :
    CalmProgT (fun _ => True) p :=
  hp.mono fun _ _ => trivial

theorem call_calm {t : Option K.Ty} (cb : SharedListener K t) (a b : ValueOf K t) :
    CalmProgT (fun _ => True) (call cb a b) := by
  cases cb with
  | user cb => exact accessesT_ofExcept fun _ _ => trivial
  | onLoggerConfChanged => exact (onLog_calm _).any

mutual

/-- `ListAllMember` only logs. -/
theorem listAllMember_calm (Y : YamlCpp) (pfx : String) (node : Node)
    (output : List (String × Node)) :
    CalmProgT (fun _ => True) (listAllMember Y pfx node output : ConfigProgT K _) := by
  unfold listAllMember
  split
  · exact (logRoot_calm .error _).any.bind fun _ => accessesT_pure output
  · match node with
    | .map pairs => exact listPairs_calm Y pfx pairs _
    | .null | .scalar _ | .seq _ => exact accessesT_pure _

theorem listPairs_calm (Y : YamlCpp) (pfx : String) : ∀ (pairs output : List (String × Node)),
    CalmProgT (fun _ => True) (listPairs Y pfx pairs output : ConfigProgT K _)
  | [], output => accessesT_pure output
  | (key, node) :: pairs, output => by
      unfold listPairs
      exact (listAllMember_calm Y (joinName pfx key) node output).bind fun output =>
        listPairs_calm Y pfx pairs output

end

section
variable [DecidableEq K.Ty]

theorem calm_modifyVar (t : Option K.Ty) (n : ℕ) {f : SharedVar K t → SharedVar K t}
    (hf : ∀ x, (f x).m_name = x.m_name) (s : Shared K) : s.Calm (modifyVar t n f s) := by
  refine ⟨rfl, rfl, fun t' n' => ?_⟩
  unfold modifyVar
  by_cases ht : t' = t
  · subst ht
    by_cases hn : n' = n
    · subst hn
      simp only [Function.update_self, Option.map_map]
      congr 1
      funext x
      exact hf x
    · simp only [Function.update_self, Function.update_of_ne hn]
  · simp only [Function.update_of_ne ht]

theorem writeVar_calm (t : Option K.Ty) (n : ℕ) {f : SharedVar K t → SharedVar K t}
    (hf : ∀ x, (f x).m_name = x.m_name) : CalmProg (writeVar t n f) :=
  accesses_locked (accesses_access (calm_modifyVar t n hf) fun _ => trivial)

theorem setValue_calm (t : Option K.Ty) (n : ℕ) (v : ValueOf K t) :
    CalmProgT (fun _ => True) (setValue t n v) := by
  refine (accessesT_locked ?_).bind fun changed => ?_
  · refine accessesT_get_bind Calm.refl fun s => ?_
    cases s.var t n with
    | none => exact accessesT_pure false
    | some x =>
        dsimp only
        split
        · exact accessesT_pure false
        · have hcalls : ∀ (_ : Unit) (i : ℕ × SharedListener K t), CalmProgT (fun _ => True)
              (call i.2 x.m_val v) := fun _ i => call_calm i.2 x.m_val v
          exact (accessesT_foldlM hcalls _ ()).bind fun _ => accessesT_pure true
  · split
    · exact accessesT_lift (writeVar_calm t n fun _ => rfl)
    · exact accessesT_pure ()

theorem addListener_calm (t : Option K.Ty) (n : ℕ) (ocb : SharedListener K t) :
    CalmProg (addListener t n ocb) := by
  refine accesses_locked (accesses_access (fun s => ?_) fun _ => trivial)
  obtain ⟨hdatas, hnext, hnames⟩ := calm_modifyVar t n (f := fun x => { x with
    m_cbs := x.m_cbs.assign ((s.s_fun_id t + 1) % 2 ^ 64, ocb) }) (fun _ => rfl) s
  exact ⟨hdatas, hnext, hnames⟩

variable (Y : YamlCpp) (M : MessageTexts K)

theorem fromString_calm (t : Option K.Ty) (n : ℕ) (val : String) :
    CalmProgT (fun _ => True) (fromString Y M t n val) := by
  have hset : CalmProgT (fun _ => True) (do
      setValue t n (← Prog.ofExcept ((fromStr Y t val).mapError .exception)) :
        ConfigProgT K Unit) :=
    (accessesT_ofExcept fun _ _ => trivial).bind fun v => setValue_calm t n v
  refine Accesses.bind hset fun result _ => ?_
  match result with
  | .ok _ => exact fun _ _ => trivial
  | .error (.crash d) => exact fun _ _ => trivial
  | .error (.exception e) => exact (logRoot_calm .error _).any.bind fun _ => accessesT_pure false

omit [DecidableEq K.Ty] in
theorem lookupBase_calm (name : String) : CalmProg (lookupBase name : ConfigProg K _) :=
  accesses_locked (accesses_get_bind Calm.refl fun _ => trivial)

theorem find_calm (t : Option K.Ty) (name : String) : CalmProg (find t name) :=
  accesses_locked (accesses_get_bind Calm.refl fun _ => trivial)

theorem loadEntry_calm (i : String × Node) : CalmProgT (fun _ => True) (loadEntry Y M i) := by
  unfold loadEntry
  split
  · exact accessesT_pure ()
  · refine (accessesT_lift (lookupBase_calm _)).bind fun ptr => ?_
    cases ptr with
    | none => exact accessesT_pure ()
    | some ptr => exact (fromString_calm Y M ptr.1 ptr.2 _).bind fun _ => accessesT_pure ()

theorem loadFromYaml_calm (root : Node) : CalmProgT (fun _ => True) (loadFromYaml Y M root) :=
  (listAllMember_calm Y "" root []).bind fun all_nodes =>
    accessesT_foldlM (fun _ i => loadEntry_calm Y M i) all_nodes ()

end

/-! ## Lookups -/

/-- A program of this kind keeps what is true of the bindings. -/
theorem CalmProg.triple {α : Type} {Q : α → Prop} {r : Fin 7} {p : ConfigProg K α}
    (hp : p.Accesses Calm Q) (hord : InOrder r p) {h : List (Lock × LockMode)}
    (hh : ∀ e ∈ h, e.1.rank ≤ r) {P : Shared K → Prop}
    (hP : ∀ s s', s.Good ∧ P s → s'.Good → s.Keeps s' → P s') :
    Triple (registryD K) h (fun s => s.Good ∧ P s) p fun a s => Q a ∧ s.Good ∧ P s := by
  refine triple_of_ordered (hord h hh) hp (fun _ _ => trivial) (fun s hs => hs.1.1) ?_ ?_
  · exact fun s s' hs hguar => ⟨(hguar hs.1).1, hP s s' hs (hguar hs.1).1 (hguar hs.1).2⟩
  · exact fun s s' hs hcalm hroot => ⟨hcalm.guar hroot, fun _ _ => hcalm.datas⟩

end Locked

/-- What the answer says of the registry. -/
def Answer.Holds (s : Shared K) : Answer K → Prop
  | object name ptr => s.bound name = some ptr
  | nullptr name t => ∃ ptr, s.bound name = some ptr ∧ ptr.1 ≠ t
  | invalidName name => findFirstNotOf name lookupChars ≠ none

theorem Answer.Holds.keeps {s s' : Shared K} {a : Answer K} (h : a.Holds s) (hkeeps : s.Keeps s') :
    a.Holds s' := by
  cases a with
  | object name ptr => exact hkeeps name ptr h
  | nullptr name t =>
      obtain ⟨ptr, hb, ht⟩ := h
      exact ⟨ptr, hkeeps name ptr hb, ht⟩
  | invalidName name => exact h

namespace Locked

open Shared

variable [DecidableEq K.Ty] (Y : YamlCpp) (M : MessageTexts K)
  (toStr : ∀ t, K.El t → Except StdException String)

omit [DecidableEq K.Ty] in
theorem bound_assign (s : Shared K) (name : String) (ptr : VarPtr K) (name' : String) :
    ((s.datas.assign (name, ptr)).find? name').map Prod.snd =
      if name = name' then some ptr else s.bound name' := by
  rw [KeyedSet.find?_assign]
  split_ifs <;> rfl

/-- A new object gets a number of its own. -/
theorem register_good {s : Shared K} (hs : s.Good) {t : Option K.Ty} {name : String}
    (hnew : s.bound name = none) (hname : findFirstNotOf name lookupChars = none)
    {x : SharedVar K t} (hx : x.m_name = tolower name) {s' : Shared K} (hs' : s' = { s with
      var := Function.update s.var t (Function.update (s.var t) s.nextVar (some x))
      nextVar := s.nextVar + 1
      datas := s.datas.assign (name, (t, s.nextVar)) }) :
    s'.Good ∧ s.Keeps s' ∧ s'.bound name = some (t, s.nextVar) := by
  have hbound : ∀ name', s'.bound name' = if name = name' then some (t, s.nextVar) else
      s.bound name' := by
    subst hs'
    exact bound_assign s name (t, s.nextVar)
  have hself : s'.var t s.nextVar = some x := by
    subst hs'
    simp
  have hvar : ∀ t' n, n ≠ s.nextVar → s'.var t' n = s.var t' n := by
    subst hs'
    intro t' n hn
    by_cases ht : t' = t
    · subst ht
      simp [Function.update_of_ne hn]
    · simp [Function.update_of_ne ht]
  have hold : ∀ name' ptr, s.bound name' = some ptr → ptr.2 ≠ s.nextVar := by
    intro name' ptr hb
    obtain ⟨y, hy, -⟩ := hs.2.named name' ptr hb
    exact (hs.2.numbered _ _ y hy).ne
  refine ⟨⟨?_, ?_, ?_, ?_, ?_⟩, fun name' ptr hb => ?_, (hbound name).trans (if_pos rfl)⟩
  · subst hs'
    exact hs.1
  · intro name' ptr hb
    rw [hbound] at hb
    split_ifs at hb with h
    · obtain rfl := Option.some.inj hb
      exact ⟨x, hself, h ▸ hx⟩
    · obtain ⟨y, hy, hyname⟩ := hs.2.named name' ptr hb
      exact ⟨y, (hvar _ _ (hold name' ptr hb)).trans hy, hyname⟩
  · intro name' ptr hb
    rw [hbound] at hb
    split_ifs at hb with h
    · exact h ▸ hname
    · exact hs.2.valid name' ptr hb
  · intro name₁ name₂ ptr h₁ h₂
    rw [hbound] at h₁ h₂
    split_ifs at h₁ h₂ with hn₁ hn₂ hn₂
    · exact hn₁.symm.trans hn₂
    · exact absurd (congrArg Prod.snd (Option.some.inj h₁)).symm (hold name₂ ptr h₂)
    · exact absurd (congrArg Prod.snd (Option.some.inj h₂)).symm (hold name₁ ptr h₁)
    · exact hs.2.apart name₁ name₂ ptr h₁ h₂
  · intro t' n y hy
    have hnext : s'.nextVar = s.nextVar + 1 := by rw [hs']
    rw [hnext]
    by_cases hn : n = s.nextVar
    · exact hn ▸ Nat.lt_succ_self n
    · rw [hvar t' n hn] at hy
      exact (hs.2.numbered t' n y hy).trans (Nat.lt_succ_self _)
  · rw [hbound, if_neg]
    · exact hb
    · rintro rfl
      exact absurd (hnew.symm.trans hb) nofun

omit [DecidableEq K.Ty] in
/-- A message is logged, which says nothing of the bindings. -/
theorem logRoot_triple {h : List (Lock × LockMode)} (hh : ∀ e ∈ h, e.1.rank ≤ 3) (level : Level)
    (event : String) {P : Shared K → Prop}
    (hP : ∀ s s', s.Good ∧ P s → s'.Good → s.Keeps s' → P s') :
    Triple (registryD K) h (fun s => s.Good ∧ P s) (logRoot level event : ConfigProgT K Unit).run
      fun x s => (∀ e, x = .error e → IsCrash e) ∧ s.Good ∧ P s :=
  CalmProg.triple (logRoot_calm level event) (logRoot_inOrder le_rfl level event) hh hP

omit [DecidableEq K.Ty] in
/-- A crash is no answer. -/
theorem ofLookup_crash {t : Option K.Ty} {name : String} {e : Abort} (he : IsCrash e) :
    Answer.ofLookup t name (.error e) = none := by
  cases e with
  | crash d => rfl
  | exception e => exact he.elim

omit [DecidableEq K.Ty] in
theorem stable_bound (h : List (Lock × LockMode)) (name : String) (ptr : VarPtr K) :
    (registryD K).Stable h fun s => s.Good ∧ s.bound name = some ptr :=
  fun _ _ hs henv => ⟨(henv.1 hs.1).1, (henv.1 hs.1).2 name ptr hs.2⟩

/-- The lock has been held since the name was not found. -/
theorem register_triple {s : Shared K} (hs : s.Good) {t : Option K.Ty} {name : String}
    (hnew : s.bound name = none) (hname : findFirstNotOf name lookupChars = none)
    (default_value : ValueOf K t) :
    Triple (registryD K) [(.registry, .exclusive)]
      ((registryD K).Env [(.registry, .exclusive)] s) (register t name default_value)
      fun n s => s.Good ∧ s.bound name = some (t, n) := by
  refine triple_access (R := fun s s' => s'.Good ∧ s'.bound name = some (t, s.nextVar))
    (fun s₁ s₂ h₁ h₂ => ?_) fun s₁ => triple_pure fun s₂ s₃ => stable_bound _ name _ s₂ s₃
  have henv := h₁.trans h₂
  have hdatas : s₂.datas = s.datas := henv.2 _ (List.mem_singleton_self _) rfl
  have hnew₂ : s₂.bound name = none := by rw [bound, hdatas]; exact hnew
  obtain ⟨hgood, hkeeps, hbound⟩ := register_good (henv.1 hs).1 hnew₂ hname
    (x := { m_name := tolower name, m_val := default_value, m_cbs := ∅ }) rfl rfl
  refine ⟨fun _ => ⟨hgood, hkeeps⟩, fun l hl hreg => ?_, hgood, hbound⟩
  exact absurd (hreg ▸ List.mem_singleton_self _) hl

omit [DecidableEq K.Ty] in
theorem stable_good (h : List (Lock × LockMode)) : (registryD K).Stable h Good :=
  fun _ _ hs henv => (henv.1 hs).1

/-- All answers of the result are right. -/
def RightLookup (t : Option K.Ty) (name : String) (r : Except Abort (Option ℕ)) (s : Shared K) :
    Prop :=
  s.Good ∧ ∀ a ∈ Answer.ofLookup t name r, a.Holds s

section
variable {t : Option K.Ty} {name : String} {h : List (Lock × LockMode)}

omit [DecidableEq K.Ty] in
theorem stable_rightLookup (r : Except Abort (Option ℕ)) :
    (registryD K).Stable h (RightLookup t name r) :=
  fun _ _ hs henv => ⟨(henv.1 hs.1).1, fun a ha => (hs.2 a ha).keeps (henv.1 hs.1).2⟩

omit [DecidableEq K.Ty] in
/-- A branch that ends with an answer. -/
theorem answer_triple {r : Except Abort (Option ℕ)} {a : Answer K} {P : Shared K → Prop}
    (hr : Answer.ofLookup t name r = some a)
    (hP : ∀ s s', P s → (registryD K).Env h s s' → s'.Good ∧ a.Holds s') :
    Triple (registryD K) h P (Pure.pure r : ConfigProg K _) (RightLookup t name) := by
  refine triple_pure fun s s' hs henv => ⟨(hP s s' hs henv).1, fun a' ha' => ?_⟩
  rw [hr] at ha'
  exact Option.mem_some_iff.1 ha' ▸ (hP s s' hs henv).2

omit [DecidableEq K.Ty] in
/-- A branch that ends with a crash. -/
theorem rightLookup_crash {β : Type} {P : Shared K → Prop} (e : Abort) (s s' : Shared K)
    (hs : (∀ e', (.error e : Except Abort β) = .error e' → IsCrash e') ∧ s.Good ∧ P s)
    (henv : (registryD K).Env h s s') : RightLookup t name (.error e) s' := by
  refine ⟨(henv.1 hs.2.1).1, fun a ha => ?_⟩
  rw [ofLookup_crash (hs.1 e rfl)] at ha
  exact absurd ha nofun

end

/-- `Config::Lookup` answers for good. -/
theorem lookup_triple (t : Option K.Ty) (name : String) (default_value : ValueOf K t) :
    Triple (registryD K) [] Good (lookup Y M toStr t name default_value).run
      (RightLookup t name) := by
  have hranks : ∀ e ∈ [(Lock.registry, LockMode.exclusive)], e.1.rank ≤ Lock.registry.rank := by
    simp
  have hranks3 : ∀ e ∈ [(Lock.registry, LockMode.exclusive)], e.1.rank ≤ 3 :=
    fun e he => (hranks e he).trans (by decide)
  refine triple_locked (stable_good []) (fun r => stable_rightLookup r) ?_
  refine Triple.conseq (P := Good) (Q := RightLookup t name) ?_ (fun s => And.left)
    fun r s hs => ⟨fun _ => trivial, hs⟩
  refine triple_get_bindT (stable_good _) fun s hs => ?_
  cases hfind : s.datas.find? name with
  | none =>
      have hnew : s.bound name = none := by rw [bound, hfind]; rfl
      dsimp only
      split
      · next hname =>
        have hlog := logRoot_triple hranks3 .error ("Lookup name invalid " ++ name)
          (P := fun _ : Shared K => True) fun _ _ _ _ _ => trivial
        refine (hlog.conseq (fun s' henv => ⟨(henv.1 hs).1, trivial⟩) fun _ _ => id).bindT
          (fun _ => ?_) rightLookup_crash
        exact answer_triple rfl fun s₁ s₂ h₁ h₂ => ⟨(h₂.1 h₁.2.1).1, hname⟩
      · next hname =>
        refine triple_lift_bindT (fun n => stable_bound _ name (t, n))
          (register_triple hs hnew (not_not.1 hname) default_value) fun n => ?_
        exact answer_triple rfl fun s₁ s₂ h₁ h₂ => stable_bound _ name (t, n) s₁ s₂ h₁ h₂
  | some it =>
      have hkeep : ∀ s₁ s₂ : Shared K, s₁.Good ∧ s₁.bound name = some it.2 → s₂.Good →
          s₁.Keeps s₂ → s₂.bound name = some it.2 :=
        fun s₁ s₂ h₁ _ hkeeps => hkeeps name it.2 h₁.2
      have hstart : ∀ s', (registryD K).Env [(.registry, .exclusive)] s s' →
          s'.Good ∧ s'.bound name = some it.2 := fun s' henv =>
        stable_bound _ name it.2 s s' ⟨hs, by rw [bound, hfind]; rfl⟩ henv
      dsimp only
      split
      · next ht =>
        have hlog := logRoot_triple hranks3 .info ("Lookup name=" ++ name ++ " exists") hkeep
        refine (hlog.conseq hstart fun _ _ => id).bindT (fun _ => ?_) rightLookup_crash
        refine answer_triple rfl fun s₁ s₂ h₁ h₂ => ?_
        obtain ⟨hgood₂, hbound₂⟩ := stable_bound _ name it.2 s₁ s₂ h₁.2 h₂
        exact ⟨hgood₂, ht ▸ hbound₂⟩
      · next ht =>
        have hnull : ∀ s₁ s₂ : Shared K, s₁.Good ∧ s₁.bound name = some it.2 →
            (registryD K).Env [(.registry, .exclusive)] s₁ s₂ →
              s₂.Good ∧ (Answer.nullptr name t).Holds s₂ := fun s₁ s₂ h₁ h₂ =>
          have hbound₂ := stable_bound _ name it.2 s₁ s₂ h₁ h₂
          ⟨hbound₂.1, it.2, hbound₂.2, ht⟩
        split
        · have htext := CalmProg.triple (toString_calm Y M toStr it.2.1 it.2.2)
            (toString_inOrder Y M toStr (by decide) it.2.1 it.2.2) hranks hkeep
          refine (htext.conseq hstart fun _ _ => id).bindT (fun real => ?_) rightLookup_crash
          have hlog (event : String) := CalmProg.triple
            (onLog_calm (K := K) (log s.log.m_root .error event))
            (onLog_inOrder (log_after (by decide) _ _ _)) hranks hkeep
          refine ((hlog _).conseq (fun _ h₁ => h₁.2) fun _ _ => id).bindT (fun _ => ?_)
            rightLookup_crash
          exact answer_triple rfl fun s₁ s₂ h₁ => hnull s₁ s₂ h₁.2
        · exact answer_triple rfl fun s₁ s₂ h₁ => hnull s₁ s₂ (hstart s₁ h₁)

omit [DecidableEq K.Ty] in
theorem lookupBase_triple (name : String) :
    Triple (registryD K) [] Good (lookupBase name) fun r s =>
      s.Good ∧ ∀ a ∈ r.map (Answer.object name), a.Holds s := by
  have hstable : ∀ (h : List (Lock × LockMode)) (r : Option (VarPtr K)), (registryD K).Stable h
      fun s => s.Good ∧ ∀ a ∈ r.map (Answer.object name), a.Holds s :=
    fun h r s s' hs henv => ⟨(henv.1 hs.1).1, fun a ha => (hs.2 a ha).keeps (henv.1 hs.1).2⟩
  refine triple_locked (stable_good []) (hstable []) ?_
  refine Triple.conseq (P := Good) ?_ (fun s => And.left) fun r s hs => ⟨fun _ => trivial, hs⟩
  refine triple_get_bind (stable_good _) fun s hs => ?_
  refine triple_pure fun s₁ s₂ h₁ h₂ => hstable _ _ s s₂ ⟨hs, fun a ha => ?_⟩ (h₁.trans h₂)
  obtain ⟨ptr, hptr, rfl⟩ := Option.mem_map.1 ha
  exact hptr

theorem find_triple (t : Option K.Ty) (name : String) :
    Triple (registryD K) [] Good (find t name) fun r s =>
      s.Good ∧ ∀ a ∈ r.map fun n => Answer.object name (t, n), a.Holds s := by
  have hstable : ∀ (h : List (Lock × LockMode)) (r : Option ℕ), (registryD K).Stable h
      fun s => s.Good ∧ ∀ a ∈ r.map fun n => Answer.object name (t, n), a.Holds s :=
    fun h r s s' hs henv => ⟨(henv.1 hs.1).1, fun a ha => (hs.2 a ha).keeps (henv.1 hs.1).2⟩
  refine triple_locked (stable_good []) (hstable []) ?_
  refine Triple.conseq (P := Good) ?_ (fun s => And.left) fun r s hs => ⟨fun _ => trivial, hs⟩
  refine triple_get_bind (stable_good _) fun s hs => ?_
  refine triple_pure fun s₁ s₂ h₁ h₂ => hstable _ _ s s₂ ⟨hs, fun a ha => ?_⟩ (h₁.trans h₂)
  obtain ⟨n, hn, rfl⟩ := Option.mem_map.1 ha
  obtain ⟨it, hit, hcast⟩ := Option.bind_eq_some_iff.1 hn
  split_ifs at hcast with ht
  obtain rfl := Option.some.inj hcast
  show (s.datas.find? name).map Prod.snd = some (t, it.2.2)
  rw [hit, ← ht]
  rfl

end Locked

/-- The operations that answer nothing bind no name. -/
theorem LibraryOp.prog_calm [DecidableEq K.Ty] (Y : YamlCpp) (M : MessageTexts K)
    (toStr : ∀ t, K.El t → Except StdException String) {o : LibraryOp K}
    (ho : ∀ t name default_value, o ≠ .lookup t name default_value) :
    Locked.CalmProg (o.prog Y M toStr) := by
  cases o with
  | onLog o => exact accesses_zoom Locked.calm_log _
  | lookup t name default_value => exact absurd rfl (ho t name default_value)
  | find t name => exact (Locked.find_calm t name).dropped
  | lookupBase name => exact (Locked.lookupBase_calm name).dropped
  | loadFromYaml root => exact (Locked.loadFromYaml_calm Y M root).dropped
  | getValue t n => exact (Locked.readVar_calm t n _).dropped
  | setValue t n v => exact (Locked.setValue_calm t n v).dropped
  | fromString t n val => exact (Locked.fromString_calm Y M t n val).dropped
  | toString t n => exact (Locked.toString_calm Y M toStr t n).dropped
  | addListener t n ocb => exact (Locked.addListener_calm t n _).dropped
  | delListener t n key => exact Locked.writeVar_calm t n fun _ => rfl
  | clearListener t n => exact Locked.writeVar_calm t n fun _ => rfl
  | getListener t n key => exact (Locked.readVar_calm t n _).dropped

/-! ## Runs -/

namespace Asked

/-- All answers given are right. -/
def Right (s : Asked K) : Prop := s.shared.Good ∧ ∀ a ∈ s.answers, a.Holds s.shared

def askedD (K : ConfigTypes) : Discipline Lock (Asked K) where
  guar s s' := (Shared.registryD K).guar s.shared s'.shared ∧ (s.Right → s'.Right)
  same l s s' := (Shared.registryD K).same l s.shared s'.shared
  inv _ _ := True
  guar_refl s := ⟨(Shared.registryD K).guar_refl s.shared, id⟩
  guar_trans h h' := ⟨(Shared.registryD K).guar_trans h.1 h'.1, h'.2 ∘ h.2⟩
  same_refl l s := (Shared.registryD K).same_refl l s.shared
  same_trans h h' := (Shared.registryD K).same_trans h h'
  inv_same _ h := h

theorem call_triple {α : Type} {h : List (Lock × LockMode)} {P : Shared K → Prop}
    {Q : α → Shared K → Prop} {p : ConfigProg K α} (hp : Triple (Shared.registryD K) h P p Q) :
    Triple (askedD K) h (fun s => P s.shared) (call p) fun a s => Q a s.shared := by
  have henv : ∀ {h : List (Lock × LockMode)} {s s' : Asked K}, (askedD K).Env h s s' →
      (Shared.registryD K).Env h s.shared s'.shared := fun henv => ⟨henv.1.1, henv.2⟩
  have hguar : ∀ {s : Asked K} {x : Shared K}, (Shared.registryD K).guar s.shared x →
      (askedD K).guar s { s with shared := x } := fun hguar =>
    ⟨hguar, fun hs => ⟨(hguar hs.1).1, fun a ha => (hs.2 a ha).keeps (hguar hs.1).2⟩⟩
  exact hp.part (fun _ _ => rfl) henv Iff.rfl hguar id

theorem answer_triple (r : Option (Answer K)) :
    Triple (askedD K) [] (fun s => s.shared.Good ∧ ∀ a ∈ r, a.Holds s.shared) (answer r)
      fun _ s => s.shared.Good := by
  cases r with
  | none => exact triple_pure fun s s' hs henv => (henv.1.1 hs.1).1
  | some a =>
      refine triple_modify fun s s' hs henv => ?_
      have hgood := henv.1.1 hs.1
      refine ⟨⟨fun h => ⟨h, fun _ _ => id⟩, fun hright => ⟨hright.1, fun a' ha' => ?_⟩⟩,
        fun _ _ _ => rfl, fun s'' henv' => (henv'.1.1 hgood.1).1⟩
      rcases List.mem_append.1 ha' with ha' | ha'
      · exact hright.2 a' ha'
      · obtain rfl := List.mem_singleton.1 ha'
        exact (hs.2 a' rfl).keeps hgood.2

section
variable [DecidableEq K.Ty] (Y : YamlCpp) (M : MessageTexts K)
  (toStr : ∀ t, K.El t → Except StdException String)

theorem asking_triple (o : LibraryOp K) :
    Triple (askedD K) [] (fun s => s.shared.Good) (o.asking Y M toStr)
      fun _ s => s.shared.Good := by
  have hcall : (∀ t name default_value, o ≠ .lookup t name default_value) →
      Triple (askedD K) [] (fun s => s.shared.Good) (call (o.prog Y M toStr))
        fun _ s => s.shared.Good := by
    intro ho
    have hp := Locked.CalmProg.triple (P := fun _ => True) (o.prog_calm Y M toStr ho)
      (o.prog_inOrder Y M toStr) (fun e he => absurd he List.not_mem_nil) fun _ _ _ _ _ => trivial
    exact (call_triple hp).conseq (fun s hs => ⟨hs, trivial⟩) fun _ s hs => hs.2.1
  cases o with
  | lookup t name default_value =>
      exact (call_triple (Locked.lookup_triple Y M toStr t name default_value)).bind
        fun r => answer_triple _
  | find t name => exact (call_triple (Locked.find_triple t name)).bind fun r => answer_triple _
  | lookupBase name =>
      exact (call_triple (Locked.lookupBase_triple name)).bind fun r => answer_triple _
  | _ => exact hcall nofun

/-- What all answers together say. -/
structure Agree (s : Asked K) : Prop where
  /-- A name is answered with one object. -/
  one_object : ∀ name ptr ptr', .object name ptr ∈ s.answers → .object name ptr' ∈ s.answers →
    ptr = ptr'
  /-- An object is the answer for one name. -/
  one_name : ∀ name name' ptr, .object name ptr ∈ s.answers → .object name' ptr ∈ s.answers →
    name = name'
  named : ∀ name ptr, .object name ptr ∈ s.answers →
    ∃ x, s.shared.var ptr.1 ptr.2 = some x ∧ x.m_name = name
  /-- A null pointer means an object of another type. -/
  other_type : ∀ name t, .nullptr name t ∈ s.answers →
    (∃ ptr, s.shared.bound name = some ptr) ∧ ∀ ptr, .object name ptr ∈ s.answers → ptr.1 ≠ t
  /-- An exception means a name that no object gets. -/
  invalid : ∀ name, .invalidName name ∈ s.answers →
    findFirstNotOf name lookupChars ≠ none ∧ ∀ ptr, .object name ptr ∉ s.answers

omit [DecidableEq K.Ty] in
theorem Right.agree {s : Asked K} (h : s.Right) : s.Agree where
  one_object name ptr ptr' hptr hptr' :=
    Option.some.inj ((h.2 _ hptr).symm.trans (h.2 _ hptr'))
  one_name name name' ptr hname hname' := h.1.2.apart name name' ptr (h.2 _ hname) (h.2 _ hname')
  named name ptr hptr := by
    obtain ⟨x, hx, hname⟩ := h.1.2.named name ptr (h.2 _ hptr)
    exact ⟨x, hx, hname.trans (tolower_of_lookupChars (h.1.2.valid name ptr (h.2 _ hptr)))⟩
  other_type name t hnull := by
    obtain ⟨ptr, hb, ht⟩ := h.2 _ hnull
    refine ⟨⟨ptr, hb⟩, fun ptr' hptr' => ?_⟩
    rwa [← Option.some.inj (hb.symm.trans (h.2 _ hptr'))]
  invalid name hinvalid :=
    ⟨h.2 _ hinvalid, fun ptr hptr => h.2 _ hinvalid (h.1.2.valid name ptr (h.2 _ hptr))⟩

theorem init_right (os : ℕ → Os) : (init os : Asked K).Right := by
  have hbound : ∀ name, (Shared.init os : Shared K).bound name =
      if "logs" = name then some (none, 0) else none := fun name => by
    refine (Locked.bound_assign { (Shared.init os : Shared K) with datas := ∅ } "logs" (none, 0)
      name).trans ?_
    rfl
  have honly : ∀ name ptr, (Shared.init os : Shared K).bound name = some ptr →
      "logs" = name ∧ (none, 0) = ptr := by
    intro name ptr hb
    rw [hbound] at hb
    split_ifs at hb with h
    exact ⟨h, Option.some.inj hb⟩
  refine ⟨⟨Rooted.new os, ?_, ?_, ?_, ?_⟩, fun a ha => absurd ha List.not_mem_nil⟩
  · intro name ptr hb
    obtain ⟨rfl, rfl⟩ := honly name ptr hb
    exact ⟨_, rfl, show "logs" = tolower "logs" by decide⟩
  · intro name ptr hb
    obtain ⟨rfl, -⟩ := honly name ptr hb
    decide
  · intro name name' ptr hb hb'
    exact (honly name ptr hb).1.symm.trans (honly name' ptr hb').1
  · intro t n x hx
    by_cases ht : t = none
    · subst ht
      by_cases hn : n = 0
      · exact hn ▸ Nat.zero_lt_one
      · have hnone : (Shared.init os : Shared K).var none n = none := by simp [Shared.init, hn]
        exact absurd (hnone.symm.trans hx) nofun
    · have hnone : (Shared.init os : Shared K).var t n = none := by simp [Shared.init, ht]
      exact absurd (hnone.symm.trans hx) nofun

/-- **Lookups agree.** However many threads look names up, load documents, set variables, register
listeners and log, and however they interleave, all answers that calls of `Lookup` and `LookupBase`
have ever given agree. -/
theorem lookups_agree {θ : Type} [DecidableEq θ] (os : ℕ → Os) {c : Pool θ Lock (Asked K)}
    (hc : Pool.Reachable (Set.range (LibraryOp.asking Y M toStr)) (Pool.idle (init os)) c) :
    c.shared.Agree := by
  have hright : (init os : Asked K).Right := init_right os
  have hobeying : c.Obeying (askedD K) (init os) := by
    refine Pool.obeying ?_ (fun _ => trivial) hc
    rintro _ ⟨o, rfl⟩ s hs
    exact (asking_triple Y M toStr o s (hs.1 hright.1).1).mono fun _ _ _ hq => hq.1
  exact (hobeying.guar.2 hright).agree

end

/-- Two threads ask for a variable: the first one constructs it, and the second one has to wait,
    takes it for one of another type, then misspells its name. -/
def sampleMoves : List (Pool.Move Bool (LibraryOp textTypes)) := [
  .start false (.lookup (some ()) "port" "80"), .steps false 3,
  .start true (.lookup none "port" (∅ : LogDefineSet)), .steps true 3]

def sampleRest : List (Pool.Move Bool (LibraryOp textTypes)) := [
  .steps false 20, .steps true 60, .start true (.lookup (some ()) "Port" "8080"), .steps true 40,
  .start false (.find (some ()) "port"), .steps false 20]

/-- The threads of the sample, after some moves. -/
noncomputable def samplePool (moves : List (Pool.Move Bool (LibraryOp textTypes))) :
    Pool Bool Lock (Asked textTypes) :=
  Pool.follow (LibraryOp.asking (YamlCpp.flow .null "")
    { what := fun _ => "", typeName := fun _ => "" } fun _ => .ok) moves
    (Pool.idle (init fun _ => ⟨1, true, true⟩))

theorem lookups_agree_sample :
    (samplePool sampleMoves).WaitsFor true false ∧
      (samplePool (sampleMoves ++ sampleRest)).shared.answers =
        [.object "port" (some (), 1), .nullptr "port" none, .invalidName "Port",
          .object "port" (some (), 1)] ∧
      (samplePool (sampleMoves ++ sampleRest)).shared.Agree :=
  ⟨by decide +kernel, by decide +kernel, lookups_agree _ _ _ _ (Pool.reachable_follow _ _ _)⟩

end Asked

end Ipmsg
