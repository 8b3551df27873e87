import Ipmsg.Config.Lookup
import Ipmsg.Lib.Run

set_option autoImplicit false

/-! # Which object a name means

`Config` hands out `shared_ptr`s: what a name means is an object, and its value changes behind the
pointer. Here the objects constructed so far are a list, a pointer is an index into it, and
`Config::GetDatas()` maps names to pointers. A `Lookup` that finds its name touches nothing, and one
that does not adds an object; so a name keeps its object, and the object its type. -/

namespace Ipmsg

/-! ## Objects -/

/-- A `ConfigVarBase::ptr`. -/
abbrev ConfigPtr := ℕ

structure ConfigObject (K : ConfigTypes) where
  var : ConfigVarBase K
  m_description : String

/-- The variables constructed so far and `Config::GetDatas()`. -/
structure ConfigStore (K : ConfigTypes) where
  objects : List (ConfigObject K)
  datas : OrdMap String ConfigPtr

namespace ConfigStore

variable {K : ConfigTypes}

def empty : ConfigStore K := { objects := [], datas := ∅ }

def object (s : ConfigStore K) (p : ConfigPtr) : Option (ConfigObject K) := s.objects[p]?

/-- `Config::LookupBase`. -/
def lookupBase (s : ConfigStore K) (name : String) : Option ConfigPtr :=
  (s.datas.find? name).map Prod.snd

/-- A member function of the variable is called. -/
def modify (s : ConfigStore K) (p : ConfigPtr) (f : ConfigVarBase K → ConfigVarBase K) :
    ConfigStore K :=
  { s with objects := s.objects.modify p fun o => { o with var := f o.var } }

section
variable [DecidableEq K.Ty]

/-- `std::dynamic_pointer_cast<ConfigVar<T>>`. -/
def dynamicCast (s : ConfigStore K) (t : K.Ty) (p : ConfigPtr) : Option ConfigPtr :=
  match s.object p with
  | some o => if o.var.1 = t then some p else none
  | none => none

/-- `Config::Lookup<T>(name, default_value, description)`. -/
def lookup (s : ConfigStore K) (t : K.Ty) (name : String) (default_value : K.El t)
    (description : String) : Except StdException (Option ConfigPtr) × ConfigStore K :=
  match s.datas.find? name with
  | some it => (.ok (s.dynamicCast t it.2), s)
  | none =>
      if findFirstNotOf name lookupChars ≠ none then (.error (.invalidArgument name), s)
      else
        let v := s.objects.length
        (.ok (some v),
          { objects := s.objects ++ [⟨⟨t, ConfigVar.new name default_value⟩, description⟩]
            datas := s.datas.assign (name, v) })

/-- `Config::Lookup<T>(name)`. -/
def find (s : ConfigStore K) (t : K.Ty) (name : String) : Option ConfigPtr :=
  match s.datas.find? name with
  | none => none
  | some it => s.dynamicCast t it.2

/-- `setValue`, called on a variable of type `t`. -/
def setValue (s : ConfigStore K) (p : ConfigPtr) (t : K.Ty) (v : K.El t) : ConfigStore K :=
  s.modify p fun x =>
    if h : x.1 = t then
      letI := K.beq x.1
      ⟨x.1, (x.2.setValue (h ▸ v)).1⟩
    else x

end

section
variable (Y : YamlCpp)

/-- One round of the loop over the listed nodes. -/
def loadEntry (s : ConfigStore K) (i : String × Node) : ConfigStore K :=
  if i.1 = "" then s
  else
    let key := tolower i.1
    match s.lookupBase key with
    | none => s
    | some var => s.modify var fun x => (x.fromString (nodeText Y i.2)).1

/-- `Config::LoadFromYaml`. -/
def loadFromYaml (s : ConfigStore K) (root : Node) : ConfigStore K :=
  (listAllMember "" root []).foldl (loadEntry Y) s

end

end ConfigStore

/-! ## Calls -/

inductive ConfigOp (K : ConfigTypes)
  /-- `Lookup<T>` with a default. -/
  | lookup (t : K.Ty) (name : String) (default_value : K.El t) (description : String)
  /-- `Lookup<T>` without one. -/
  | find (t : K.Ty) (name : String)
  | lookupBase (name : String)
  | loadFromYaml (root : Node)
  /-- Code that has the pointer sets the value. -/
  | setValue (p : ConfigPtr) (t : K.Ty) (v : K.El t)

namespace ConfigStore

variable {K : ConfigTypes}

/-- The objects and the registry after a call, which may have thrown. -/
def step [DecidableEq K.Ty] (Y : YamlCpp) (s : ConfigStore K) : ConfigOp K → Option (ConfigStore K)
  | .lookup t name default_value description => some (s.lookup t name default_value description).2
  | .find _ _ => some s
  | .lookupBase _ => some s
  | .loadFromYaml root => some (s.loadFromYaml Y root)
  | .setValue p t v => some (s.setValue p t v)

/-! ## What every call keeps -/

/-- The objects of `s` keep their types, names and descriptions in `t`, and its names their objects.
-/
structure Keeps (s t : ConfigStore K) : Prop where
  bound : ∀ name p, s.lookupBase name = some p → t.lookupBase name = some p
  object : ∀ p o, s.object p = some o → ∃ x : ConfigVar (K.El o.var.1),
    t.object p = some ⟨⟨o.var.1, x⟩, o.m_description⟩ ∧ x.m_name = o.var.2.m_name

/-- A name is bound to an object of that name. -/
def Named (s : ConfigStore K) : Prop :=
  ∀ name p, s.lookupBase name = some p → ∃ o, s.object p = some o ∧ o.var.getName = name

theorem Named.empty : Named (empty : ConfigStore K) :=
  fun _ _ h => absurd h (by simp [lookupBase, ConfigStore.empty, KeyedSet.find?])

variable {Y : YamlCpp} {s t u : ConfigStore K}

theorem Keeps.refl (s : ConfigStore K) : Keeps s s :=
  ⟨fun _ _ h => h, fun _ o h => ⟨o.var.2, h, rfl⟩⟩

theorem Keeps.trans (h : Keeps s t) (h' : Keeps t u) : Keeps s u := by
  refine ⟨fun name p hp => h'.bound name p (h.bound name p hp), fun p o ho => ?_⟩
  obtain ⟨x, hx, hname⟩ := h.object p o ho
  obtain ⟨y, hy, hname'⟩ := h'.object p _ hx
  exact ⟨y, hy, hname'.trans hname⟩

/-- A member function that keeps type and name. -/
theorem Keeps.modify (s : ConfigStore K) (p : ConfigPtr) {f : ConfigVarBase K → ConfigVarBase K}
    (hf : ∀ v, ∃ x : ConfigVar (K.El v.1), f v = ⟨v.1, x⟩ ∧ x.m_name = v.2.m_name) :
    Keeps s (s.modify p f) := by
  refine ⟨fun _ _ h => h, fun q o ho => ?_⟩
  have ho : s.objects[q]? = some o := ho
  by_cases hqp : p = q
  · subst hqp
    obtain ⟨x, hx, hname⟩ := hf o.var
    refine ⟨x, ?_, hname⟩
    show (s.objects.modify p _)[p]? = _
    rw [List.getElem?_modify_eq, ho, ← hx]
    rfl
  · refine ⟨o.var.2, ?_, rfl⟩
    show (s.objects.modify p _)[q]? = _
    rw [List.getElem?_modify_ne _ _ hqp]
    exact ho

theorem Keeps.loadEntry (s : ConfigStore K) (i : String × Node) :
    Keeps s (s.loadEntry Y i) ∧ (s.loadEntry Y i).datas = s.datas := by
  unfold ConfigStore.loadEntry
  split_ifs
  · exact ⟨Keeps.refl s, rfl⟩
  · dsimp only
    split
    · exact ⟨Keeps.refl s, rfl⟩
    · refine ⟨Keeps.modify s _ fun v => ?_, rfl⟩
      obtain ⟨x, hx, hname, -⟩ := v.fromString_keeps (nodeText Y i.2)
      exact ⟨x, hx, hname⟩

/-- Loading a document binds no name. -/
theorem Keeps.loadFromYaml (s : ConfigStore K) (root : Node) :
    Keeps s (s.loadFromYaml Y root) ∧ (s.loadFromYaml Y root).datas = s.datas := by
  unfold ConfigStore.loadFromYaml
  induction listAllMember "" root [] generalizing s with
  | nil => exact ⟨Keeps.refl s, rfl⟩
  | cons i members ih =>
      obtain ⟨hkeeps, hdatas⟩ := Keeps.loadEntry (Y := Y) s i
      obtain ⟨hkeeps', hdatas'⟩ := ih (s.loadEntry Y i)
      exact ⟨hkeeps.trans hkeeps', hdatas'.trans hdatas⟩

theorem Keeps.setValue [DecidableEq K.Ty] (s : ConfigStore K) (p : ConfigPtr) (t : K.Ty)
    (v : K.El t) :
    Keeps s (s.setValue p t v) := by
  refine Keeps.modify s p fun x => ?_
  split
  · next h =>
      let _ := K.beq x.1
      exact ⟨_, rfl, (x.2.setValue_keeps (h ▸ v)).1⟩
  · exact ⟨x.2, rfl, rfl⟩

/-! ## A new object -/

/-- The registry with a new variable. -/
def add (s : ConfigStore K) (t : K.Ty) (name : String) (default_value : K.El t)
    (description : String) : ConfigStore K :=
  { objects := s.objects ++ [⟨⟨t, ConfigVar.new name default_value⟩, description⟩]
    datas := s.datas.assign (name, s.objects.length) }

theorem object_length : s.object s.objects.length = none := List.getElem?_eq_none (Nat.le_refl _)

section
variable (t : K.Ty) (name : String) (default_value : K.El t) (description : String)

theorem add_lookupBase (name' : String) :
    (s.add t name default_value description).lookupBase name' =
      if name = name' then some s.objects.length else s.lookupBase name' := by
  simp only [add, lookupBase, KeyedSet.find?_assign]
  split_ifs <;> rfl

theorem add_object_self : (s.add t name default_value description).object s.objects.length =
    some ⟨⟨t, ConfigVar.new name default_value⟩, description⟩ := by
  simp [add, object]

theorem add_object_of_ne {p : ConfigPtr} (hp : p ≠ s.objects.length) :
    (s.add t name default_value description).object p = s.object p := by
  show (s.objects ++ [_])[p]? = s.objects[p]?
  rw [getElem?_concat, if_neg hp]

variable {name} in
theorem Keeps.add (hnew : s.lookupBase name = none) :
    Keeps s (s.add t name default_value description) := by
  refine ⟨fun name' p hp => ?_, fun p o ho => ⟨o.var.2, ?_, rfl⟩⟩
  · have hne : name ≠ name' := by
      rintro rfl
      simp [hnew] at hp
    rw [add_lookupBase, if_neg hne, hp]
  · have hne : p ≠ s.objects.length := by
      rintro rfl
      simp [object_length] at ho
    rw [add_object_of_ne _ _ _ _ hne]
    exact ho

end

/-! ## `Lookup` -/

theorem find?_of_lookupBase {name : String} {p : ConfigPtr} (h : s.lookupBase name = some p) :
    ∃ it, s.datas.find? name = some it ∧ it.2 = p := Option.map_eq_some_iff.1 h

theorem find?_of_lookupBase_none {name : String} (h : s.lookupBase name = none) :
    s.datas.find? name = none := Option.map_eq_none_iff.1 h

section
variable [DecidableEq K.Ty] {name : String}

theorem dynamicCast_eq {p : ConfigPtr} {o : ConfigObject K} (h : s.object p = some o) (t : K.Ty) :
    s.dynamicCast t p = if o.var.1 = t then some p else none := by
  simp only [dynamicCast, h]

/-- A bound name: the object if it has the type, else null, and nothing changes. -/
theorem lookup_bound {p : ConfigPtr} {o : ConfigObject K} (hbound : s.lookupBase name = some p)
    (ho : s.object p = some o) (t : K.Ty) (default_value : K.El t) (description : String) :
    s.lookup t name default_value description = (.ok (if o.var.1 = t then some p else none), s) := by
  obtain ⟨it, hit, rfl⟩ := find?_of_lookupBase hbound
  simp only [lookup, hit, dynamicCast_eq ho]

theorem find_bound {p : ConfigPtr} {o : ConfigObject K} (hbound : s.lookupBase name = some p)
    (ho : s.object p = some o) (t : K.Ty) :
    s.find t name = if o.var.1 = t then some p else none := by
  obtain ⟨it, hit, rfl⟩ := find?_of_lookupBase hbound
  simp only [find, hit, dynamicCast_eq ho]

theorem lookup_invalid (hnew : s.lookupBase name = none)
    (hname : findFirstNotOf name lookupChars ≠ none) (t : K.Ty) (default_value : K.El t)
    (description : String) :
    s.lookup t name default_value description = (.error (.invalidArgument name), s) := by
  simp only [lookup, find?_of_lookupBase_none hnew, if_pos hname]

theorem lookup_new (hnew : s.lookupBase name = none) (hname : findFirstNotOf name lookupChars = none)
    (t : K.Ty) (default_value : K.El t) (description : String) :
    s.lookup t name default_value description =
      (.ok (some s.objects.length), s.add t name default_value description) := by
  simp only [lookup, find?_of_lookupBase_none hnew, if_neg (not_not.2 hname)]
  rfl

/-- What `Lookup` can do to the registry: nothing, or add an object under its new name. -/
theorem lookup_cases (s : ConfigStore K) (t : K.Ty) (name : String) (default_value : K.El t)
    (description : String) : (s.lookup t name default_value description).2 = s ∨
      s.lookupBase name = none ∧ findFirstNotOf name lookupChars = none ∧
        (s.lookup t name default_value description).2 = s.add t name default_value description := by
  cases hbound : s.lookupBase name with
  | some p =>
      obtain ⟨it, hit, -⟩ := find?_of_lookupBase hbound
      left
      simp only [ConfigStore.lookup, hit]
  | none =>
      by_cases hname : findFirstNotOf name lookupChars = none
      · rw [lookup_new hbound hname]
        exact .inr ⟨rfl, hname, rfl⟩
      · rw [lookup_invalid hbound hname]
        exact .inl rfl

end

/-! ## Runs -/

section
variable [DecidableEq K.Ty]

/-- What a call can do: change values, or add an object under its new name. -/
theorem step_cases {op : ConfigOp K} (h : s.step Y op = some t) :
    (Keeps s t ∧ t.datas = s.datas) ∨ ∃ ty name default_value description,
      s.lookupBase name = none ∧ findFirstNotOf name lookupChars = none ∧
        t = s.add ty name default_value description := by
  cases op with
  | lookup ty name default_value description =>
      obtain rfl := Option.some.inj h
      rcases lookup_cases s ty name default_value description with heq | ⟨hnew, hname, heq⟩
      · rw [heq]
        exact .inl ⟨Keeps.refl s, rfl⟩
      · exact .inr ⟨ty, name, default_value, description, hnew, hname, heq⟩
  | find ty name =>
      obtain rfl := Option.some.inj h
      exact .inl ⟨Keeps.refl s, rfl⟩
  | lookupBase name =>
      obtain rfl := Option.some.inj h
      exact .inl ⟨Keeps.refl s, rfl⟩
  | loadFromYaml root =>
      obtain rfl := Option.some.inj h
      exact .inl (Keeps.loadFromYaml s root)
  | setValue p ty v =>
      obtain rfl := Option.some.inj h
      exact .inl ⟨Keeps.setValue s p ty v, rfl⟩

theorem Keeps.step {op : ConfigOp K} (h : s.step Y op = some t) : Keeps s t := by
  rcases step_cases h with ⟨hkeeps, -⟩ | ⟨ty, name, default_value, description, hnew, -, rfl⟩
  · exact hkeeps
  · exact Keeps.add ty default_value description hnew

theorem Keeps.run {ops : List (ConfigOp K)} (h : exec (ConfigStore.step Y) s ops = some t) :
    Keeps s t :=
  exec_rel Keeps.refl (fun _ _ _ => Keeps.trans) (fun _ _ _ => Keeps.step) h

theorem Named.step (hs : Named s) {op : ConfigOp K} (h : s.step Y op = some t) : Named t := by
  have hkept : ∀ name p, s.lookupBase name = some p →
      ∃ o, t.object p = some o ∧ o.var.getName = name := by
    intro name p hp
    obtain ⟨o, ho, hname⟩ := hs name p hp
    obtain ⟨x, hx, hx'⟩ := (Keeps.step h).object p o ho
    exact ⟨_, hx, hx'.trans hname⟩
  intro name p hp
  rcases step_cases h with ⟨-, hdatas⟩ | ⟨ty, name', default_value, description, -, hname, rfl⟩
  · exact hkept name p (by rwa [lookupBase, hdatas] at hp)
  · rw [add_lookupBase] at hp
    split_ifs at hp with heq
    · -- the checked name is in lower case, so the variable stores it as it is
      subst heq
      obtain rfl := Option.some.inj hp
      exact ⟨_, add_object_self ty name' default_value description, tolower_of_lookupChars hname⟩
    · exact hkept name p hp

theorem Named.run {ops : List (ConfigOp K)} (hs : Named s)
    (h : exec (ConfigStore.step Y) s ops = some t) : Named t :=
  exec_history (fun _ s => Named s) (fun _ _ _ _ hs _ h => hs.step h) [] hs
    (along_of_forall (fun _ _ => trivial) s) h

/-- What `Lookup` answers, now and in every later state. -/
structure Answers (Y : YamlCpp) (s : ConfigStore K) : Prop where
  /-- A bound name: its object, or null for another type, and nothing changes. -/
  bound : ∀ name p, s.lookupBase name = some p → ∃ o, s.object p = some o ∧
    ∀ t default_value description, s.lookup t name default_value description =
        (.ok (if o.var.1 = t then some p else none), s) ∧
      s.find t name = if o.var.1 = t then some p else none
  /-- A new name with another character. -/
  invalid : ∀ name, s.lookupBase name = none → findFirstNotOf name lookupChars ≠ none →
    ∀ t default_value description, s.lookup t name default_value description =
      (.error (.invalidArgument name), s)
  /-- A new name: a new object with the default, which every later `Lookup` of it returns. -/
  created : ∀ name, s.lookupBase name = none → findFirstNotOf name lookupChars = none →
    ∀ t default_value description, ∃ p s', s.lookup t name default_value description =
        (.ok (some p), s') ∧
      s.object p = none ∧ s'.object p = some ⟨⟨t, ConfigVar.new name default_value⟩, description⟩ ∧
      (∀ q, q ≠ p → s'.object q = s.object q) ∧
      ∀ later u, exec (ConfigStore.step Y) s' later = some u → u.lookupBase name = some p ∧
        u.find t name = some p ∧
        ∀ default_value' description', u.lookup t name default_value' description' =
          (.ok (some p), u)

theorem Named.answers (hs : Named s) : Answers Y s := by
  refine ⟨fun name p hp => ?_, fun name hnew hname t default_value description =>
    lookup_invalid hnew hname t default_value description,
    fun name hnew hname t default_value description => ?_⟩
  · obtain ⟨o, ho, -⟩ := hs name p hp
    exact ⟨o, ho, fun t default_value description =>
      ⟨lookup_bound hp ho t default_value description, find_bound hp ho t⟩⟩
  · refine ⟨_, _, lookup_new hnew hname t default_value description, object_length,
      add_object_self t name default_value description, fun q hq =>
        add_object_of_ne t name default_value description hq, fun later u hu => ?_⟩
    -- the name keeps its object, and the object its type
    have hkeeps := Keeps.run hu
    have hbound := hkeeps.bound name s.objects.length (by rw [add_lookupBase, if_pos rfl])
    obtain ⟨x, hx, -⟩ := hkeeps.object _ _ (add_object_self t name default_value description)
    refine ⟨hbound, (find_bound hbound hx t).trans (if_pos rfl),
      fun default_value' description' => ?_⟩
    rw [lookup_bound hbound hx t default_value' description', if_pos rfl]

/-- **What a name means.** Over every sequence of calls: each name stays bound to the object it was
bound to, which keeps its type and whose name it is, and `Lookup` answers with that object where the
type is right, with null where it is not, with an exception where the new name is invalid, changing
nothing, and else with a new object that every later `Lookup` of that type returns. -/
theorem lookup_contract {before after : List (ConfigOp K)}
    (hs : exec (ConfigStore.step Y) empty before = some s)
    (ht : exec (ConfigStore.step Y) s after = some t) : Named s ∧ Keeps s t ∧ Answers Y s := by
  have hnamed : Named s := Named.empty.run hs
  exact ⟨hnamed, Keeps.run ht, hnamed.answers⟩

end

/-- A variable is created, two lookups fail, and a document is loaded. -/
def createPort : List (ConfigOp textTypes) :=
  [.lookup () "system.port" "8080" "system port", .find () "no.such", .lookup () "No" "" ""]

def loadPort : List (ConfigOp textTypes) :=
  [.loadFromYaml (.map [("system", .map [("port", .scalar "80")])])]

theorem lookup_contract_sample :
    ∃ s t : ConfigStore textTypes, exec (ConfigStore.step scalarsOnly) empty createPort = some s ∧
      exec (ConfigStore.step scalarsOnly) s loadPort = some t ∧
      t.lookupBase "system.port" = some 0 := by
  obtain ⟨s, hs, hbound⟩ : ∃ s, exec (ConfigStore.step scalarsOnly) empty createPort = some s ∧
      s.lookupBase "system.port" = some 0 := ⟨_, rfl, rfl⟩
  obtain ⟨t, ht⟩ : ∃ t, exec (ConfigStore.step scalarsOnly) s loadPort = some t := ⟨_, rfl⟩
  exact ⟨s, t, hs, ht, (lookup_contract hs ht).2.1.bound _ _ hbound⟩

/-! ## The registry by name -/

/-- The registry `r` shows under each name the variable behind its pointer. -/
def Shows (s : ConfigStore K) (r : Registry K) : Prop :=
  ∀ name, r.lookupBase name = (s.lookupBase name).bind fun p => (s.object p).map ConfigObject.var

/-- Two names do not share an object. -/
theorem Named.injective (hs : Named s) {name name' : String} {p : ConfigPtr}
    (h : s.lookupBase name = some p) (h' : s.lookupBase name' = some p) : name = name' := by
  obtain ⟨o, ho, hname⟩ := hs name p h
  obtain ⟨o', ho', hname'⟩ := hs name' p h'
  obtain rfl := Option.some.inj (ho.symm.trans ho')
  exact hname.symm.trans hname'

theorem modify_object (s : ConfigStore K) (p : ConfigPtr) (f : ConfigVarBase K → ConfigVarBase K)
    (q : ConfigPtr) : ((s.modify p f).object q).map ConfigObject.var =
      if p = q then ((s.object q).map ConfigObject.var).map f
      else (s.object q).map ConfigObject.var := by
  show ((s.objects.modify p _)[q]?).map _ = _
  rw [List.getElem?_modify]
  split_ifs
  · simp [object, Function.comp_def]
  · simp [object]

variable {r : Registry K}

theorem Shows.loadEntry (h : Shows s r) (hs : Named s) (passed : List (String × String))
    (calls : List (Σ t : K.Ty, Call (K.El t))) (i : String × Node) :
    Shows (s.loadEntry Y i) (Ipmsg.loadEntry Y ⟨r, passed, calls⟩ i).registry := by
  unfold ConfigStore.loadEntry Ipmsg.loadEntry
  split_ifs with hroot
  · exact h
  · dsimp only
    have hkey := h (tolower i.1)
    cases hp : s.lookupBase (tolower i.1) with
    | none =>
        rw [hp, Option.bind_none] at hkey
        simp only [hkey]
        exact h
    | some p =>
        obtain ⟨o, ho, -⟩ := hs _ p hp
        rw [hp, Option.bind_some, ho, Option.map_some] at hkey
        simp only [hkey]
        intro name
        rw [Registry.lookupBase_setFromString]
        show _ = (s.lookupBase name).bind _
        by_cases hname : tolower i.1 = name
        · subst hname
          rw [if_pos rfl, hp, hkey]
          simp [modify_object, ho]
        · rw [if_neg hname, h name]
          cases hq : s.lookupBase name with
          | none => rfl
          | some q =>
              have hne : p ≠ q := by
                rintro rfl
                exact hname (hs.injective hp hq)
              simp [modify_object, hne]

/-- Loading a document through the pointers is loading it by name. -/
theorem Shows.loadFromYaml (h : Shows s r) (hs : Named s) (root : Node) :
    Shows (s.loadFromYaml Y root) (Ipmsg.loadFromYaml Y r root).registry := by
  have hloop : ∀ (members : List (String × Node)) {s : ConfigStore K} {l : Loading K},
      Shows s l.registry → Named s →
      Shows (members.foldl (ConfigStore.loadEntry Y) s)
        (members.foldl (Ipmsg.loadEntry Y) l).registry := by
    intro members
    induction members with
    | nil => exact fun h _ => h
    | cons i members ih =>
        intro s l h hs
        refine ih (h.loadEntry hs l.passed l.calls i) fun name p hp => ?_
        obtain ⟨hkeeps, hdatas⟩ := Keeps.loadEntry (Y := Y) s i
        obtain ⟨o, ho, hname⟩ := hs name p (by rwa [lookupBase, hdatas] at hp)
        obtain ⟨x, hx, hx'⟩ := hkeeps.object p o ho
        exact ⟨_, hx, hx'.trans hname⟩
  exact hloop _ h hs

/-- `Lookup` through the pointers is `Lookup` by name. -/
theorem Shows.lookup [DecidableEq K.Ty] (h : Shows s r) (hs : Named s) {t : K.Ty} {name : String}
    {default_value : K.El t} (description : String) {v : Option (ConfigVar (K.El t))}
    {r' : Registry K} (hlookup : r.lookup t name default_value = .ok (v, r')) :
    Shows (s.lookup t name default_value description).2 r' := by
  have hname := h name
  unfold Registry.lookup at hlookup
  split at hlookup
  · next it hit =>
      obtain ⟨-, rfl⟩ := Prod.mk.inj (Except.ok.inj hlookup)
      rw [Registry.lookupBase, hit] at hname
      cases hp : s.lookupBase name with
      | none => simp [hp] at hname
      | some p =>
          obtain ⟨o, ho, -⟩ := hs name p hp
          rw [lookup_bound hp ho]
          exact h
  · next hit =>
      split at hlookup
      · next hchars =>
          obtain ⟨-, rfl⟩ := Prod.mk.inj (Except.ok.inj hlookup)
          have hnew : s.lookupBase name = none := by
            cases hp : s.lookupBase name with
            | none => rfl
            | some p =>
                obtain ⟨o, ho, -⟩ := hs name p hp
                rw [Registry.lookupBase, hit, hp, Option.bind_some, ho] at hname
                simp at hname
          rw [lookup_new hnew hchars]
          intro name'
          rw [add_lookupBase, Registry.lookupBase, KeyedSet.find?_assign]
          split_ifs with heq
          · simp [add_object_self]
          · rw [← Registry.lookupBase, h name']
            cases hq : s.lookupBase name' with
            | none => rfl
            | some q =>
                obtain ⟨o, ho, -⟩ := hs name' q hq
                have hne : q ≠ s.objects.length := by
                  rintro rfl
                  simp [object_length] at ho
                simp [add_object_of_ne _ _ _ _ hne]
      · simp at hlookup

end ConfigStore

end Ipmsg
