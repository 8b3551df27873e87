import Mathlib.Data.String.Basic
import Ipmsg.Config.Var
import Ipmsg.Yaml

set_option autoImplicit false

/-! # Loading a document

`ListAllMember` flattens a YAML tree into pairs of a dotted path name and a node, and
`Config::LoadFromYaml` hands the text of each node to the variable registered under its name. The
variables of a registry have different types; `ConfigTypes` collects what the code uses of them. The
messages logged for invalid names are left out. -/

namespace Ipmsg

/-! ## Listing the members -/

/-- The name of the member `key` of the node named `pfx`. -/
def joinName (pfx key : String) : String := if pfx = "" then key else pfx ++ "." ++ key

/-- The characters of a name; `9` is not among them. -/
def memberChars : String := "abcdefghikjlmnopqrstuvwxyz._012345678"

mutual

/-- `ListAllMember(prefix, node, output)`, returning `output`. -/
def listAllMember (pfx : String) (node : Node) (output : List (String × Node)) :
    List (String × Node) :=
  if findFirstNotOf pfx memberChars ≠ none then output
  else
    let output := output ++ [(pfx, node)]
    match node with
    | .map pairs => listPairs pfx pairs output
    | _ => output

/-- The loop over the pairs of a map. -/
def listPairs (pfx : String) : List (String × Node) → List (String × Node) → List (String × Node)
  | [], output => output
  | (key, node) :: pairs, output =>
      listPairs pfx pairs (listAllMember (joinName pfx key) node output)

end

/-! ## The registry -/

/-- The types variables are declared with, their `==` and their conversion from text. -/
structure ConfigTypes where
  Ty : Type
  El : Ty → Type
  beq : ∀ t, BEq (El t)
  fromStr : ∀ t, String → Except StdException (El t)

/-- A `ConfigVarBase` object: a variable of one of the types. -/
abbrev ConfigVarBase (K : ConfigTypes) := Σ t : K.Ty, ConfigVar (K.El t)

namespace ConfigVarBase

variable {K : ConfigTypes}

def getName (v : ConfigVarBase K) : String := v.2.m_name

/-- The virtual `fromString`, with the listener calls it makes. -/
def fromString (v : ConfigVarBase K) (val : String) :
    ConfigVarBase K × List (Σ t : K.Ty, Call (K.El t)) :=
  letI := K.beq v.1
  let (x, calls, _) := v.2.fromString (K.fromStr v.1) val
  (⟨v.1, x⟩, calls.map (Sigma.mk v.1))

/-- A variable keeps its type, its name and its listeners. -/
theorem fromString_keeps (v : ConfigVarBase K) (val : String) :
    ∃ x : ConfigVar (K.El v.1), (v.fromString val).1 = ⟨v.1, x⟩ ∧ x.m_name = v.2.m_name ∧
      x.m_cbs = v.2.m_cbs := by
  let _ := K.beq v.1
  exact ⟨(v.2.fromString (K.fromStr v.1) val).1, rfl, v.2.fromString_keeps (K.fromStr v.1) val⟩

theorem fromString_getName (v : ConfigVarBase K) (val : String) :
    (v.fromString val).1.getName = v.getName := by
  obtain ⟨x, hx, hname, -⟩ := v.fromString_keeps val
  rw [hx]
  exact hname

end ConfigVarBase

/-- `Config::GetDatas()`. A variable is registered under its own name. -/
structure Registry (K : ConfigTypes) where
  datas : OrdMap String (ConfigVarBase K)
  named : ∀ e ∈ datas, ConfigVarBase.getName e.2 = e.1

namespace Registry

variable {K : ConfigTypes}

/-- `Config::LookupBase`. -/
def lookupBase (r : Registry K) (name : String) : Option (ConfigVarBase K) :=
  (r.datas.find? name).map Prod.snd

/-- `fromString` on the variable registered under `name`, if there is one. -/
def setFromString (r : Registry K) (name val : String) : Registry K :=
  match h : r.datas.find? name with
  | none => r
  | some e =>
      { datas := r.datas.assign (e.1, (ConfigVarBase.fromString e.2 val).1)
        named := by
          intro e' he'
          rcases KeyedSet.mem_assign.1 he' with rfl | ⟨he', -⟩
          · rw [ConfigVarBase.fromString_getName]
            exact r.named e (KeyedSet.find?_eq_some.1 h).1
          · exact r.named e' he' }

end Registry

/-! ## Loading -/

/-- The registry, the texts passed to `fromString` with the name of the variable, and the listener
    calls made. -/
structure Loading (K : ConfigTypes) where
  registry : Registry K
  passed : List (String × String)
  calls : List (Σ t : K.Ty, Call (K.El t))

/-- The text a node is passed with. -/
def nodeText (Y : YamlCpp) (node : Node) : String :=
  if node.isScalar then node.scalarText else Y.emit node

section
variable {K : ConfigTypes} (Y : YamlCpp)

/-- One round of the loop over the listed nodes. -/
def loadEntry (s : Loading K) (i : String × Node) : Loading K :=
  if i.1 = "" then s
  else
    let key := tolower i.1
    match s.registry.lookupBase key with
    | none => s
    | some var =>
        { registry := s.registry.setFromString key (nodeText Y i.2)
          passed := s.passed ++ [(var.getName, nodeText Y i.2)]
          calls := s.calls ++ (var.fromString (nodeText Y i.2)).2 }

/-- `Config::LoadFromYaml`. -/
def loadFromYaml (r : Registry K) (root : Node) : Loading K :=
  (listAllMember "" root []).foldl (loadEntry Y) { registry := r, passed := [], calls := [] }

end

end Ipmsg
