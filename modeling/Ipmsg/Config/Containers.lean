import Mathlib.Data.String.Basic
import Ipmsg.Config.Var
import Ipmsg.Lib.Unordered
import Ipmsg.Yaml

set_option autoImplicit false

/-! # The conversions of containers

The partial specialisations of `LexicalCast` for `vector`, `list`, `set`, `unordered_set`, `map` and
`unordered_map`. The encoders differ only in what they iterate over, the decoders only in how they
insert. An index is an `int` in the code; no sequence is long enough for it to overflow. -/

namespace Ipmsg

/-- The two `LexicalCast`s of a type. -/
structure LexicalCasts (T : Type) where
  toStr : T → Except StdException String
  fromStr : String → Except StdException T

/-! ## Printing -/

/-- `ss << node[i]`; an undefined node prints nothing. -/
def YamlCpp.printItem (Y : YamlCpp) : Option Node → String
  | none => ""
  | some node => Y.emit node

section
variable (Y : YamlCpp) {T C : Type}

/-! ## The loops -/

/-- The encoders of the containers of elements. -/
def itemsToString (toStr : T → Except StdException String) (items : List T) :
    Except StdException String := do
  let node ← items.foldlM (fun node i => do node.pushBack (← Y.load (← toStr i))) Node.null
  return Y.printLocal node

/-- Their decoders. -/
def itemsOfString (fromStr : String → Except StdException T) (insert : C → T → C) (empty : C)
    (v : String) : Except StdException C := do
  let node ← Y.load v
  (List.range node.size).foldlM (fun vec i => do
    let item ← Node.getIdx Y (some node) i
    return insert vec (← fromStr (Y.printItem item))) empty

/-- The encoders of the maps from strings. -/
def pairsToString (toStr : T → Except StdException String) (pairs : List (String × T)) :
    Except StdException String := do
  let node ← pairs.foldlM (fun node i => do node.set i.1 (← Y.load (← toStr i.2))) Node.null
  return Y.printLocal node

/-- Their decoders. What an iterator of a sequence points to has no `first`. -/
def pairsOfString (fromStr : String → Except StdException T) (insert : C → String × T → C)
    (empty : C) (v : String) : Except StdException C := do
  match ← Y.load v with
  | .map pairs => pairs.foldlM (fun vec it => do
      return insert vec (it.1, ← fromStr (Y.emit it.2))) empty
  | .seq (_ :: _) => throw (.other "InvalidNode")
  | _ => return empty

/-! ## The containers -/

/-- `std::vector<T>`. -/
def vectorCasts (c : LexicalCasts T) : LexicalCasts (List T) where
  toStr v := itemsToString Y c.toStr v
  fromStr := itemsOfString Y c.fromStr (fun vec i => vec ++ [i]) []

/-- `std::list<T>`. -/
def listCasts (c : LexicalCasts T) : LexicalCasts (List T) where
  toStr v := itemsToString Y c.toStr v
  fromStr := itemsOfString Y c.fromStr (fun vec i => vec ++ [i]) []

/-- `std::set<T>`; `operator<` compares the keys. -/
def setCasts {κ : Type} [LinearOrder κ] (key : T → κ) (c : LexicalCasts T) :
    LexicalCasts (KeyedSet key) where
  toStr v := itemsToString Y c.toStr v.elems
  fromStr := itemsOfString Y c.fromStr KeyedSet.insert ∅

/-- `std::unordered_set<T>`; `operator==` compares the keys. -/
def unorderedSetCasts {κ : Type} [DecidableEq κ] (key : T → κ) (H : HashOrder T)
    (c : LexicalCasts T) : LexicalCasts (Unordered key) where
  toStr v := itemsToString Y c.toStr v.elems
  fromStr := itemsOfString Y c.fromStr (Unordered.insert H) ∅

/-- `std::map<std::string, T>`. -/
def mapCasts (c : LexicalCasts T) : LexicalCasts (OrdMap String T) where
  toStr v := pairsToString Y c.toStr v.elems
  fromStr := pairsOfString Y c.fromStr KeyedSet.insert ∅

/-- `std::unordered_map<std::string, T>`. -/
def unorderedMapCasts (H : HashOrder (String × T)) (c : LexicalCasts T) :
    LexicalCasts (Unordered (Prod.fst : String × T → String)) where
  toStr v := pairsToString Y c.toStr v.elems
  fromStr := pairsOfString Y c.fromStr (Unordered.insert H) ∅

end

/-- `ConfigVar::toString`. -/
def ConfigVar.toString {T : Type} (toStr : T → Except StdException String) (x : ConfigVar T) :
    String :=
  match toStr x.m_val with
  | .ok s => s
  | .error _ => ""

end Ipmsg
