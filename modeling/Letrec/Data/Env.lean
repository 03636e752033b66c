import Std.Data.ExtTreeMap
import Letrec.Data.Basic
import Letrec.Log

/-!
# Data environments

A `DataEnv` holds data types by name, and for every constructor the data type that owns it.
`insert` lets a definition take constructors from other types and reports it; `tryInsert` refuses
such a definition, and one that declares a constructor twice. Either way a definition replaces an
earlier one of the same name. The constructors that this one owned and the new one does not declare
are left without an owner, also where a third type declares them.

Two environments are equal exactly when they hold the same definitions and the same owners.
-/

namespace Letrec

/-- Why a definition was refused. -/
inductive DataEnvError where
  /-- A constructor is owned by another data type. -/
  | constructorCollision (constructor owner incoming : Name)
  /-- A definition declares a constructor more than once. -/
  | duplicateConstructor (constructor type : Name)
  deriving DecidableEq, Repr

namespace DataEnvError

/-- A short name for the reason. -/
def code : DataEnvError → String
  | constructorCollision .. => "ConstructorCollision"
  | duplicateConstructor .. => "DuplicateConstructor"

def message : DataEnvError → String
  | constructorCollision c owner incoming =>
    "constructor '" ++ c.text ++ "' of '" ++ incoming.text ++
      "' is already defined by data type '" ++ owner.text ++ "'"
  | duplicateConstructor c t =>
    "data type '" ++ t.text ++ "' declares constructor '" ++ c.text ++ "' more than once"

end DataEnvError

/-- Data types and the owners of constructors. -/
structure DataEnv where
  /-- The definitions, by the name of the data type. -/
  defs : Std.ExtTreeMap Name DataDef := ∅
  /-- The data type that a constructor belongs to, by the name of the constructor. -/
  owners : Std.ExtTreeMap Name Name := ∅
  deriving DecidableEq

namespace DataEnv

/-- The definition of a data type. -/
def def? (env : DataEnv) (type : Name) : Option DataDef := env.defs[type]?

/-- The data type that owns a constructor. -/
def owner? (env : DataEnv) (c : Name) : Option Name := env.owners[c]?

/-- The type that a constructor builds and the types of its fields. -/
def constructorTypes? (env : DataEnv) (c : Name) : Option (Ty × List Ty) := do
  let owner ← env.owner? c
  let con ← (← env.def? owner).constructor? c
  return (.data none owner, con.fields)

/-- Drops those constructors that `type` still owns. -/
def release (type : Name) (owners : Std.ExtTreeMap Name Name) (cs : List DataCon) :
    Std.ExtTreeMap Name Name :=
  cs.foldl (fun owners c =>
    if owners[c.name]? = some type then owners.erase c.name else owners) owners

/-- Makes `type` the owner of a constructor. Another type that owned it before is reported. -/
def claim (type : Name) (owners : Std.ExtTreeMap Name Name) (c : DataCon) :
    Logged (Std.ExtTreeMap Name Name) :=
  let log :=
    match owners[c.name]? with
    | some owner => if owner = type then [] else [.constructorMoved c.name owner type]
    | none => []
  ⟨owners.insert c.name type, log⟩

/-- Adds a definition, in the place of an earlier one of that name, and gives it its constructors,
whoever owned them. -/
def insert (env : DataEnv) (d : DataDef) : Logged DataEnv := do
  let mut owners := env.owners
  if let some old := env.def? d.name then
    Logged.tell (.typeReplaced d.name)
    owners := release d.name owners old.constructors
  owners ← d.constructors.foldlM (claim d.name) owners
  return { defs := env.defs.insert d.name d, owners }

/-- What speaks against the constructors `cs` of `type`, those in `seen` being declared already: the
first one that is declared before or owned by another type. -/
def fault? (env : DataEnv) (type : Name) : List Name → List DataCon → Option DataEnvError
  | _, [] => none
  | seen, c :: cs =>
    if c.name ∈ seen then some (.duplicateConstructor c.name type)
    else
      match env.owner? c.name with
      | some owner =>
        if owner = type then env.fault? type (c.name :: seen) cs
        else some (.constructorCollision c.name owner type)
      | none => env.fault? type (c.name :: seen) cs

/-- Adds a definition unless one of its constructors is declared twice or owned by another type. -/
def tryInsert (env : DataEnv) (d : DataDef) : Except DataEnvError (Logged DataEnv) :=
  match env.fault? d.name [] d.constructors with
  | some e => .error e
  | none => .ok (env.insert d)

/-- The environment of truth values. -/
def prelude : DataEnv :=
  (DataEnv.insert {} ⟨⟨"Bool"⟩, [⟨⟨"True"⟩, []⟩, ⟨⟨"False"⟩, []⟩]⟩).value

/-- The number of data types. -/
def size (env : DataEnv) : Nat := env.defs.size

/-- The definitions in the order of the names of their data types. -/
def toList (env : DataEnv) : List DataDef := env.defs.toList.map Prod.snd

end DataEnv

end Letrec
