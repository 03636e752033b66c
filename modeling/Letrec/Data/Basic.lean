import Letrec.Ty.Text

/-!
# Data types

A data type lists its constructors, each with the types of its fields. Data types have no parameters
and may mention themselves.
-/

namespace Letrec

/-- A constructor. -/
structure DataCon where
  name : Name
  fields : List Ty
  deriving DecidableEq, Repr

/-- The definition of a data type. -/
structure DataDef where
  name : Name
  constructors : List DataCon
  deriving DecidableEq, Repr

/-- The name and the field types, set apart by spaces. A function type stands in parentheses. -/
def DataCon.text (c : DataCon) : String :=
  c.name.text ++ String.join (c.fields.map fun t => " " ++ t.guarded t.text)

namespace DataDef

/-- The first constructor of that name. -/
def constructor? (d : DataDef) (c : Name) : Option DataCon := d.constructors.find? (·.name = c)

/-- Whether the definition declares a constructor of that name. -/
def Declares (d : DataDef) (c : Name) : Prop := c ∈ d.constructors.map DataCon.name

instance (d : DataDef) (c : Name) : Decidable (d.Declares c) :=
  inferInstanceAs (Decidable (c ∈ d.constructors.map DataCon.name))

theorem isSome_constructor?_iff {d : DataDef} {c : Name} :
    (d.constructor? c).isSome ↔ d.Declares c := by
  simp [constructor?, Declares]

/-- The definition as it is declared. -/
def text (d : DataDef) : String :=
  "data " ++ d.name.text ++
    match d.constructors with
    | [] => ""
    | cs => " = " ++ " | ".intercalate (cs.map DataCon.text)

end DataDef

end Letrec
