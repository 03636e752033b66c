import Letrec.Name.Basic

/-!
# Patterns

The left-hand sides of case alternatives. A pattern binds names; how many fields a constructor has
is not its concern.
-/

namespace Letrec

/-- The left-hand side of a case alternative. -/
inductive Pattern where
  /-- Matches everything and binds it. -/
  | var (name : Name)
  /-- Matches one constructor and binds its fields by position. -/
  | con (constructor : Name) (fields : List Name)
  deriving DecidableEq, Repr

namespace Pattern

/-- The names that the pattern binds, from left to right, a repeated one each time. -/
def bound : Pattern → List Name
  | var x => [x]
  | con _ xs => xs

/-- Renames the bound names that are `old`; the constructor keeps its name. -/
def renameBinder (old new : Name) : Pattern → Pattern
  | var x => var (if x = old then new else x)
  | con c xs => con c (xs.map fun x => if x = old then new else x)

@[simp] theorem bound_renameBinder (p : Pattern) (old new : Name) :
    (p.renameBinder old new).bound = p.bound.map fun x => if x = old then new else x := by
  cases p <;> rfl

/-- A constructor and its fields are set apart by spaces. -/
def text : Pattern → String
  | var x => x.text
  | con c xs => c.text ++ String.join (xs.map fun x => " " ++ x.text)

end Pattern

end Letrec
