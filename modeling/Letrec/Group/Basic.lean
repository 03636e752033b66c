import Letrec.Graph.Component
import Letrec.Log
import Letrec.Term.Annotation
import Letrec.Term.Free

/-!
# Binding groups

The bindings of one let may refer to each other in any order. `Group.components` says which of them
belong together: there is an edge from a binding to the binding of every name that is free in its
term, and the strongly connected components of these edges are listed so that each comes after those
that it refers to. If a name is bound twice, its last binding is the one that is meant.
-/

namespace Letrec

/-- A name and the term that it is bound to. -/
structure Binding (α : Type) where
  name : Name
  term : Term α

namespace Binding

variable {α β : Type}

/-- The names that the bound term refers to, in the group or outside of it. -/
def references (b : Binding α) : List Name := b.term.free

/-- The same binding with every annotation replaced. -/
def map (f : α → β) (b : Binding α) : Binding β := ⟨b.name, b.term.map f⟩

end Binding

/-- The bindings of one let in source order. -/
abbrev Group (α : Type) := List (Binding α)

/-- Bindings that refer to each other. -/
structure Component where
  /-- The positions of the bindings in their group, in ascending order. -/
  members : List Nat
  /-- Whether some binding refers to itself, directly or through the others. -/
  cyclic : Bool
  deriving DecidableEq, Repr

namespace Group

variable {α : Type}

/-- The position of the last binding of `x`. -/
def lastIdx? (g : Group α) (x : Name) : Option Nat :=
  (g.reverse.findIdx? (·.name = x)).map fun i => g.length - 1 - i

/-- The positions of the bindings that binding `i` refers to, each once, in the order of the first
reference. -/
def targets (g : Group α) (i : Nat) : List Nat :=
  match g[i]? with
  | some b => (b.references.filterMap g.lastIdx?).eraseDups
  | none => []

/-- The components of the group, each after those that it refers to. -/
def components (g : Group α) : List Component :=
  let positions := List.range g.length
  (Graph.components positions g.targets).map fun vertices =>
    let members := positions.filter (· ∈ vertices)
    { members, cyclic := 1 < members.length || members.any fun i => i ∈ g.targets i }

/-- Reads the group and reports every binding on the way. -/
def analyze (g : Group α) : Logged (List Component) :=
  ⟨g.components, g.map fun b => .bindingRead b.name b.references.length⟩

end Group

end Letrec
