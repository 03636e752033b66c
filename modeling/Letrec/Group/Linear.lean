import Letrec.Group.Knot

/-!
# Linear groups

`Group.linearize` orders the bindings of a group and removes its recursion, so that no binding
refers to itself or to a later one. Components are taken in their order: the binding of a component
without recursion is kept as it is, the others are tied. `Group.letIn` nests the result around a
body, the first binding outermost.
-/

namespace Letrec.Group

variable {α : Type}

/-- The bindings of the group at some positions. -/
def select (g : Group α) (positions : List Nat) : Group α := positions.filterMap (g[·]?)

/-- The bindings that a component gives rise to. -/
def emit (g : Group α) (c : Component) : Logged (Group α) :=
  let members := g.select c.members
  if c.cyclic then ⟨(Knot.ofGroup members).bindings, [.groupTied (members.map Binding.name)]⟩
  else ⟨members, members.map fun b => .notRecursive b.name⟩

/-- The bindings of the group in an order without forward references and without recursion. -/
def linearize (g : Group α) : Logged (Group α) := do
  let components ← g.analyze
  Logged.tell (.groupSplit g.length components.length)
  let parts ← components.mapM g.emit
  return parts.flatten

/-- Lets for the bindings around a body, the first one outermost, each annotated like the term that
it binds. -/
def nest (g : Group α) (body : Term α) : Term α :=
  g.foldr (fun b t => .letIn b.term.ann b.name b.term t) body

/-- The group, made linear, around a body. -/
def letIn (g : Group α) (body : Term α) : Logged (Term α) := do
  let bindings ← g.linearize
  return nest bindings body

end Letrec.Group
