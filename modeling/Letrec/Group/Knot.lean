import Letrec.Group.Basic
import Letrec.Term.Subst

/-!
# Tying knots

A recursive component `m₀ … mₖ₋₁` is replaced by bindings in which recursion goes through fixed
points only. Each member `m` gives two bindings:

* the *helper* `@m@`, the term of `m` as a function of all members: inside, every member is a
  parameter of its own;
* `m` itself, the fixed point of `fun self => @m@ v₀ … vₖ₋₁`, where `vⱼ` is a value for member `j`.

Members before `m` are bound already and stand for themselves, and `m` is `self`. The members after
it are solved inside the fixed point: the *solver* of a member computes it from the values of all
members before it, again as a fixed point that solves the ones after it. A value is thus bound once
to its solver applied to the values of all earlier members. Solvers repeat the helper's term, since
the helpers of later members are not bound yet.

The names that are introduced hold an `@`. All nodes made on behalf of a member carry the annotation
at the root of its term.
-/

namespace Letrec

namespace Name

/-- The name of the helper of a member. -/
def helper (m : Name) : Name := ⟨"@" ++ m.text ++ "@"⟩

/-- The parameter that stands for a member in the helper of another. -/
def lifted (m owner : Name) : Name := ⟨m.text ++ "@" ++ owner.text⟩

/-- The name of the value of member number `i` inside a fixed point. -/
def value (i : Nat) (m : Name) : Name := ⟨"@F" ++ toString i ++ "@" ++ m.text⟩

/-- The name of the solver of member number `i`. -/
def solver (i : Nat) (m : Name) : Name := ⟨"@S" ++ toString i ++ "@" ++ m.text⟩

end Name

variable {α : Type}

/-- The term of a binding as a function of all members of its component, the first one outermost. -/
def Binding.lift (members : List Name) (b : Binding α) : Term α :=
  let param m := Name.lifted m b.name
  .lamAll b.term.ann (members.map param) (members.foldl (fun t m => t.rename m (param m)) b.term)

/-- A member of a recursive component. -/
structure Member (α : Type) where
  /-- Its position in the component. -/
  index : Nat
  name : Name
  /-- The annotation of the nodes that are made on its behalf. -/
  ann : α
  /-- Its term as a function of all members. -/
  body : Term α

namespace Member

/-- An unmarked occurrence of a name, annotated for the member. -/
def occurrence (m : Member α) (x : Name) : Term α := .var m.ann false x

/-- The name of the member's value inside a fixed point. -/
def value (m : Member α) : Name := m.name.value m.index

/-- The name of the member's solver. -/
def solver (m : Member α) : Name := m.name.solver m.index

/-- `head` applied to the values of all members: those of `scope`, and one for each of the members
`later`, which is bound on the way to its solver applied to all values before it. -/
def applyToValues (m : Member α) (head : Term α) : List (Term α) → List (Member α) → Term α
  | scope, [] => .applyAll m.ann head scope
  | scope, n :: later =>
    .letIn n.ann n.value (.applyAll n.ann (n.occurrence n.solver) scope)
      (m.applyToValues head (scope ++ [n.occurrence n.value]) later)

end Member

/-- A recursive component, ready to be tied. -/
abbrev Knot (α : Type) := List (Member α)

namespace Knot

/-- The bindings of a component, their terms lifted over all of its names. -/
def ofGroup (g : Group α) : Knot α :=
  g.zipIdx.map fun (b, i) => ⟨i, b.name, b.term.ann, b.lift (g.map Binding.name)⟩

/-- The members before `m`. -/
def earlier (k : Knot α) (m : Member α) : List (Member α) := k.take m.index

/-- The members after `m`. -/
def later (k : Knot α) (m : Member α) : List (Member α) := k.drop (m.index + 1)

/-- A function of the value of `m` that applies `head` to the values of all members; `scope` holds
those of the members before `m`, and `wrap` is put around the application. -/
def equation (k : Knot α) (m : Member α) (scope : List (Term α)) (head : Term α)
    (wrap : Term α → Term α) : Term α :=
  let scope := scope ++ [m.occurrence m.value]
  .lam m.ann m.value (wrap (m.applyToValues head scope (k.later m)))

/-- A function from the values of the members before `m` to the value of `m`. -/
def solve (k : Knot α) (m : Member α) : Term α :=
  let scope := (k.earlier m).map fun n => n.occurrence n.value
  .lamAll m.ann ((k.earlier m).map Member.value) (.fix m.ann (k.equation m scope m.body id))

/-- Binds the solvers of the members after `m` around a term, that of the last one outermost. -/
def bindSolvers (k : Knot α) (m : Member α) (t : Term α) : Term α :=
  (k.later m).foldl (fun t n => .letIn n.ann n.solver (k.solve n) t) t

/-- The value of `m` where the members before it and its own helper are bound. -/
def solution (k : Knot α) (m : Member α) : Term α :=
  let scope := (k.earlier m).map fun n => n.occurrence n.name
  .fix m.ann (k.equation m scope (m.occurrence m.name.helper) (k.bindSolvers m))

/-- A helper and a solution for every member, in order. No binding refers to a later one. -/
def bindings (k : Knot α) : Group α :=
  k.flatMap fun m => [⟨m.name.helper, m.body⟩, ⟨m.name, k.solution m⟩]

end Knot

end Letrec
