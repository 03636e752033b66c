/-!
# Strongly connected components

`Graph.components` splits the vertices of a directed graph into its strongly connected components,
in a single depth-first search. A component comes after every component that it has an edge to.

The search keeps the vertices that it has entered and whose component may still grow in a stack. A
vertex is known by its height in the stack, that is by the number of vertices that were pending when
it was entered. `Search.visit` returns the least height that it saw on its way; if that is the
vertex's own height, no edge leads further down, and the vertex and all that is pending above it are
one component.
-/

universe u

namespace Letrec.Graph

variable {V : Type u} [DecidableEq V]

/-- Where a search stands. -/
structure Search (V : Type u) where
  /-- The vertices that are entered but not yet in a component, the latest first. -/
  pending : List V := []
  /-- The components that are complete, in the order of their completion. -/
  closed : List (List V) := []

namespace Search

/-- Whether the component of `v` is complete. -/
def isClosed (s : Search V) (v : V) : Bool := s.closed.any (v ∈ ·)

/-- The number of vertices below `v` in the stack, if `v` is pending. -/
def height? (s : Search V) (v : V) : Option Nat := s.pending.reverse.idxOf? v

/-- Enters `v`. -/
def enter (s : Search V) (v : V) : Search V := { s with pending := v :: s.pending }

/-- Makes a component of all vertices that are pending at `height` or above. -/
def close (s : Search V) (height : Nat) : Search V :=
  let size := s.pending.length - height
  ⟨s.pending.drop size, s.closed ++ [s.pending.take size]⟩

/-- Follows an edge to `w`: the least height seen goes down to that of `w` if `w` is pending, and to
what a visit of `w` sees if `w` is new. -/
def follow (visit : V → Search V → Nat × Search V) (seen : Nat × Search V) (w : V) :
    Nat × Search V :=
  let (low, s) := seen
  if s.isClosed w then (low, s)
  else
    match s.height? w with
    | some height => (min low height, s)
    | none =>
      let (height, s) := visit w s
      (min low height, s)

/-- Visits a new vertex and everything that can be reached from it, and returns the least height
seen. The first argument bounds the depth. The number of vertices is enough: at depth `d` at least
`d` vertices are pending, and the visited one is none of them. -/
def visit (succ : V → List V) : Nat → V → Search V → Nat × Search V
  | 0, _, s => (s.pending.length, s)
  | depth + 1, v, s =>
    let height := s.pending.length
    let (low, s) := (succ v).foldl (follow (visit succ depth)) (height, s.enter v)
    if low < height then (low, s) else (height, s.close height)

/-- Visits `v`, unless its component is complete. -/
def visitNew (succ : V → List V) (depth : Nat) (s : Search V) (v : V) : Search V :=
  if s.isClosed v then s else (s.visit succ depth v).2

end Search

/-- The components that visits of at most the given depth find, one visit after another of every
vertex that is still in no component. -/
def componentsWithin (depth : Nat) (vertices : List V) (succ : V → List V) : List (List V) :=
  (vertices.foldl (Search.visitNew succ depth) {}).closed

/-- The strongly connected components of the graph with the given vertices and edges, every one
after those that it has an edge to. -/
def components (vertices : List V) (succ : V → List V) : List (List V) :=
  componentsWithin vertices.length vertices succ

end Letrec.Graph
