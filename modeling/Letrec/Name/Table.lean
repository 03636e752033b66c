import Letrec.Name.Basic

/-!
# Numbered names

A `NameTable` numbers names 0, 1, 2, … in the order in which they are first entered. A name keeps
its number, and the number leads back to the name (`name?_enter`).
-/

namespace Letrec

/-- Names in the order in which they were entered, each once. -/
structure NameTable where
  /-- The name numbered `i` stands at position `i`. -/
  names : List Name := []
  deriving Repr

namespace NameTable

/-- The number of `x`, if it has been entered. -/
def number? (t : NameTable) (x : Name) : Option Nat := t.names.idxOf? x

/-- The name numbered `i`, if that number has been given out. -/
def name? (t : NameTable) (i : Nat) : Option Name := t.names[i]?

/-- Enters `x` and returns its number, the next free one if `x` is new. -/
def enter (t : NameTable) (x : Name) : Nat × NameTable :=
  match t.number? x with
  | some i => (i, t)
  | none => (t.names.length, ⟨t.names ++ [x]⟩)

/-- The number that `enter` gives out leads back to the name. -/
theorem name?_enter (t : NameTable) (x : Name) : (t.enter x).2.name? (t.enter x).1 = some x := by
  unfold enter
  split
  · next i h =>
    obtain ⟨hi, hx, -⟩ := List.findIdx?_eq_some_iff_getElem.1 h
    simpa [name?, List.getElem?_eq_getElem hi] using hx
  · simp [name?]

end NameTable

end Letrec
