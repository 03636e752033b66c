/-!
# Ranges of code points

Character classes are kept as lists of closed ranges of code points, ascending and apart.
-/

namespace Letrec

/-- A closed range of code points, from the first to the last. -/
abbrev CodeRange := Nat × Nat

/-- Whether one of the ranges holds the character. -/
def CodeRange.holds (ranges : List CodeRange) (c : Char) : Bool :=
  ranges.any fun r => r.1 ≤ c.toNat && c.toNat ≤ r.2

end Letrec
