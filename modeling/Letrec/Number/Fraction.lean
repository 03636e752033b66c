import Letrec.Number.Decimal

/-!
# Fractions

A `Fraction` is a numerator over a denominator, kept as it was given: not reduced, the denominator
of any sign, even zero. It is written through its nearest floating-point value, so fractions of
equal value have the same text, but a text can stand for several values.
-/

namespace Letrec

/-- The fraction `num / den`. -/
structure Fraction where
  num : Int
  den : Int
  deriving DecidableEq, Repr

namespace Fraction

/-- The same value in lowest terms with a positive denominator; a zero denominator is left alone. -/
def reduce (r : Fraction) : Fraction :=
  if r.den = 0 then r
  else
    let g : Int := Int.gcd r.num r.den
    ⟨r.den.sign * (r.num / g), r.den.sign * (r.den / g)⟩

/-- Numerator and denominator have strictly opposite signs. -/
def isNegative (r : Fraction) : Bool :=
  (r.num < 0 && 0 < r.den) || (0 < r.num && r.den < 0)

/-- Equality of values. Over equal denominators, zero included, the numerators decide. -/
def sameValue (r s : Fraction) : Bool :=
  if r.den = s.den then r.num == s.num
  else if r.num = s.num then r.num == 0
  else r.num * s.den == s.num * r.den

@[simp] theorem sameValue_self (r : Fraction) : r.sameValue r = true := by
  simp [sameValue]

/-- The nearest floating-point value. A zero denominator counts as a positive zero, and a zero
numerator takes the sign of the denominator; `0 / 0` has no value. -/
def toBinary64? (r : Fraction) : Option Binary64 :=
  if r.den = 0 then
    if r.num = 0 then none else some (.infinite (r.num < 0))
  else if r.num = 0 then some (.nearest (r.den < 0) 0 r.den.natAbs)
  else some (.nearest r.isNegative r.num.natAbs r.den.natAbs)

end Fraction

/-- The text of the nearest floating-point value, or both numbers where there is none. -/
def Fraction.text (r : Fraction) : String :=
  match r.toBinary64? with
  | some x => x.text
  | none => toString r.num ++ "/" ++ toString r.den

end Letrec
