/-!
# Binary floating point with 53 bits

A `Binary64` value is an infinity or `± m · 2 ^ q` with at most 53 bits in `m` and an exponent in
range. `Binary64.nearest` rounds a quotient of natural numbers to it, in exact integer arithmetic:
to the nearest value, a tie to the even mantissa, gradually to zero below and to infinity above.
There is no value that is not a number.
-/

namespace Letrec

/-- The integer nearest to `num / den`, a tie going to the even neighbour. -/
def roundHalfEven (num den : Nat) : Nat :=
  let quotient := num / den
  let remainder := num % den
  if 2 * remainder < den then quotient
  else if 2 * remainder = den then quotient + quotient % 2
  else quotient + 1

/-- The exponent of the leading bit of `num / den`: the greatest `e` with `2 ^ e ≤ num / den`. -/
def leadingBit (num den : Nat) : Int :=
  let e : Int := (num.log2 : Int) - den.log2
  if den * Nat.pow 2 e.toNat ≤ num * Nat.pow 2 (-e).toNat then e else e - 1

/-- A floating-point value with 53 bits of precision. -/
inductive Binary64 where
  /-- The value `± mantissa · 2 ^ exponent`. -/
  | finite (negative : Bool) (mantissa : Nat) (exponent : Int)
  | infinite (negative : Bool)
  deriving DecidableEq, Repr

namespace Binary64

/-- The number of bits in a mantissa. -/
def precision : Nat := 53

/-- The exponent of the last bit of the least positive value. -/
def minExponent : Int := -1074

/-- The exponent of the last bit of the greatest finite value. -/
def maxExponent : Int := 971

/-- The value nearest to `± num / den`, for a positive `den`. -/
def nearest (negative : Bool) (num den : Nat) : Binary64 :=
  if num = 0 then finite negative 0 minExponent
  else
    let q := max (leadingBit num den - (precision - 1)) minExponent
    let m := roundHalfEven (num * Nat.pow 2 (-q).toNat) (den * Nat.pow 2 q.toNat)
    -- rounding up may carry into one more bit; then the last bit is zero and can go
    let (m, q) := if m = Nat.pow 2 precision then (Nat.pow 2 (precision - 1), q + 1) else (m, q)
    if q > maxExponent then infinite negative else finite negative m q

/-- Whether the value is negative, a negative zero included. -/
def negative : Binary64 → Bool
  | finite s _ _ => s
  | infinite s => s

/-- The magnitude as a natural number, for a finite value without a fractional part. -/
def toNat? : Binary64 → Option Nat
  | finite _ m q =>
    if m % Nat.pow 2 (-q).toNat = 0 then some (m / Nat.pow 2 (-q).toNat * Nat.pow 2 q.toNat)
    else none
  | infinite _ => none

end Binary64

end Letrec
