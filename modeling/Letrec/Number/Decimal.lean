import Letrec.Number.Binary64

/-!
# Shortest decimals

`Decimal.shortest m q` is the decimal with the fewest digits that reads back as the binary value
`m · 2 ^ q`, and of those the one nearest to it. The search walks over the decimal grids `10 ^ e`
from coarse to fine and stops at the first one with a point among the reals that round to the value;
on each grid only the two neighbours of the value are tried, since no other point lies nearer.
`Binary64.text` writes a value with it.
-/

namespace Letrec

/-- The number `digits · 10 ^ exponent`. -/
structure Decimal where
  digits : Nat
  exponent : Int
  deriving DecidableEq, Repr

namespace Decimal

/-- Compares `d` with `n · 2 ^ j`, exactly. -/
def compareBinary (d : Decimal) (n : Nat) (j : Int) : Ordering :=
  compare (d.digits * Nat.pow 10 d.exponent.toNat * Nat.pow 2 (-j).toNat)
    (n * Nat.pow 2 j.toNat * Nat.pow 10 (-d.exponent).toNat)

/-- Whether `d` lies among the reals that round to `m · 2 ^ q`. They reach half way to the values on
both sides, the ends included when `m` is even; below a power of two the gap is half as wide. -/
def readsBack (m : Nat) (q : Int) (d : Decimal) : Bool :=
  let narrowBelow := m = Nat.pow 2 (Binary64.precision - 1) ∧ q > Binary64.minExponent
  let lo := d.compareBinary (4 * m - if narrowBelow then 1 else 2) (q - 2)
  let hi := d.compareBinary (4 * m + 2) (q - 2)
  let closed := m % 2 == 0
  (lo == .gt || closed && lo == .eq) && (hi == .lt || closed && hi == .eq)

/-- The greatest multiple of `10 ^ e` that is at most `m · 2 ^ q`. -/
def below (m : Nat) (q e : Int) : Decimal :=
  ⟨m * Nat.pow 2 q.toNat * Nat.pow 10 (-e).toNat / (Nat.pow 2 (-q).toNat * Nat.pow 10 e.toNat), e⟩

/-- The point of the grid `10 ^ e` that stands for `m · 2 ^ q`, if one reads back: the nearer of the
value's two neighbours, the upper one when both are equally near. -/
def onGrid? (m : Nat) (q e : Int) : Option Decimal :=
  let lower := below m q e
  let upper : Decimal := ⟨lower.digits + 1, e⟩
  let middle : Decimal := ⟨2 * lower.digits + 1, e⟩
  match lower.readsBack m q, upper.readsBack m q with
  | true, true => if middle.compareBinary m (q + 1) == .gt then some lower else some upper
  | true, false => some lower
  | false, true => some upper
  | false, false => none

/-- The value `m · 2 ^ q` itself, written with as many digits as it takes. -/
def exact (m : Nat) (q : Int) : Decimal :=
  ⟨m * Nat.pow 2 q.toNat * Nat.pow 5 (-q).toNat, min q 0⟩

/-- The decimal with the fewest digits that reads back as `m · 2 ^ q`, for a positive `m`. -/
def shortest (m : Nat) (q : Int) : Decimal :=
  -- `10 ^ start` is at least the value; the grid of the last bit holds the value itself
  let start := max (m.log2 + 1 + q) 0
  let grids := (List.range (start - min q 0 + 1).toNat).map (fun i : Nat => start - i)
  (grids.findSome? (onGrid? m q)).getD (exact m q)

/-- The text without an exponent: digits, a point before the fraction, zeros where none stand. -/
def text (d : Decimal) : String :=
  let digits := Nat.toDigits 10 d.digits
  let point := (digits.length : Int) + d.exponent
  if 0 ≤ d.exponent then String.ofList (digits ++ List.replicate d.exponent.toNat '0')
  else if 0 < point then
    String.ofList (digits.take point.toNat ++ '.' :: digits.drop point.toNat)
  else String.ofList ('0' :: '.' :: (List.replicate (-point).toNat '0' ++ digits))

end Decimal

namespace Binary64

/-- A minus sign in front of `digits` where it is due. -/
def signed (negative : Bool) (digits : String) : String :=
  if negative then "-" ++ digits else digits

/-- A value without a fractional part is written in full with one decimal, any other with the fewest
digits that read back. -/
def text (x : Binary64) : String :=
  match x, x.toNat? with
  | infinite s, _ => signed s "inf"
  | finite s _ _, some n => signed s (toString n ++ ".0")
  | finite s m q, none => signed s (Decimal.shortest m q).text

end Binary64

end Letrec
