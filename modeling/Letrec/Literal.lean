import Letrec.Number.Fraction
import Letrec.Text.Quoted

/-!
# Literals

The constants that stand in terms: integers of any size, fractions, strings and characters, with
their text. Negative numbers matter to whoever writes a term: as an operand they need parentheses.
-/

namespace Letrec

/-- A constant in a term. -/
inductive Literal where
  | integer (value : Int)
  | rational (value : Fraction)
  | string (value : String)
  | char (value : Char)
  deriving DecidableEq, Repr

namespace Literal

/-- The rational `num / den` in lowest terms, or `none` for a zero denominator. -/
def ratio? (num den : Int) : Option Literal :=
  if den = 0 then none else some (rational (Fraction.reduce ⟨num, den⟩))

/-- A number below zero. -/
def isNegative : Literal → Bool
  | integer n => n < 0
  | rational r => r.isNegative
  | string _ | char _ => false

/-- The same literal with a rational in lowest terms. -/
def reduce : Literal → Literal
  | rational r => rational r.reduce
  | l => l

/-- Equality of literals, rationals by their value. -/
def sameValue : Literal → Literal → Bool
  | rational r, rational s => r.sameValue s
  | l, m => l == m

@[simp] theorem sameValue_self (l : Literal) : l.sameValue l = true := by
  cases l <;> simp [sameValue]

/-- Integers stand in decimal, rationals as their nearest floating-point value, and text in its
quotation marks. -/
def text : Literal → String
  | integer n => toString n
  | rational r => r.text
  | string s => Quoted.string s
  | char c => Quoted.char c

end Literal

end Letrec
