import Letrec.Term.Basic

/-!
# The text of terms

Terms are written on one line. Application associates to the left; an operand that is not a leaf,
and any negative number, stands in parentheses. The bodies of abstractions and lets, scrutinees and
alternatives stand bare: each reaches as far to the right as it can.
-/

namespace Letrec

/-- Tuple constructors are commas in parentheses, one fewer than the arity. -/
def Builtin.text : Builtin → String
  | tuple n => "(" ++ String.ofList (List.replicate (n - 1) ',') ++ ")"
  | cons => "(:)"
  | nil => "[]"

/-- Puts a text in parentheses if asked to. -/
def parenthesized (parens : Bool) (s : String) : String := if parens then "(" ++ s ++ ")" else s

namespace Term

variable {α : Type}

/-- A literal, a variable or a builtin constructor. -/
def isLeaf : Term α → Bool
  | lit .. | var .. | builtin .. => true
  | _ => false

/-- A literal number below zero. In front of an operator its sign would read as a subtraction. -/
def isNegativeNumber : Term α → Bool
  | lit _ v => v.isNegative
  | _ => false

/-- Whether the function of an application stands in parentheses. -/
def parensAsFunc : Term α → Bool
  | app .. => false
  | t => t.isNegativeNumber || !t.isLeaf

/-- Whether the argument of an application stands in parentheses. -/
def parensAsArg (t : Term α) : Bool := t.isNegativeNumber || !t.isLeaf

mutual

/-- The term on one line, without its annotations and marks. -/
def text : Term α → String
  | lit _ v => v.text
  | var _ _ x => x.text
  | builtin _ v => v.text
  | app _ f s => parenthesized f.parensAsFunc f.text ++ " " ++ parenthesized s.parensAsArg s.text
  | lam _ x b => "\\" ++ x.text ++ " -> " ++ b.text
  | letIn _ x e b => "let " ++ x.text ++ " = " ++ e.text ++ " in " ++ b.text
  | caseOf _ s alts =>
    "case " ++ s.text ++ " of \x7b" ++ ";".intercalate (textAlts alts) ++
      if alts.isEmpty then "\x7d" else " \x7d"
  | fix _ b => "fix " ++ parenthesized (!b.isLeaf) b.text

def textAlts : List (Alternative α) → List String
  | [] => []
  | (p, t) :: alts => (" " ++ p.text ++ " -> " ++ t.text) :: textAlts alts

end

theorem textAlts_eq (alts : List (Alternative α)) :
    textAlts alts = alts.map fun alt => " " ++ alt.1.text ++ " -> " ++ alt.2.text := by
  induction alts with
  | nil => rfl
  | cons alt alts ih => simp [textAlts, ih]

end Term

end Letrec
