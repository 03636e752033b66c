import Letrec.Ty.Basic

/-!
# The text of types

Arrows associate to the right, so that only an arrow that is an argument stands in parentheses. A
type has two texts, one without its annotations and one with them: `^a` behind the form that is
annotated, for an arrow behind the arrow itself.
-/

namespace Letrec.Ty

/-- Whether the outermost form is an arrow. -/
def isArrow : Ty → Bool
  | arrow .. => true
  | _ => false

/-- A text in parentheses if the type is an arrow. -/
def guarded (t : Ty) (s : String) : String := if t.isArrow then "(" ++ s ++ ")" else s

mutual

/-- The text of a type; `mark` writes the slots. -/
def render (mark : Option Name → String) : Ty → String
  | basic a k => k.name ++ mark a
  | data a n => n.text ++ mark a
  | list a t => "[" ++ t.render mark ++ "]" ++ mark a
  | tuple a ts => "(" ++ ", ".intercalate (renderAll mark ts) ++ ")" ++ mark a
  | arrow a _ s t => s.guarded (s.render mark) ++ " ->" ++ mark a ++ " " ++ t.render mark
  | var x => x.text

def renderAll (mark : Option Name → String) : List Ty → List String
  | [] => []
  | t :: ts => t.render mark :: renderAll mark ts

end

theorem renderAll_eq (mark : Option Name → String) (ts : List Ty) :
    renderAll mark ts = ts.map (render mark) := by
  induction ts with
  | nil => rfl
  | cons t ts ih => simp [renderAll, ih]

/-- The text without annotations. -/
def text (t : Ty) : String := t.render fun _ => ""

/-- The text with annotations. -/
def annotatedText (t : Ty) : String :=
  t.render fun
    | some a => "^" ++ a.text
    | none => ""

end Letrec.Ty
