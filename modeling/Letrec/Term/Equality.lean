import Letrec.Term.Basic

/-!
# Equality of terms

Two terms are the same value when they have the same shape, names, marks and annotations, and
literals of the same value: a fraction may stand in different terms on the two sides.
-/

namespace Letrec.Term

variable {α : Type} [BEq α]

mutual

/-- Equality of terms, literals by their value. -/
def sameValue : Term α → Term α → Bool
  | lit a v, lit b w => a == b && v.sameValue w
  | var a m x, var b n y => a == b && m == n && x == y
  | builtin a v, builtin b w => a == b && v == w
  | app a f s, app b g t => a == b && f.sameValue g && s.sameValue t
  | lam a x e, lam b y e' => a == b && x == y && e.sameValue e'
  | letIn a x e t, letIn b y e' t' => a == b && x == y && e.sameValue e' && t.sameValue t'
  | caseOf a s alts, caseOf b t alts' => a == b && s.sameValue t && sameValueAlts alts alts'
  | fix a e, fix b e' => a == b && e.sameValue e'
  | _, _ => false

def sameValueAlts : List (Alternative α) → List (Alternative α) → Bool
  | [], [] => true
  | (p, s) :: alts, (q, t) :: alts' => p == q && s.sameValue t && sameValueAlts alts alts'
  | _, _ => false

end

/-- Every term is the same value as itself. -/
@[simp] theorem sameValue_self [ReflBEq α] (t : Term α) : t.sameValue t = true := by
  induction t with
  | caseOf a s alts ihs ih =>
    simp only [sameValue, ihs, BEq.rfl, Bool.true_and]
    clear ihs
    induction alts with
    | nil => rfl
    | cons alt alts ihAlts =>
      simp only [List.forall_mem_cons] at ih
      simp [sameValueAlts, ih.1, ihAlts ih.2]
  | _ => simp_all [sameValue]

end Letrec.Term
