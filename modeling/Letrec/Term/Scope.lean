import Letrec.Term.Annotation

/-!
# Scopes

Every node belongs to the let whose bound term it lies in, the innermost one if there are several.
`Term.adorn` writes that into the annotations: `shallow f` at the root of a bound term, `deep f`
further inside it, and `unscoped` outside of all of them. The body of a let belongs to what is
around the let.
-/

namespace Letrec

/-- The let-bound name that a node belongs to. -/
inductive Scope where
  /-- The root of the term bound to `name`. -/
  | shallow (name : Name)
  /-- Inside of the term bound to `name`. -/
  | deep (name : Name)
  /-- In no bound term. -/
  | unscoped
  deriving DecidableEq, Repr

namespace Scope

/-- The scope of the subterms of a node, as long as no let intervenes. -/
def deepen : Scope → Scope
  | shallow x | deep x => deep x
  | unscoped => unscoped

/-- The name of the scope, if it has one. -/
def name? : Scope → Option Name
  | shallow x | deep x => some x
  | unscoped => none

def text : Scope → String
  | shallow x => "Shallow(" ++ x.text ++ ")"
  | deep x => "Deep(" ++ x.text ++ ")"
  | unscoped => "Unscoped"

@[simp] theorem deepen_deepen (s : Scope) : s.deepen.deepen = s.deepen := by cases s <;> rfl

@[simp] theorem name?_deepen (s : Scope) : s.deepen.name? = s.name? := by cases s <;> rfl

end Scope

namespace Term

variable {α : Type}

mutual

/-- Pairs every annotation with the scope of its node, `s` being the scope of the root. -/
def adornIn (s : Scope) : Term α → Term (Scope × α)
  | lit a v => lit (s, a) v
  | var a m x => var (s, a) m x
  | builtin a v => builtin (s, a) v
  | app a f t => app (s, a) (f.adornIn s.deepen) (t.adornIn s.deepen)
  | lam a x b => lam (s, a) x (b.adornIn s.deepen)
  | letIn a x e b => letIn (s, a) x (e.adornIn (.shallow x)) (b.adornIn s.deepen)
  | caseOf a t alts => caseOf (s, a) (t.adornIn s.deepen) (adornAlts s.deepen alts)
  | fix a b => fix (s, a) (b.adornIn s.deepen)

def adornAlts (s : Scope) : List (Alternative α) → List (Alternative (Scope × α))
  | [] => []
  | (p, t) :: alts => (p, t.adornIn s) :: adornAlts s alts

end

theorem adornAlts_eq (s : Scope) (alts : List (Alternative α)) :
    adornAlts s alts = alts.map fun alt => (alt.1, alt.2.adornIn s) := by
  induction alts with
  | nil => rfl
  | cons alt alts ih => simp [adornAlts, ih]

/-- Pairs every annotation with the scope that its node belongs to. -/
def adorn (t : Term α) : Term (Scope × α) := t.adornIn .unscoped

end Term

end Letrec
