import Letrec.Literal
import Letrec.Pattern

/-!
# Terms

Lambda terms with lets, case distinctions and explicit fixed points. Every node carries an
annotation of a type `α` that the library never looks into.

Functions on terms come in pairs: one on terms and one on lists of alternatives, which says what
happens to the alternatives of a case from left to right. `Term.ind` is the induction principle to
go with them, with one hypothesis for every alternative of a case.
-/

namespace Letrec

/-- The constructors of the data types that need no definition. -/
inductive Builtin where
  /-- The constructor of tuples with `arity` fields. -/
  | tuple (arity : Nat)
  | cons
  | nil
  deriving DecidableEq, Repr

/-- A term whose nodes are annotated with values of type `α`. -/
inductive Term (α : Type) where
  | lit (ann : α) (value : Literal)
  /-- An occurrence of a name. The mark means nothing here and survives every operation. -/
  | var (ann : α) (marked : Bool) (name : Name)
  | builtin (ann : α) (value : Builtin)
  | app (ann : α) (func arg : Term α)
  | lam (ann : α) (param : Name) (body : Term α)
  /-- A let. The name stands for the bound term in the body and in the bound term itself. -/
  | letIn (ann : α) (name : Name) (bound body : Term α)
  | caseOf (ann : α) (scrutinee : Term α) (alts : List (Pattern × Term α))
  /-- The least fixed point of a function. -/
  | fix (ann : α) (body : Term α)
  deriving Repr

/-- A pattern and the term that it guards. -/
abbrev Alternative (α : Type) := Pattern × Term α

namespace Term

variable {α : Type}

/-- Induction over terms. The induction hypotheses of a case cover its scrutinee and each of its
alternatives. -/
@[elab_as_elim, induction_eliminator]
theorem ind {motive : Term α → Prop}
    (lit : ∀ a v, motive (.lit a v))
    (var : ∀ a m x, motive (.var a m x))
    (builtin : ∀ a v, motive (.builtin a v))
    (app : ∀ a f s, motive f → motive s → motive (.app a f s))
    (lam : ∀ a x b, motive b → motive (.lam a x b))
    (letIn : ∀ a x e b, motive e → motive b → motive (.letIn a x e b))
    (caseOf : ∀ a s alts, motive s → (∀ alt ∈ alts, motive alt.2) → motive (.caseOf a s alts))
    (fix : ∀ a b, motive b → motive (.fix a b)) (t : Term α) : motive t :=
  Term.rec (motive_1 := motive) (motive_2 := fun alts => ∀ alt ∈ alts, motive alt.2)
    (motive_3 := fun alt => motive alt.2) lit var builtin app lam letIn caseOf fix
    (fun _ h => absurd h List.not_mem_nil)
    (fun _ _ ih ihs _ h => (List.mem_cons.1 h).elim (fun e => e ▸ ih) (ihs _)) (fun _ _ ih => ih) t

/-- The annotation at the root. -/
def ann : Term α → α
  | lit a _ | var a _ _ | builtin a _ | app a _ _ | lam a _ _ | letIn a _ _ _ | caseOf a _ _
  | fix a _ => a

/-- The same term with another annotation at the root. -/
def setAnn (a : α) : Term α → Term α
  | lit _ v => lit a v
  | var _ m x => var a m x
  | builtin _ v => builtin a v
  | app _ f s => app a f s
  | lam _ x b => lam a x b
  | letIn _ x e b => letIn a x e b
  | caseOf _ s alts => caseOf a s alts
  | fix _ b => fix a b

/-- The direct subterms, from left to right. -/
def children : Term α → List (Term α)
  | lit .. | var .. | builtin .. => []
  | app _ f s => [f, s]
  | lam _ _ b | fix _ b => [b]
  | letIn _ _ e b => [e, b]
  | caseOf _ s alts => s :: alts.map Prod.snd

mutual

/-- The number of nodes. -/
def size : Term α → Nat
  | lit .. | var .. | builtin .. => 1
  | app _ f s => f.size + s.size + 1
  | lam _ _ b | fix _ b => b.size + 1
  | letIn _ _ e b => e.size + b.size + 1
  | caseOf _ s alts => s.size + sizeAlts alts + 1

def sizeAlts : List (Alternative α) → Nat
  | [] => 0
  | (_, t) :: alts => t.size + sizeAlts alts

end

theorem sizeAlts_map {f : Alternative α → Alternative α} {alts : List (Alternative α)}
    (h : ∀ alt ∈ alts, (f alt).2.size = alt.2.size) : sizeAlts (alts.map f) = sizeAlts alts := by
  induction alts with
  | nil => rfl
  | cons alt alts ih =>
    rw [List.map_cons, sizeAlts, sizeAlts, h alt List.mem_cons_self,
      ih fun alt' halt => h alt' (List.mem_cons_of_mem alt halt)]

theorem size_le_sizeAlts {alts : List (Alternative α)} {alt : Alternative α} (h : alt ∈ alts) :
    alt.2.size ≤ sizeAlts alts := by
  induction alts with
  | nil => exact absurd h List.not_mem_nil
  | cons alt' alts ih =>
    rw [sizeAlts]
    rcases List.mem_cons.1 h with rfl | h
    · omega
    · have := ih h
      omega

/-- The alternatives of a case are smaller than the case. -/
theorem size_lt_caseOf (a : α) (s : Term α) {alts : List (Alternative α)} {alt : Alternative α}
    (h : alt ∈ alts) : alt.2.size < (caseOf a s alts).size := by
  have := size_le_sizeAlts h
  rw [size]
  omega

theorem size_pos (t : Term α) : 0 < t.size := by
  cases t <;> simp [size]

mutual

/-- Whether a fixed point occurs in the term. -/
def hasFix : Term α → Bool
  | lit .. | var .. | builtin .. => false
  | app _ f s => f.hasFix || s.hasFix
  | lam _ _ b => b.hasFix
  | letIn _ _ e b => e.hasFix || b.hasFix
  | caseOf _ s alts => s.hasFix || hasFixAlts alts
  | fix .. => true

def hasFixAlts : List (Alternative α) → Bool
  | [] => false
  | (_, t) :: alts => t.hasFix || hasFixAlts alts

end

theorem hasFixAlts_eq (alts : List (Alternative α)) :
    hasFixAlts alts = alts.any fun alt => alt.2.hasFix := by
  induction alts with
  | nil => rfl
  | cons alt alts ih => simp [hasFixAlts, ih]

/-- `head` applied to `args` one after another; the applications are annotated with `a`. -/
def applyAll (a : α) (head : Term α) (args : List (Term α)) : Term α := args.foldl (app a) head

/-- A function of `params`, the first one outermost; the abstractions are annotated with `a`. -/
def lamAll (a : α) (params : List Name) (body : Term α) : Term α := params.foldr (lam a) body

end Term

end Letrec
