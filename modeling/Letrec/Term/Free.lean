import Letrec.Term.Basic

/-!
# Free references

An abstraction binds its parameter in the body, a let its name in both the bound term and the body,
and a pattern its variables in its own alternative, not in the scrutinee or in the others.
`Term.free` lists what is left unbound.
-/

namespace Letrec.Term

variable {α : Type}

mutual

/-- The names of the variables that no binder of the term binds, in pre-order, one entry for every
occurrence. -/
def free : Term α → List Name
  | lit .. | builtin .. => []
  | var _ _ x => [x]
  | app _ f s => f.free ++ s.free
  | lam _ x b => b.free.filter (· ≠ x)
  | letIn _ x e b => (e.free ++ b.free).filter (· ≠ x)
  | caseOf _ s alts => s.free ++ freeAlts alts
  | fix _ b => b.free

def freeAlts : List (Alternative α) → List Name
  | [] => []
  | (p, t) :: alts => t.free.filter (· ∉ p.bound) ++ freeAlts alts

end

theorem freeAlts_eq (alts : List (Alternative α)) :
    freeAlts alts = alts.flatMap fun alt => alt.2.free.filter (· ∉ alt.1.bound) := by
  induction alts with
  | nil => rfl
  | cons alt alts ih => simp [freeAlts, ih]

theorem mem_freeAlts {x : Name} {alts : List (Alternative α)} :
    x ∈ freeAlts alts ↔ ∃ alt ∈ alts, x ∈ alt.2.free ∧ x ∉ alt.1.bound := by
  simp [freeAlts_eq]

section
variable {a : α} {m : Bool} {v : Literal} {c : Builtin} {f s e b : Term α} {x y : Name}
  {alts : List (Alternative α)}

@[simp] theorem free_lit : (lit a v).free = [] := rfl

@[simp] theorem free_builtin : (builtin a c).free = [] := rfl

@[simp] theorem mem_free_var : y ∈ (var a m x).free ↔ y = x := List.mem_singleton

@[simp] theorem mem_free_app : y ∈ (app a f s).free ↔ y ∈ f.free ∨ y ∈ s.free := List.mem_append

@[simp] theorem mem_free_lam : y ∈ (lam a x b).free ↔ y ∈ b.free ∧ y ≠ x :=
  List.mem_filter.trans (and_congr_right fun _ => decide_eq_true_iff)

@[simp] theorem mem_free_letIn :
    y ∈ (letIn a x e b).free ↔ (y ∈ e.free ∨ y ∈ b.free) ∧ y ≠ x :=
  List.mem_filter.trans (and_congr List.mem_append decide_eq_true_iff)

@[simp] theorem mem_free_caseOf : y ∈ (caseOf a s alts).free ↔
    y ∈ s.free ∨ ∃ alt ∈ alts, y ∈ alt.2.free ∧ y ∉ alt.1.bound :=
  List.mem_append.trans (or_congr_right mem_freeAlts)

@[simp] theorem mem_free_fix : y ∈ (fix a b).free ↔ y ∈ b.free := Iff.rfl

theorem mem_free_applyAll {args : List (Term α)} :
    y ∈ (applyAll a f args).free ↔ y ∈ f.free ∨ ∃ t ∈ args, y ∈ t.free := by
  induction args generalizing f with
  | nil => simp [applyAll]
  | cons t args ih =>
    have := ih (f := app a f t)
    rw [mem_free_app, or_assoc] at this
    simpa only [applyAll, List.foldl_cons, List.mem_cons, exists_eq_or_imp] using this

theorem mem_free_lamAll {params : List Name} :
    y ∈ (lamAll a params b).free ↔ y ∈ b.free ∧ y ∉ params := by
  induction params with
  | nil => simp [lamAll]
  | cons x params ih =>
    rw [lamAll, List.foldr_cons, mem_free_lam, ← lamAll, ih, List.mem_cons, not_or, and_assoc,
      and_comm (a := y ∉ params)]

end

mutual

/-- The names of all variables and binders in the term, free or not. Constructors are not among
them. -/
def names : Term α → List Name
  | lit .. | builtin .. => []
  | var _ _ x => [x]
  | app _ f s => f.names ++ s.names
  | lam _ x b => x :: b.names
  | letIn _ x e b => x :: (e.names ++ b.names)
  | caseOf _ s alts => s.names ++ namesAlts alts
  | fix _ b => b.names

def namesAlts : List (Alternative α) → List Name
  | [] => []
  | (p, t) :: alts => p.bound ++ (t.names ++ namesAlts alts)

end

theorem namesAlts_eq (alts : List (Alternative α)) :
    namesAlts alts = alts.flatMap fun alt => alt.1.bound ++ alt.2.names := by
  induction alts with
  | nil => rfl
  | cons alt alts ih => simp [namesAlts, ih]

section
variable {a : α} {m : Bool} {v : Literal} {c : Builtin} {f s e b : Term α} {x y : Name}
  {alts : List (Alternative α)}

@[simp] theorem mem_names_var : y ∈ (var a m x).names ↔ y = x := List.mem_singleton

@[simp] theorem mem_names_app : y ∈ (app a f s).names ↔ y ∈ f.names ∨ y ∈ s.names :=
  List.mem_append

@[simp] theorem mem_names_lam : y ∈ (lam a x b).names ↔ y = x ∨ y ∈ b.names := List.mem_cons

@[simp] theorem mem_names_letIn :
    y ∈ (letIn a x e b).names ↔ y = x ∨ y ∈ e.names ∨ y ∈ b.names :=
  List.mem_cons.trans (or_congr_right List.mem_append)

@[simp] theorem mem_names_caseOf : y ∈ (caseOf a s alts).names ↔
    y ∈ s.names ∨ ∃ alt ∈ alts, y ∈ alt.1.bound ∨ y ∈ alt.2.names := by
  simp [names, namesAlts_eq]

@[simp] theorem mem_names_fix : y ∈ (fix a b).names ↔ y ∈ b.names := Iff.rfl

end

/-- A free name is one of the names of the term. -/
theorem free_subset_names (t : Term α) : t.free ⊆ t.names := by
  induction t with
  | lit | builtin => simp
  | var a m x => simp [free, names]
  | app a f s ihf ihs =>
    intro y hy
    rw [mem_free_app] at hy
    exact mem_names_app.2 (hy.imp (ihf ·) (ihs ·))
  | lam a x b ih =>
    intro y hy
    exact mem_names_lam.2 (.inr (ih (mem_free_lam.1 hy).1))
  | letIn a x e b ihe ihb =>
    intro y hy
    exact mem_names_letIn.2 (.inr ((mem_free_letIn.1 hy).1.imp (ihe ·) (ihb ·)))
  | caseOf a s alts ihs ih =>
    intro y hy
    refine mem_names_caseOf.2 ?_
    rcases mem_free_caseOf.1 hy with hy | ⟨alt, halt, hy, -⟩
    · exact .inl (ihs hy)
    · exact .inr ⟨alt, halt, .inr (ih alt halt hy)⟩
  | fix a b ih =>
    intro y hy
    exact mem_names_fix.2 (ih (mem_free_fix.1 hy))

end Letrec.Term
