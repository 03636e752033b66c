import Letrec.Proofs.Term.Rename
import Mathlib.Data.List.Nodup
import Mathlib.Order.Bounds.Basic
import Mathlib.Order.Monotone.Basic

/-!
# Models of terms

A `Model` interprets terms in a partial order, under a valuation of their names. It is monotone and
compositional; applications obey the beta law, and fixed points and lets are least among what their
equation lets shrink. Nothing else is asked: which functions an abstraction or a case distinguishes,
and what they do with annotations and binders, is up to the model.

The facts about syntax that carry over: only free names matter (`eval_congr`), a renaming to a name
that does not occur is a change of the valuation (`eval_rename`), and a function of several
parameters is applied by binding them (`applyValues_lamAll`).
-/

universe u

namespace Letrec

/-- What the names stand for. -/
abbrev Valuation (D : Type u) := Name → D

namespace Valuation

variable {D : Type u}

/-- Gives a name another value. -/
def set (ρ : Valuation D) (x : Name) (d : D) : Valuation D := Function.update ρ x d

/-- Takes the values of the names `xs` from elsewhere. -/
def override (ρ : Valuation D) (xs : List Name) (τ : Valuation D) : Valuation D :=
  fun x => if x ∈ xs then τ x else ρ x

/-- Gives the names `xs` the values `ds`, one after another. -/
def bind (ρ : Valuation D) : List Name → List D → Valuation D
  | x :: xs, d :: ds => bind (ρ.set x d) xs ds
  | _, _ => ρ

end Valuation

/-- An interpretation of terms in a partial order `D`. -/
structure Model (α : Type) (D : Type u) [PartialOrder D] where
  eval : Term α → Valuation D → D
  eval_mono : ∀ t, Monotone (eval t)
  lit : α → Literal → D
  builtin : α → Builtin → D
  ap : D → D → D
  ap_mono : ∀ {f f' d d'}, f ≤ f' → d ≤ d' → ap f d ≤ ap f' d'
  /-- An abstraction, made from the meaning of its body as a function of the parameter. -/
  abs : α → Name → (D → D) → D
  /-- A case, made from the meanings of its alternatives as functions of the bound names. -/
  branch : α → D → List (Pattern × (Valuation D → D)) → D
  eval_lit : ∀ a v ρ, eval (.lit a v) ρ = lit a v
  eval_var : ∀ a m x ρ, eval (.var a m x) ρ = ρ x
  eval_builtin : ∀ a c ρ, eval (.builtin a c) ρ = builtin a c
  eval_app : ∀ a f s ρ, eval (.app a f s) ρ = ap (eval f ρ) (eval s ρ)
  eval_lam : ∀ a x b ρ, eval (.lam a x b) ρ = abs a x fun d => eval b (ρ.set x d)
  beta : ∀ a x b ρ d, ap (eval (.lam a x b) ρ) d = eval b (ρ.set x d)
  eval_letIn : ∀ a x t b ρ, ∃ e, IsLeast {d | eval t (ρ.set x d) ≤ d} e ∧
    eval (.letIn a x t b) ρ = eval b (ρ.set x e)
  eval_caseOf : ∀ a s alts ρ, eval (.caseOf a s alts) ρ =
    branch a (eval s ρ) (alts.map fun alt => (alt.1, fun τ => eval alt.2 (ρ.override alt.1.bound τ)))
  isLeast_fix : ∀ a t ρ, IsLeast {d | ap (eval t ρ) d ≤ d} (eval (.fix a t) ρ)

/-! ## Valuations -/

namespace Valuation

variable {D : Type u} {ρ ρ' τ τ' : Valuation D} {xs ys : List Name} {x y : Name} {d e : D}

@[simp] theorem set_self : ρ.set x d x = d := by rw [set, Function.update_self]

theorem set_of_ne (h : y ≠ x) : ρ.set x d y = ρ y := by rw [set, Function.update_of_ne h]

theorem set_comm (h : x ≠ y) : (ρ.set x d).set y e = (ρ.set y e).set x d := by
  unfold set
  exact Function.update_comm h d e ρ

theorem set_mono [Preorder D] (hρ : ρ ≤ ρ') (hd : d ≤ e) : ρ.set x d ≤ ρ'.set x e := by
  intro y
  by_cases hy : y = x
  · rw [hy, set_self, set_self]
    exact hd
  · rw [set_of_ne hy, set_of_ne hy]
    exact hρ y

theorem override_of_mem (h : x ∈ xs) : ρ.override xs τ x = τ x := if_pos h

theorem override_of_not_mem (h : x ∉ xs) : ρ.override xs τ x = ρ x := if_neg h

theorem override_mono [Preorder D] (xs : List Name) (hρ : ρ ≤ ρ') (hτ : ∀ x ∈ xs, τ x ≤ τ' x) :
    ρ.override xs τ ≤ ρ'.override xs τ' := by
  intro x
  by_cases hx : x ∈ xs
  · rw [override_of_mem hx, override_of_mem hx]
    exact hτ x hx
  · rw [override_of_not_mem hx, override_of_not_mem hx]
    exact hρ x

theorem override_congr (h : ∀ x ∈ xs, τ x = τ' x) : ρ.override xs τ = ρ.override xs τ' := by
  funext x
  by_cases hx : x ∈ xs
  · rw [override_of_mem hx, override_of_mem hx, h x hx]
  · rw [override_of_not_mem hx, override_of_not_mem hx]

theorem override_perm (h : xs.Perm ys) : ρ.override xs τ = ρ.override ys τ := by
  funext x
  simp only [override, h.mem_iff]

theorem override_override :
    (ρ.override xs τ).override ys τ = ρ.override (xs ++ ys) τ := by
  funext x
  by_cases hx : x ∈ ys <;> simp [override, hx]

theorem override_cons : ρ.override (x :: xs) τ = (ρ.override xs τ).set x (τ x) := by
  funext y
  by_cases hy : y = x
  · rw [hy, set_self, override_of_mem List.mem_cons_self]
  · simp [set_of_ne hy, override, hy]

theorem override_set_of_mem (h : x ∈ xs) : (ρ.set x d).override xs τ = ρ.override xs τ := by
  funext y
  by_cases hy : y ∈ xs
  · rw [override_of_mem hy, override_of_mem hy]
  · have hne : y ≠ x := fun he => hy (he ▸ h)
    rw [override_of_not_mem hy, override_of_not_mem hy, set_of_ne hne]

theorem override_set_of_not_mem (h : x ∉ xs) :
    (ρ.set x d).override xs τ = (ρ.override xs τ).set x d := by
  funext y
  by_cases hyx : y = x
  · rw [hyx, override_of_not_mem h, set_self, set_self]
  · rw [set_of_ne hyx]
    by_cases hy : y ∈ xs
    · rw [override_of_mem hy, override_of_mem hy]
    · rw [override_of_not_mem hy, override_of_not_mem hy, set_of_ne hyx]

theorem bind_of_not_mem : ∀ {xs : List Name} {ds : List D} {ρ : Valuation D}, x ∉ xs →
    ρ.bind xs ds x = ρ x
  | [], _, _, _ => rfl
  | _ :: _, [], _, _ => rfl
  | y :: xs, d :: ds, ρ, h => by
    rw [List.mem_cons, not_or] at h
    rw [bind, bind_of_not_mem h.2, set_of_ne h.1]

/-- Distinct names get the values that they are bound to. -/
theorem map_bind : ∀ {xs : List Name} {ds : List D} {ρ : Valuation D}, xs.Nodup →
    ds.length = xs.length → xs.map (ρ.bind xs ds) = ds
  | [], [], _, _, _ => rfl
  | x :: xs, d :: ds, ρ, hnodup, hlength => by
    obtain ⟨hx, hnodup⟩ := List.nodup_cons.1 hnodup
    rw [bind, List.map_cons, bind_of_not_mem hx, set_self,
      map_bind hnodup (Nat.succ.inj hlength)]

end Valuation

namespace Model

variable {α : Type} {D : Type u} [PartialOrder D] (M : Model α D) {t : Term α}
  {ρ σ : Valuation D} {x new : Name}

/-! ## Free names and renaming -/

/-- The value of a let is determined by the values of the bound term and of the body. -/
theorem eval_letIn_congr {a : α} {e b e' b' : Term α}
    (he : ∀ d, M.eval e (ρ.set x d) = M.eval e' (σ.set x d))
    (hb : ∀ d, M.eval b (ρ.set x d) = M.eval b' (σ.set x d)) :
    M.eval (.letIn a x e b) ρ = M.eval (.letIn a x e' b') σ := by
  obtain ⟨d, hd, hlet⟩ := M.eval_letIn a x e b ρ
  obtain ⟨d', hd', hlet'⟩ := M.eval_letIn a x e' b' σ
  have hsame : {d | M.eval e (ρ.set x d) ≤ d} = {d | M.eval e' (σ.set x d) ≤ d} :=
    Set.ext fun d => by rw [Set.mem_ofPred_eq, Set.mem_ofPred_eq, he d]
  rw [hsame] at hd
  rw [hlet, hlet', hd.unique hd', hb]

theorem eval_fix_congr {a : α} {b b' : Term α} (hb : M.eval b ρ = M.eval b' σ) :
    M.eval (.fix a b) ρ = M.eval (.fix a b') σ := by
  have hfix := M.isLeast_fix a b ρ
  rw [hb] at hfix
  exact hfix.unique (M.isLeast_fix a b' σ)

/-- Only the values of the free names matter. -/
theorem eval_congr (h : ∀ x ∈ t.free, ρ x = σ x) : M.eval t ρ = M.eval t σ := by
  -- what a binder adds to agreement on the free names of its body
  have hset : ∀ {ρ σ : Valuation D} {x : Name} {t : Term α} (d : D),
      (∀ y ∈ t.free, y ≠ x → ρ y = σ y) → ∀ y ∈ t.free, ρ.set x d y = σ.set x d y := by
    intro ρ σ x t d h y hy
    by_cases hyx : y = x
    · rw [hyx, Valuation.set_self, Valuation.set_self]
    · rw [Valuation.set_of_ne hyx, Valuation.set_of_ne hyx, h y hy hyx]
  induction t generalizing ρ σ with
  | lit a v => rw [M.eval_lit, M.eval_lit]
  | builtin a c => rw [M.eval_builtin, M.eval_builtin]
  | var a m x =>
    rw [M.eval_var, M.eval_var]
    exact h x (Term.mem_free_var.2 rfl)
  | app a f s ihf ihs =>
    rw [M.eval_app, M.eval_app, ihf fun x hx => h x (Term.mem_free_app.2 (.inl hx)),
      ihs fun x hx => h x (Term.mem_free_app.2 (.inr hx))]
  | lam a x b ih =>
    rw [M.eval_lam, M.eval_lam]
    congr 1
    funext d
    exact ih (hset d fun y hy hyx => h y (Term.mem_free_lam.2 ⟨hy, hyx⟩))
  | letIn a x e b ihe ihb =>
    refine M.eval_letIn_congr (fun d => ihe (hset d fun y hy hyx => ?_))
      (fun d => ihb (hset d fun y hy hyx => ?_))
    · exact h y (Term.mem_free_letIn.2 ⟨.inl hy, hyx⟩)
    · exact h y (Term.mem_free_letIn.2 ⟨.inr hy, hyx⟩)
  | caseOf a s alts ihs ih =>
    rw [M.eval_caseOf, M.eval_caseOf, ihs fun x hx => h x (Term.mem_free_caseOf.2 (.inl hx))]
    congr 1
    refine List.map_congr_left fun alt halt => Prod.ext rfl (funext fun τ => ?_)
    refine ih alt halt fun x hx => ?_
    by_cases hb : x ∈ alt.1.bound
    · rw [Valuation.override_of_mem hb, Valuation.override_of_mem hb]
    · rw [Valuation.override_of_not_mem hb, Valuation.override_of_not_mem hb]
      exact h x (Term.mem_free_caseOf.2 (.inr ⟨alt, halt, hx, hb⟩))
  | fix a b ih => exact M.eval_fix_congr (ih fun x hx => h x (Term.mem_free_fix.2 hx))

theorem eval_set_of_not_mem_free {d : D} (h : x ∉ t.free) : M.eval t (ρ.set x d) = M.eval t ρ :=
  M.eval_congr fun _ hy => Valuation.set_of_ne fun he => h (he ▸ hy)

/-- A renaming to a name that does not occur gives the old name the value of the new one. -/
theorem eval_rename (h : new ∉ t.names) :
    M.eval (t.rename x new) ρ = M.eval t (ρ.set x (ρ new)) := by
  induction t generalizing ρ with
  | lit a v => rw [Term.rename_lit, M.eval_lit, M.eval_lit]
  | builtin a c => rw [Term.rename_builtin, M.eval_builtin, M.eval_builtin]
  | var a m y =>
    rw [Term.rename_var, M.eval_var, M.eval_var]
    by_cases hy : y = x
    · rw [if_pos hy, hy, Valuation.set_self]
    · rw [if_neg hy, Valuation.set_of_ne hy]
  | app a f s ihf ihs =>
    rw [Term.mem_names_app, not_or] at h
    rw [Term.rename_app, M.eval_app, M.eval_app, ihf h.1, ihs h.2]
  | lam a y b ih =>
    rw [Term.mem_names_lam, not_or] at h
    by_cases hy : y = x
    · subst hy
      rw [Term.rename_lam_self, M.eval_set_of_not_mem_free (by simp)]
    · rw [Term.rename_lam_of_ne a new hy, M.eval_lam, M.eval_lam]
      congr 1
      funext d
      rw [ih h.2, Valuation.set_of_ne h.1, Valuation.set_comm hy]
  | letIn a y e b ihe ihb =>
    rw [Term.mem_names_letIn, not_or, not_or] at h
    by_cases hy : y = x
    · subst hy
      rw [Term.rename_letIn_self, M.eval_set_of_not_mem_free (by simp)]
    · rw [Term.rename_letIn_of_ne a new hy]
      refine M.eval_letIn_congr (fun d => ?_) (fun d => ?_)
      · rw [ihe h.2.1, Valuation.set_of_ne h.1, Valuation.set_comm hy]
      · rw [ihb h.2.2, Valuation.set_of_ne h.1, Valuation.set_comm hy]
  | caseOf a s alts ihs ih =>
    rw [Term.mem_names_caseOf, not_or] at h
    rw [Term.rename_caseOf, M.eval_caseOf, M.eval_caseOf, ihs h.1, List.map_map]
    congr 1
    refine List.map_congr_left fun alt halt => Prod.ext rfl (funext fun τ => ?_)
    have hnew : new ∉ alt.1.bound ∧ new ∉ alt.2.names := by
      rw [← not_or]
      exact fun hm => h.2 ⟨alt, halt, hm⟩
    simp only [Function.comp_apply]
    by_cases hx : x ∈ alt.1.bound
    · rw [if_pos hx, Valuation.override_set_of_mem hx]
    · rw [if_neg hx, ih alt halt hnew.2, Valuation.override_of_not_mem hnew.1,
        Valuation.override_set_of_not_mem hx]
  | fix a b ih =>
    rw [Term.mem_names_fix] at h
    rw [Term.rename_fix]
    exact M.eval_fix_congr (ih h)

/-- A let without recursion. -/
theorem eval_letIn_of_not_mem_free {a : α} {e b : Term α} (h : x ∉ e.free) :
    M.eval (.letIn a x e b) ρ = M.eval b (ρ.set x (M.eval e ρ)) := by
  obtain ⟨d, hd, hlet⟩ := M.eval_letIn a x e b ρ
  have hbound : ∀ d, M.eval e (ρ.set x d) = M.eval e ρ := fun d => M.eval_set_of_not_mem_free h
  have hle : M.eval e ρ ≤ d := by
    rw [← hbound d]
    exact hd.1
  have hge : d ≤ M.eval e ρ := hd.2 (hbound _).le
  rw [hlet, le_antisymm hge hle]

/-! ## Functions of several parameters -/

/-- A function value applied to values one after another. -/
def applyValues (f : D) (ds : List D) : D := ds.foldl M.ap f

theorem applyValues_mono {ds es : List D} (h : List.Forall₂ (· ≤ ·) ds es) :
    ∀ {f g : D}, f ≤ g → M.applyValues f ds ≤ M.applyValues g es := by
  induction h with
  | nil => exact id
  | cons hd _ ih => exact fun hf => ih (M.ap_mono hf hd)

theorem eval_applyAll {a : α} (head : Term α) {args : List (Term α)} :
    M.eval (.applyAll a head args) ρ =
      M.applyValues (M.eval head ρ) (args.map fun t => M.eval t ρ) := by
  induction args generalizing head with
  | nil => rfl
  | cons t args ih =>
    have happ := ih (.app a head t)
    rw [M.eval_app] at happ
    exact happ

theorem applyValues_lamAll {a : α} {params : List Name} :
    ∀ {ds : List D} {ρ : Valuation D}, ds.length = params.length →
      M.applyValues (M.eval (.lamAll a params t) ρ) ds = M.eval t (ρ.bind params ds) := by
  induction params with
  | nil =>
    intro ds ρ h
    rw [List.length_eq_zero_iff.1 h]
    rfl
  | cons x params ih =>
    intro ds ρ h
    match ds, h with
    | d :: ds, h =>
      have hbeta : M.ap (M.eval (.lamAll a (x :: params) t) ρ) d =
          M.eval (.lamAll a params t) (ρ.set x d) := M.beta a x (.lamAll a params t) ρ d
      rw [applyValues, List.foldl_cons, hbeta]
      exact ih (Nat.succ.inj h)

end Model

end Letrec
