import Letrec.Term.Free

/-!
# Renaming and replacement

`substFree` replaces the free occurrences of a name and leaves everything under a binder of that
name alone. `rename` and `replace` are its two uses. Neither looks at what it inserts: a name free
in the inserted term can be captured by a binder around the occurrence.
-/

namespace Letrec.Term

variable {α : Type}

mutual

/-- Replaces every free occurrence of `x` by the term that `occ` makes from its annotation and its
mark. -/
def substFree (x : Name) (occ : α → Bool → Term α) : Term α → Term α
  | lit a v => lit a v
  | var a m y => if y = x then occ a m else var a m y
  | builtin a v => builtin a v
  | app a f s => app a (f.substFree x occ) (s.substFree x occ)
  | lam a y b => if y = x then lam a y b else lam a y (b.substFree x occ)
  | letIn a y e b =>
    if y = x then letIn a y e b else letIn a y (e.substFree x occ) (b.substFree x occ)
  | caseOf a s alts => caseOf a (s.substFree x occ) (substFreeAlts x occ alts)
  | fix a b => fix a (b.substFree x occ)

def substFreeAlts (x : Name) (occ : α → Bool → Term α) :
    List (Alternative α) → List (Alternative α)
  | [] => []
  | (p, t) :: alts =>
    (p, if x ∈ p.bound then t else t.substFree x occ) :: substFreeAlts x occ alts

end

theorem substFreeAlts_eq (x : Name) (occ : α → Bool → Term α) (alts : List (Alternative α)) :
    substFreeAlts x occ alts =
      alts.map fun alt => (alt.1, if x ∈ alt.1.bound then alt.2 else alt.2.substFree x occ) := by
  induction alts with
  | nil => rfl
  | cons alt alts ih => simp [substFreeAlts, ih]

/-- Renames the free occurrences of `x`. Each keeps its annotation and its mark. -/
def rename (t : Term α) (x new : Name) : Term α := t.substFree x fun a m => var a m new

section
variable (a : α) (x new : Name)

@[simp] theorem rename_lit (v : Literal) : (lit a v).rename x new = lit a v := rfl

@[simp] theorem rename_builtin (v : Builtin) : (builtin a v).rename x new = builtin a v := rfl

@[simp] theorem rename_var (m : Bool) (y : Name) :
    (var a m y).rename x new = var a m (if y = x then new else y) :=
  (apply_ite (var a m) (y = x) new y).symm

@[simp] theorem rename_app (f s : Term α) :
    (app a f s).rename x new = app a (f.rename x new) (s.rename x new) := rfl

@[simp] theorem rename_lam_self (b : Term α) : (lam a x b).rename x new = lam a x b := if_pos rfl

@[simp] theorem rename_letIn_self (e b : Term α) :
    (letIn a x e b).rename x new = letIn a x e b := if_pos rfl

@[simp] theorem rename_caseOf (s : Term α) (alts : List (Alternative α)) :
    (caseOf a s alts).rename x new = caseOf a (s.rename x new)
      (alts.map fun alt => (alt.1, if x ∈ alt.1.bound then alt.2 else alt.2.rename x new)) :=
  congrArg (caseOf a (s.rename x new)) (substFreeAlts_eq x _ alts)

@[simp] theorem rename_fix (b : Term α) : (fix a b).rename x new = fix a (b.rename x new) := rfl

variable {x} {y : Name}

theorem rename_lam_of_ne (h : y ≠ x) (b : Term α) :
    (lam a y b).rename x new = lam a y (b.rename x new) := if_neg h

theorem rename_letIn_of_ne (h : y ≠ x) (e b : Term α) :
    (letIn a y e b).rename x new = letIn a y (e.rename x new) (b.rename x new) := if_neg h

end

/-- Puts `r` in the place of every free occurrence of `x`. -/
def replace (t : Term α) (x : Name) (r : Term α) : Term α := t.substFree x fun _ _ => r

section
variable (a : α) (x : Name) (r : Term α)

@[simp] theorem replace_lit (v : Literal) : (lit a v).replace x r = lit a v := rfl

@[simp] theorem replace_builtin (v : Builtin) : (builtin a v).replace x r = builtin a v := rfl

@[simp] theorem replace_var (m : Bool) (y : Name) :
    (var a m y).replace x r = if y = x then r else var a m y := rfl

@[simp] theorem replace_app (f s : Term α) :
    (app a f s).replace x r = app a (f.replace x r) (s.replace x r) := rfl

@[simp] theorem replace_lam_self (b : Term α) : (lam a x b).replace x r = lam a x b := if_pos rfl

@[simp] theorem replace_letIn_self (e b : Term α) :
    (letIn a x e b).replace x r = letIn a x e b := if_pos rfl

@[simp] theorem replace_caseOf (s : Term α) (alts : List (Alternative α)) :
    (caseOf a s alts).replace x r = caseOf a (s.replace x r)
      (alts.map fun alt => (alt.1, if x ∈ alt.1.bound then alt.2 else alt.2.replace x r)) :=
  congrArg (caseOf a (s.replace x r)) (substFreeAlts_eq x _ alts)

@[simp] theorem replace_fix (b : Term α) : (fix a b).replace x r = fix a (b.replace x r) := rfl

variable {x} {y : Name}

theorem replace_lam_of_ne (h : y ≠ x) (b : Term α) :
    (lam a y b).replace x r = lam a y (b.replace x r) := if_neg h

theorem replace_letIn_of_ne (h : y ≠ x) (e b : Term α) :
    (letIn a y e b).replace x r = letIn a y (e.replace x r) (b.replace x r) := if_neg h

end

/-- Without a free occurrence nothing changes. -/
theorem substFree_of_not_mem_free {x : Name} {occ : α → Bool → Term α} {t : Term α}
    (h : x ∉ t.free) : t.substFree x occ = t := by
  induction t with
  | lit | builtin => rfl
  | var a m y => simp_all [free, substFree, eq_comm]
  | app a f s ihf ihs => simp_all [free, substFree]
  | lam a y b ih =>
    simp only [free, List.mem_filter, not_and] at h
    simp only [substFree]
    split
    · rfl
    · next hy => rw [ih fun hb => h hb (decide_eq_true (Ne.symm hy))]
  | letIn a y e b ihe ihb =>
    simp only [free, List.mem_filter, List.mem_append, not_and] at h
    simp only [substFree]
    split
    · rfl
    · next hy =>
      have hne : decide (x ≠ y) = true := decide_eq_true (Ne.symm hy)
      rw [ihe fun he => h (.inl he) hne, ihb fun hb => h (.inr hb) hne]
  | caseOf a s alts ihs ih =>
    simp only [free, List.mem_append, not_or, mem_freeAlts, not_exists, not_and,
      Decidable.not_not] at h
    simp only [substFree, ihs h.1, substFreeAlts_eq]
    congr 1
    refine (List.map_congr_left fun alt halt => ?_).trans (List.map_id alts)
    by_cases hb : x ∈ alt.1.bound
    · simp [hb]
    · simp [ih alt halt fun hx => hb (h.2 alt halt hx)]
  | fix a b ih => simp_all [free, substFree]

/-- A substitution that puts leaves in the place of leaves keeps the number of nodes. -/
theorem size_substFree {x : Name} {occ : α → Bool → Term α} (h : ∀ a m, (occ a m).size = 1)
    (t : Term α) : (t.substFree x occ).size = t.size := by
  induction t with
  | lit | builtin => rfl
  | var a m y => simp only [substFree]; split <;> simp [h, size]
  | app a f s ihf ihs => simp [substFree, size, ihf, ihs]
  | lam a y b ih => simp only [substFree]; split <;> simp [size, ih]
  | letIn a y e b ihe ihb => simp only [substFree]; split <;> simp [size, ihe, ihb]
  | caseOf a s alts ihs ih =>
    have halts : sizeAlts (substFreeAlts x occ alts) = sizeAlts alts := by
      rw [substFreeAlts_eq]
      refine sizeAlts_map fun alt halt => ?_
      split
      · rfl
      · exact ih alt halt
    simp only [substFree, size, ihs, halts]
  | fix a b ih => simp [substFree, size, ih]

@[simp] theorem size_rename (t : Term α) (x new : Name) : (t.rename x new).size = t.size :=
  size_substFree (fun _ _ => rfl) t

end Letrec.Term
