import Letrec.Term.Annotation
import Letrec.Term.Subst

/-!
# Terms under new annotations

`Term.map` replaces annotations and leaves everything else as it is, so that the same names are free
(`free_map`). Substitution hands the annotations on with the nodes and decides nothing by them:
whether annotations are replaced before or after it makes no difference (`map_substFree`,
`map_rename`). The same goes for spines and telescopes, whose nodes are annotated with one value.
-/

namespace Letrec.Term

variable {α β : Type} (f : α → β)

@[simp] theorem ann_map (t : Term α) : (t.map f).ann = f t.ann := by
  cases t <;> rfl

@[simp] theorem free_map (t : Term α) : (t.map f).free = t.free := by
  induction t with
  | lit | var | builtin => rfl
  | app a g s ihg ihs => simp only [map, free, ihg, ihs]
  | lam a x b ih => simp only [map, free, ih]
  | letIn a x e b ihe ihb => simp only [map, free, ihe, ihb]
  | caseOf a s alts ihs ih =>
    simp only [map, free, ihs, mapAlts_eq, freeAlts_eq, List.flatMap_def, List.map_map]
    congr 2
    exact List.map_congr_left fun alt halt => congrArg (List.filter _) (ih alt halt)
  | fix a b ih => simp only [map, free, ih]

/-- What is put in the place of the occurrences may depend on their annotations, if it does so in
the same way before and after. -/
theorem map_substFree {x : Name} {occ : α → Bool → Term α} {occ' : β → Bool → Term β}
    (hocc : ∀ a m, (occ a m).map f = occ' (f a) m) (t : Term α) :
    (t.substFree x occ).map f = (t.map f).substFree x occ' := by
  induction t with
  | lit | builtin => rfl
  | var a m y =>
    simp only [map, substFree]
    split
    · exact hocc a m
    · rfl
  | app a g s ihg ihs => simp only [map, substFree, ihg, ihs]
  | lam a y b ih =>
    simp only [map, substFree]
    split
    · rfl
    · simp only [map, ih]
  | letIn a y e b ihe ihb =>
    simp only [map, substFree]
    split
    · rfl
    · simp only [map, ihe, ihb]
  | caseOf a s alts ihs ih =>
    simp only [map, substFree, ihs, mapAlts_eq, substFreeAlts_eq, List.map_map]
    congr 1
    refine List.map_congr_left fun alt halt => Prod.ext rfl ?_
    by_cases hx : x ∈ alt.1.bound
    · simp [hx]
    · simp [hx, ih alt halt]
  | fix a b ih => simp only [map, substFree, ih]

@[simp] theorem map_rename (t : Term α) (x new : Name) :
    (t.rename x new).map f = (t.map f).rename x new :=
  map_substFree f (fun _ _ => rfl) t

@[simp] theorem map_applyAll (a : α) (head : Term α) (args : List (Term α)) :
    (applyAll a head args).map f = applyAll (f a) (head.map f) (args.map (map f)) := by
  induction args generalizing head with
  | nil => rfl
  | cons t args ih => exact ih (app a head t)

@[simp] theorem map_lamAll (a : α) (params : List Name) (body : Term α) :
    (lamAll a params body).map f = lamAll (f a) params (body.map f) := by
  induction params with
  | nil => rfl
  | cons x params ih => exact congrArg (lam (f a) x) ih

end Letrec.Term
