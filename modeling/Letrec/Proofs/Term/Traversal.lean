import Letrec.Proofs.Term.Path
import Letrec.Term.Annotation

/-!
# Traversals visit the nodes in one order

`Term.foldl` and `Term.mapAccum` walk over a term independently of each other. Both visit the nodes
in the order of `Term.annotations`: folding over a term is folding over that list, and a visitor
that replaces the annotations of a term does what it does when it runs over the list from left to
right (`Visitor.run`). It sees nothing of a term but the annotations and changes nothing else.
-/

namespace Letrec

variable {α β σ : Type}

/-! ## Visitors -/

/-- Runs a visitor over a list from left to right, and returns the state that it ends in and what it
puts in the place of each entry. -/
def Visitor.run (step : σ → α → σ × β) (s : σ) : List α → σ × List β
  | [] => (s, [])
  | a :: as => ((run step (step s a).1 as).1, (step s a).2 :: (run step (step s a).1 as).2)

/-- A run over two lists is a run over the first and, from there, one over the second. -/
theorem Visitor.run_append (step : σ → α → σ × β) (s : σ) (as as' : List α) :
    run step s (as ++ as') =
      ((run step (run step s as).1 as').1,
        (run step s as).2 ++ (run step (run step s as).1 as').2) := by
  induction as generalizing s with
  | nil => rfl
  | cons a as ih => simp only [List.cons_append, run, ih]

namespace Term

/-! ## Nodes by their subterms -/

theorem annotations_children (t : Term α) :
    t.annotations = t.ann :: t.children.flatMap annotations := by
  cases t with
  | caseOf a s alts =>
    rw [annotations, annotationsAlts_eq, children, List.flatMap_cons, List.flatMap_map]
    rfl
  | _ => simp [annotations, children, ann]

theorem foldlAlts_eq (f : β → α → β) (init : β) (alts : List (Alternative α)) :
    foldlAlts f init alts = (alts.map Prod.snd).foldl (fun acc t => t.foldl f acc) init := by
  induction alts generalizing init with
  | nil => rfl
  | cons alt alts ih => exact ih _

/-- A fold visits a node, and then its subterms from left to right. -/
theorem foldl_children (f : β → α → β) (init : β) (t : Term α) :
    t.foldl f init = t.children.foldl (fun acc u => u.foldl f acc) (f init t.ann) := by
  cases t with
  | caseOf a s alts => exact foldlAlts_eq f _ alts
  | _ => rfl

theorem foldl_eq_foldl_annotations (f : β → α → β) (init : β) (t : Term α) :
    t.foldl f init = t.annotations.foldl f init := by
  induction t using ind_parts generalizing init with
  | node t ih =>
    have hchildren : ∀ u ∈ t.children, ∀ acc, u.foldl f acc = u.annotations.foldl f acc := by
      intro u hu acc
      rw [← map_snd_parts] at hu
      obtain ⟨p, hp, rfl⟩ := List.mem_map.1 hu
      exact ih p hp acc
    rw [foldl_children, annotations_children, List.foldl_cons, List.foldl_flatMap]
    exact List.foldl_ext _ _ _ fun acc u hu => hchildren u hu acc

/-- The list of annotations is itself a fold. -/
theorem annotations_eq_foldl (t : Term α) : t.annotations = t.foldl (fun as a => as ++ [a]) [] := by
  have happend : ∀ as init : List α, as.foldl (fun as a => as ++ [a]) init = init ++ as := by
    intro as
    induction as with
    | nil => simp
    | cons a as ih => simp [ih]
  rw [foldl_eq_foldl_annotations, happend, List.nil_append]

/-! ## Visitors on terms -/

/-- A visitor meets the annotations of a term one after another. -/
theorem mapAccum_eq_run (step : σ → α → σ × β) (s : σ) (t : Term α) :
    ((t.mapAccum step s).1, (t.mapAccum step s).2.annotations) =
      Visitor.run step s t.annotations := by
  induction t generalizing s with
  | lit | var | builtin => rfl
  | app a f u ihf ihu =>
    rw [annotations, Visitor.run, Visitor.run_append, ← ihf, ← ihu]
    rfl
  | lam a x b ih =>
    rw [annotations, Visitor.run, ← ih]
    rfl
  | letIn a x e b ihe ihb =>
    rw [annotations, Visitor.run, Visitor.run_append, ← ihe, ← ihb]
    rfl
  | caseOf a u alts ihu ih =>
    have halts : ∀ s, ((mapAccumAlts step s alts).1, annotationsAlts (mapAccumAlts step s alts).2) =
        Visitor.run step s (annotationsAlts alts) := by
      clear ihu
      induction alts with
      | nil => exact fun s => rfl
      | cons alt alts ihalts =>
        rw [List.forall_mem_cons] at ih
        intro s
        rw [annotationsAlts, Visitor.run_append, ← ih.1, ← ihalts ih.2]
        rfl
    rw [annotations, Visitor.run, Visitor.run_append, ← ihu, ← halts]
    rfl
  | fix a b ih =>
    rw [annotations, Visitor.run, ← ih]
    rfl

/-- A visitor replaces annotations and nothing else. -/
theorem map_mapAccum (step : σ → α → σ × β) (s : σ) (t : Term α) :
    (t.mapAccum step s).2.map (fun _ => ()) = t.map fun _ => () := by
  induction t generalizing s with
  | lit | var | builtin => rfl
  | app a f u ihf ihu => simp only [mapAccum, map, ihf, ihu]
  | lam a x b ih => simp only [mapAccum, map, ih]
  | letIn a x e b ihe ihb => simp only [mapAccum, map, ihe, ihb]
  | caseOf a u alts ihu ih =>
    have halts : ∀ s, mapAlts (fun _ => ()) (mapAccumAlts step s alts).2 =
        mapAlts (fun _ => ()) alts := by
      clear ihu
      induction alts with
      | nil => exact fun s => rfl
      | cons alt alts ihalts =>
        rw [List.forall_mem_cons] at ih
        intro s
        simp only [mapAccumAlts, mapAlts, ih.1, ihalts ih.2]
    simp only [mapAccum, map, ihu, halts]
  | fix a b ih => simp only [mapAccum, map, ih]

/-- **Visitors and folds see the nodes in the same order.** What a visitor puts in the place of the
annotations of a term, and the state that it ends in, are those of its run over the list of
annotations; the rest of the term stays. A fold over the term is a fold over that list, and the list
is what a fold collects that goes from a node to its subterms. -/
theorem visit_order (t : Term α) :
    (∀ (σ β : Type) (step : σ → α → σ × β) (s : σ),
        (t.mapAccum step s).2.annotations = (Visitor.run step s t.annotations).2 ∧
        (t.mapAccum step s).1 = (Visitor.run step s t.annotations).1 ∧
        (t.mapAccum step s).2.map (fun _ => ()) = t.map fun _ => ()) ∧
      (∀ (β : Type) (f : β → α → β) (init : β),
        t.foldl f init = t.annotations.foldl f init ∧
        t.foldl f init = t.children.foldl (fun acc u => u.foldl f acc) (f init t.ann)) ∧
      t.annotations = t.foldl (fun as a => as ++ [a]) [] := by
  refine ⟨fun σ β step s => ?visitor, fun β f init => ?fold, annotations_eq_foldl t⟩
  case visitor =>
    have hrun := mapAccum_eq_run step s t
    exact ⟨congrArg Prod.snd hrun, congrArg Prod.fst hrun, map_mapAccum step s t⟩
  case fold => exact ⟨foldl_eq_foldl_annotations f init t, foldl_children f init t⟩

end Term

end Letrec
