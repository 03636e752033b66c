import Letrec.Group.Linear
import Letrec.Proofs.Term.Annotation

/-!
# Groups under new annotations

Making a group linear looks at names only. The annotations of the terms are handed on, and the
nodes that are made for a member carry copies of the one at the root of its term. So it makes no
difference whether annotations are replaced before a group is made linear or after
(`Group.letIn_map`).

There is one such statement for each step on the way: the components stay the same
(`Group.components_map`), and lifting (`Binding.lift_map`), the solvers and solutions of a knot
(`Knot.map_solve`, `Knot.map_solution`) and the bindings of a component (`Group.emit_map`) commute
with the replacement.
-/

namespace Letrec

variable {α β : Type} (f : α → β)

/-! ## Reports -/

namespace Logged

variable {γ δ ι : Type}

theorem map_mk (h : γ → δ) (value : γ) (log : List Event) :
    h <$> (⟨value, log⟩ : Logged γ) = ⟨h value, log⟩ :=
  congrArg (Logged.mk (h value)) (List.append_nil log)

theorem map_mapM (h : γ → δ) (e : ι → Logged γ) (l : List ι) :
    List.map h <$> l.mapM e = l.mapM fun i => h <$> e i := by
  induction l with
  | nil => simp
  | cons i l ih => simp [← ih]

end Logged

/-! ## Members -/

section
variable (b : Binding α)

@[simp] theorem Binding.name_map : (b.map f).name = b.name := rfl

@[simp] theorem Binding.term_map : (b.map f).term = b.term.map f := rfl

theorem Binding.lift_map (members : List Name) :
    (b.map f).lift members = (b.lift members).map f := by
  have hfold : members.foldl (fun t m => t.rename m (m.lifted b.name)) (b.term.map f) =
      (members.foldl (fun t m => t.rename m (m.lifted b.name)) b.term).map f :=
    List.foldl_hom (Term.map f) fun t m => (Term.map_rename f t m _).symm
  simp only [lift, name_map, term_map, Term.ann_map, hfold, Term.map_lamAll]

end

namespace Member

/-- The same member with every annotation replaced. -/
def map (m : Member α) : Member β := ⟨m.index, m.name, f m.ann, m.body.map f⟩

variable (m : Member α)

@[simp] theorem name_map : (m.map f).name = m.name := rfl

@[simp] theorem ann_map : (m.map f).ann = f m.ann := rfl

@[simp] theorem body_map : (m.map f).body = m.body.map f := rfl

@[simp] theorem value_map : (m.map f).value = m.value := rfl

@[simp] theorem solver_map : (m.map f).solver = m.solver := rfl

@[simp] theorem map_occurrence (x : Name) : (m.occurrence x).map f = (m.map f).occurrence x := rfl

theorem map_applyToValues (head : Term α) (later : List (Member α)) :
    ∀ scope : List (Term α), (m.applyToValues head scope later).map f =
      (m.map f).applyToValues (head.map f) (scope.map (Term.map f)) (later.map (map f)) := by
  induction later with
  | nil => exact fun scope => Term.map_applyAll f m.ann head scope
  | cons n later ih => exact fun scope => by simp [applyToValues, Term.map, ih]

end Member

/-! ## Knots -/

namespace Knot

theorem ofGroup_map (g : Group α) :
    ofGroup (g.map (Binding.map f)) = (ofGroup g).map (Member.map f) := by
  have hnames : (g.map (Binding.map f)).map Binding.name = g.map Binding.name := List.map_map
  rw [ofGroup, ofGroup, hnames, List.zipIdx_map, List.map_map, List.map_map]
  refine List.map_congr_left fun (b, i) _ => ?_
  simp [Member.map, Binding.lift_map]

variable (k : Knot α) (m : Member α)

theorem earlier_map : earlier (k.map (Member.map f)) (m.map f) = (k.earlier m).map (Member.map f) :=
  List.map_take.symm

theorem later_map : later (k.map (Member.map f)) (m.map f) = (k.later m).map (Member.map f) :=
  List.map_drop.symm

theorem map_equation (scope : List (Term α)) (head : Term α) {wrap : Term α → Term α}
    {wrap' : Term β → Term β} (hwrap : ∀ t, (wrap t).map f = wrap' (t.map f)) :
    (k.equation m scope head wrap).map f =
      equation (k.map (Member.map f)) (m.map f) (scope.map (Term.map f)) (head.map f) wrap' := by
  simp [equation, Term.map, hwrap, Member.map_applyToValues, later_map]

theorem map_solve : (k.solve m).map f = solve (k.map (Member.map f)) (m.map f) := by
  have hequation (scope : List (Term α)) : (k.equation m scope m.body id).map f =
      equation (k.map (Member.map f)) (m.map f) (scope.map (Term.map f)) (m.body.map f) id :=
    map_equation f k m scope m.body fun _ => rfl
  simp [solve, Term.map, hequation, earlier_map, Function.comp_def]

theorem map_bindSolvers (t : Term α) :
    (k.bindSolvers m t).map f = bindSolvers (k.map (Member.map f)) (m.map f) (t.map f) := by
  rw [bindSolvers, bindSolvers, later_map, List.foldl_map]
  refine (List.foldl_hom (Term.map f) fun t n => ?_).symm
  simp [Term.map, map_solve]

theorem map_solution : (k.solution m).map f = solution (k.map (Member.map f)) (m.map f) := by
  simp [solution, Term.map, map_equation f k m _ _ (map_bindSolvers f k m), earlier_map,
    Function.comp_def]

theorem bindings_map : bindings (k.map (Member.map f)) = k.bindings.map (Binding.map f) := by
  simp [bindings, List.flatMap_map, List.map_flatMap, Binding.map, map_solution]

end Knot

/-! ## Groups -/

namespace Group

variable (g : Group α)

theorem targets_map : targets (g.map (Binding.map f)) = g.targets := by
  have hlast : lastIdx? (g.map (Binding.map f)) = g.lastIdx? := by
    funext x
    rw [lastIdx?, lastIdx?, ← List.map_reverse, List.findIdx?_map, List.length_map]
    rfl
  funext i
  rw [targets, targets, List.getElem?_map, hlast]
  cases g[i]? with
  | none => rfl
  | some b => simp [Binding.references]

/-- The components do not depend on annotations. -/
theorem components_map : components (g.map (Binding.map f)) = g.components := by
  rw [components, components, targets_map, List.length_map]

theorem analyze_map : analyze (g.map (Binding.map f)) = g.analyze := by
  simp [analyze, components_map, Binding.references]

theorem select_map (positions : List Nat) :
    select (g.map (Binding.map f)) positions = (g.select positions).map (Binding.map f) := by
  simp only [select, List.getElem?_map, List.map_filterMap]

theorem emit_map (c : Component) :
    emit (g.map (Binding.map f)) c = List.map (Binding.map f) <$> g.emit c := by
  simp only [emit, select_map]
  split
  · simp [Logged.map_mk, Knot.ofGroup_map, Knot.bindings_map]
  · simp [Logged.map_mk]

theorem linearize_map :
    linearize (g.map (Binding.map f)) = List.map (Binding.map f) <$> g.linearize := by
  have hemit : emit (g.map (Binding.map f)) = fun c => List.map (Binding.map f) <$> g.emit c :=
    funext (emit_map f g)
  simp only [linearize, analyze_map, List.length_map, hemit, ← Logged.map_mapM, map_bind,
    bind_map_left, map_pure, List.map_flatten]

theorem map_nest (t : Term α) :
    (g.nest t).map f = nest (g.map (Binding.map f)) (t.map f) := by
  rw [nest, nest, List.foldr_map]
  refine (List.foldr_hom (Term.map f) fun b t => ?_).symm
  simp [Term.map]

/-- **Annotations are only handed on.** Replacing the annotations of a group and of the body around
which it is put, and then making the group linear, gives the term whose annotations are replaced in
the same way, and the same reports. -/
theorem letIn_map (body : Term α) :
    letIn (g.map (Binding.map f)) (body.map f) = Term.map f <$> g.letIn body := by
  simp only [letIn, linearize_map, map_bind, bind_map_left, map_pure, map_nest]

end Group

end Letrec
