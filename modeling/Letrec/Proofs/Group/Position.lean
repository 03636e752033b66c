import Letrec.Group.Linear
import Letrec.Proofs.Group.Knot
import Letrec.Proofs.Term.Path

/-!
# Where things stand in a knot

The solution of a member is a fixed point. Below it stand, from the outside in, the parameter for
its own value, the solvers of the later members with that of the last one outermost, the values of
the later members with that of the last one innermost, and an application to the values of all
members. `Knot.headPath` leads through all of it to the function that is applied, which is an
occurrence of the helper (`Knot.at_solution_head`), and `Knot.solverPath` to the term that the
solver of a later member is bound to (`Knot.at_solution_solver`). Both paths show what is bound on
the way.
-/

namespace Letrec

variable {α : Type}

/-! ## Terms -/

namespace Term

variable {t u v : Term α} {path path' : Path}

theorem At.append (h : t.At path u) (h' : u.At path' v) : t.At (path ++ path') v := by
  induction h with
  | root => exact h'
  | step hp _ ih => exact .step hp (ih h')

/-- The function that is applied stands below as many steps as there are arguments. -/
theorem at_applyAll (a : α) (f : Term α) (args : List (Term α)) :
    (applyAll a f args).At (List.replicate args.length .func) f := by
  induction args generalizing f with
  | nil => exact .root
  | cons s args ih =>
    have hfunc : (app a f s).At [.func] f := .step List.mem_cons_self .root
    rw [List.length_cons, List.replicate_succ']
    exact (ih (app a f s)).append hfunc

end Term

/-! ## Values -/

/-- The steps through the lets of values. -/
def Member.valueSteps (ms : List (Member α)) : Path := ms.map fun n => .body n.value

theorem Member.at_applyToValues (m : Member α) (head : Term α) (later : List (Member α)) :
    ∀ scope : List (Term α), (m.applyToValues head scope later).At
      (valueSteps later ++ List.replicate (scope.length + later.length) .func) head := by
  induction later with
  | nil => exact fun scope => Term.at_applyAll m.ann head scope
  | cons n later ih =>
    intro scope
    have hrest := ih (scope ++ [n.occurrence n.value])
    rw [List.length_append, List.length_singleton, Nat.add_assoc, Nat.add_comm 1] at hrest
    exact .step (List.mem_cons_of_mem _ List.mem_cons_self) hrest

namespace Knot

variable {k pre post mid rest : Knot α} {m n : Member α}

/-! ## Members by number -/

theorem Numbered.mem_later_iff (h : k.Numbered) {i : Nat} (hm : k[i]? = some m) :
    n ∈ k.later m ↔ ∃ j, i < j ∧ k[j]? = some n := by
  rw [later, h i m hm, List.mem_iff_getElem?]
  simp only [List.getElem?_drop]
  constructor
  · rintro ⟨j, hj⟩
    exact ⟨i + 1 + j, by omega, hj⟩
  · rintro ⟨j, hij, hj⟩
    refine ⟨j - (i + 1), ?_⟩
    rwa [Nat.add_sub_of_le hij]

/-- A knot is split at each of its members. -/
theorem Numbered.eq_append (h : k.Numbered) {i : Nat} (hm : k[i]? = some m) :
    k = k.earlier m ++ m :: k.later m := by
  obtain ⟨hlt, hget⟩ := List.getElem?_eq_some_iff.1 hm
  rw [earlier, later, h i m hm, ← hget, ← List.drop_eq_getElem_cons hlt, List.take_append_drop]

/-! ## Paths -/

/-- The steps through the lets of solvers, the last of which is outermost. -/
def solverSteps (ms : List (Member α)) : Path := ms.reverse.map fun n => .body n.solver

theorem at_foldl_solve (k : Knot α) (ms : List (Member α)) (t : Term α) :
    (ms.foldl (fun t n => .letIn n.ann n.solver (k.solve n) t) t).At (solverSteps ms) t := by
  induction ms generalizing t with
  | nil => exact .root
  | cons n ms ih =>
    have hbody : (Term.letIn n.ann n.solver (k.solve n) t).At [.body n.solver] t :=
      .step (List.mem_cons_of_mem _ List.mem_cons_self) .root
    rw [solverSteps, List.reverse_cons, List.map_append, List.map_singleton]
    exact (ih _).append hbody

/-- The way to the helper of `m` in its solution. -/
def headPath (k : Knot α) (m : Member α) : Path :=
  .fix :: .lam m.value :: (solverSteps (k.later m) ++
    (Member.valueSteps (k.later m) ++ List.replicate k.length .func))

/-- The way to the solver of a member in the solution of `m`, if `rest` are the members after it. -/
def solverPath (m : Member α) (rest : List (Member α)) (n : Member α) : Path :=
  .fix :: .lam m.value :: (solverSteps rest ++ [.bound n.solver])

theorem at_solution (k : Knot α) (m : Member α) :
    (k.solution m).At [.fix, .lam m.value] (k.bindSolvers m (m.applyToValues
      (m.occurrence m.name.helper)
      (((k.earlier m).map fun n => n.occurrence n.name) ++ [m.occurrence m.value]) (k.later m))) :=
  .step List.mem_cons_self (.step List.mem_cons_self .root)

/-- The solution of a member applies its helper. -/
theorem Numbered.at_solution_head (h : k.Numbered) (hk : k = pre ++ m :: post) :
    (k.solution m).At (k.headPath m) (m.occurrence m.name.helper) := by
  have hlength : (((k.earlier m).map fun n => n.occurrence n.name) ++
      [m.occurrence m.value]).length + (k.later m).length = k.length := by
    rw [h.earlier_eq hk, h.later_eq hk, hk]
    simp
    omega
  have hhead := (k.at_foldl_solve (k.later m) _).append
    (m.at_applyToValues (m.occurrence m.name.helper) (k.later m)
      (((k.earlier m).map fun n => n.occurrence n.name) ++ [m.occurrence m.value]))
  rw [hlength] at hhead
  exact (k.at_solution m).append hhead

/-- The solver of a later member stands below those of the members after it. -/
theorem Numbered.at_solution_solver (h : k.Numbered) (hk : k = pre ++ m :: (mid ++ n :: rest)) :
    (k.solution m).At (solverPath m rest n) (k.solve n) := by
  have hbound : ∀ t : Term α, (Term.letIn n.ann n.solver (k.solve n) t).At [.bound n.solver]
      (k.solve n) := fun t => .step List.mem_cons_self .root
  have hlets : ∀ t : Term α, (k.bindSolvers m t).At (solverSteps rest ++ [.bound n.solver])
      (k.solve n) := by
    intro t
    rw [bindSolvers, h.later_eq hk, List.foldl_append, List.foldl_cons]
    exact (k.at_foldl_solve rest _).append (hbound _)
  exact (k.at_solution m).append (hlets _)

/-- Helpers and solutions alternate. -/
theorem getElem?_bindingsOf_solution (k : Knot α) (ms : List (Member α)) (i : Nat) :
    (k.bindingsOf ms)[2 * i + 1]? = ms[i]?.map fun m => ⟨m.name, k.solution m⟩ := by
  induction ms generalizing i with
  | nil => rfl
  | cons m ms ih =>
    cases i with
    | zero => rfl
    | succ i =>
      rw [bindingsOf_cons, Nat.mul_succ, Nat.add_right_comm, List.getElem?_cons_succ,
        List.getElem?_cons_succ, ih, List.getElem?_cons_succ]

end Knot

/-- The emitted term of a member of a recursive component is its solution. -/
theorem Group.getElem?_emit_solution {g : Group α} {c : Component} (hcyclic : c.cyclic = true)
    {i : Nat} {m : Member α} (hm : (Knot.ofGroup (g.select c.members))[i]? = some m) :
    (g.emit c).value[2 * i + 1]? =
      some ⟨m.name, (Knot.ofGroup (g.select c.members)).solution m⟩ := by
  have hvalue : (g.emit c).value = (Knot.ofGroup (g.select c.members)).bindings := by
    rw [emit, if_pos hcyclic]
  rw [hvalue]
  refine (Knot.getElem?_bindingsOf_solution _ _ i).trans ?_
  rw [hm, Option.map_some]

end Letrec
