import Letrec.Proofs.Group.Emission
import Letrec.Proofs.Group.Lift
import Mathlib.Algebra.BigOperators.Fin
import Mathlib.Algebra.BigOperators.Intervals
import Mathlib.Algebra.Order.BigOperators.Group.Finset
import Mathlib.Algebra.Order.BigOperators.Group.LocallyFinite
import Mathlib.Algebra.Order.Group.Multiset
import Mathlib.Tactic.Ring

/-!
# The size of a tied component

Notation: a component has `k` members, and `i`, `j`, `l` are positions of members in it.

* `Term.BuiltFrom` splits a term into copies of given terms and nodes around them, and
  `Group.BuiltFrom` does so for all terms of a group. The sizes add up (`BuiltFrom.size_eq`).
* Inside a fixed point the value of a member is bound once, to its solver applied to all values
  before it (`Knot.valueNodes`), and its solver is bound once (`Knot.solverNodes`). A solver holds
  one copy of the body of its member. So the solution of member `i` holds one copy of the body of
  each member after it (`Knot.Numbered.builtFrom_solution`).
* Together with its helper, member `j` has its body copied `j + 1` times
  (`Knot.builtFrom_bindings_ofGroup`): once for each tail of the list of members that it is in
  (`Knot.sum_tails`).
* `Knot.overhead_le`: the other nodes are at most `14 * k ^ 4`, since no solver is bound inside
  another one.
* `Group.size_emit` collects this for the components of a group.
-/

namespace Letrec

variable {α : Type}

/-! ## Copies and nodes around them -/

namespace Term

/-- The term is made of the terms `parts`, each copied as often as it is listed, and of `own` nodes
around them. -/
inductive BuiltFrom : Multiset (Term α) → Nat → Term α → Prop
  | part (t : Term α) : BuiltFrom {t} 0 t
  | var (a : α) (m : Bool) (x : Name) : BuiltFrom 0 1 (.var a m x)
  | app {parts parts' : Multiset (Term α)} {own own' : Nat} {f s : Term α} (a : α) :
    BuiltFrom parts own f → BuiltFrom parts' own' s →
      BuiltFrom (parts + parts') (own + own' + 1) (.app a f s)
  | lam {parts : Multiset (Term α)} {own : Nat} {b : Term α} (a : α) (x : Name) :
    BuiltFrom parts own b → BuiltFrom parts (own + 1) (.lam a x b)
  | letIn {parts parts' : Multiset (Term α)} {own own' : Nat} {e b : Term α} (a : α) (x : Name) :
    BuiltFrom parts own e → BuiltFrom parts' own' b →
      BuiltFrom (parts + parts') (own + own' + 1) (.letIn a x e b)
  | fix {parts : Multiset (Term α)} {own : Nat} {b : Term α} (a : α) :
    BuiltFrom parts own b → BuiltFrom parts (own + 1) (.fix a b)

namespace BuiltFrom

variable {parts : Multiset (Term α)} {own : Nat} {t : Term α}

theorem size_eq (h : t.BuiltFrom parts own) : t.size = (parts.map size).sum + own := by
  induction h with
  | part t => rw [Multiset.map_singleton, Multiset.sum_singleton, Nat.add_zero]
  | var => rfl
  | app _ _ _ ihf ihs =>
    rw [size, ihf, ihs, Multiset.map_add, Multiset.sum_add]
    omega
  | lam _ _ _ ih | fix _ _ ih => rw [size, ih, Nat.add_assoc]
  | letIn _ _ _ _ ihe ihb =>
    rw [size, ihe, ihb, Multiset.map_add, Multiset.sum_add]
    omega

/-- An argument that is a variable costs itself and its application. -/
theorem applyAll (a : α) {args : List (Term α)} (hargs : ∀ s ∈ args, s.BuiltFrom 0 1)
    (h : t.BuiltFrom parts own) : (t.applyAll a args).BuiltFrom parts (own + 2 * args.length) := by
  induction args generalizing t own with
  | nil => exact h
  | cons s args ih =>
    obtain ⟨hs, hargs⟩ := List.forall_mem_cons.1 hargs
    have happ : (Term.app a t s).BuiltFrom parts (own + 2) := by simpa using h.app a hs
    rw [List.length_cons, Nat.mul_succ, Nat.add_comm _ 2, ← Nat.add_assoc]
    exact ih hargs happ

theorem lamAll (a : α) (params : List Name) (h : t.BuiltFrom parts own) :
    (t.lamAll a params).BuiltFrom parts (own + params.length) := by
  induction params with
  | nil => exact h
  | cons x params ih => exact ih.lam a x

end BuiltFrom

theorem size_lamAll (a : α) (params : List Name) (t : Term α) :
    (t.lamAll a params).size = t.size + params.length := by
  rw [((BuiltFrom.part t).lamAll a params).size_eq, Multiset.map_singleton, Multiset.sum_singleton,
    Nat.zero_add]

end Term

/-- A parameter for each member, around a term of the same size. -/
theorem Binding.size_lift (b : Binding α) (members : List Name) :
    (b.lift members).size = b.term.size + members.length := by
  have hfold : ∀ (ms : List Name) (t : Term α),
      (ms.foldl (fun t m => t.rename m (m.lifted b.name)) t).size = t.size := by
    intro ms
    induction ms with
    | nil => exact fun _ => rfl
    | cons m ms ih => exact fun t => (ih _).trans (t.size_rename m _)
  rw [Binding.lift, Term.size_lamAll, hfold, List.length_map]

namespace Group

/-- The number of nodes of all terms. -/
def size (g : Group α) : Nat := (g.map fun b => b.term.size).sum

/-- The terms of the group are made of the terms `parts` and of `own` nodes around them. -/
inductive BuiltFrom : Multiset (Term α) → Nat → Group α → Prop
  | nil : BuiltFrom 0 0 []
  | cons {parts parts' : Multiset (Term α)} {own own' : Nat} {b : Binding α} {g : Group α} :
    b.term.BuiltFrom parts own → BuiltFrom parts' own' g →
      BuiltFrom (parts + parts') (own + own') (b :: g)

theorem BuiltFrom.size_eq {parts : Multiset (Term α)} {own : Nat} {g : Group α}
    (h : g.BuiltFrom parts own) : g.size = (parts.map Term.size).sum + own := by
  induction h with
  | nil => rfl
  | cons hb _ ih =>
    rw [size] at ih
    rw [size, List.map_cons, List.sum_cons, hb.size_eq, ih, Multiset.map_add, Multiset.sum_add]
    omega

end Group

namespace Knot

/-! ## The parts of a solution -/

/-- The nodes that bind the values of the members from `i` on. -/
def valueNodes (k i : Nat) : Nat := ∑ l ∈ Finset.Ico i k, (2 + 2 * l)

/-- The nodes that bind the solver of member `l`, apart from the body. -/
def solverNodes (k l : Nat) : Nat := 3 + l + 2 * k + valueNodes k (l + 1)

/-- The nodes of the solution of member `i`, apart from the bodies. -/
def solutionNodes (k i : Nat) : Nat :=
  3 + 2 * k + valueNodes k (i + 1) + ∑ l ∈ Finset.Ico (i + 1) k, solverNodes k l

/-- The nodes of all bindings, apart from the bodies. -/
def overhead (k : Nat) : Nat := ∑ i ∈ Finset.range k, solutionNodes k i

theorem valueNodes_of_lt {k i : Nat} (h : i < k) :
    valueNodes k i = 2 + 2 * i + valueNodes k (i + 1) :=
  Finset.sum_eq_sum_Ico_succ_bot h _

theorem builtFrom_applyToValues (m : Member α) {parts : Multiset (Term α)} {own k : Nat}
    {head : Term α} (h : head.BuiltFrom parts own) {later : List (Member α)} :
    ∀ (scope : List (Term α)), (∀ t ∈ scope, t.BuiltFrom 0 1) →
      scope.length + later.length = k →
      (m.applyToValues head scope later).BuiltFrom parts
        (own + 2 * k + valueNodes k scope.length) := by
  induction later with
  | nil =>
    intro scope hscope hk
    obtain rfl : scope.length = k := hk
    rw [Member.applyToValues, valueNodes, Finset.Ico_self, Finset.sum_empty]
    exact h.applyAll m.ann hscope
  | cons n later ih =>
    intro scope hscope hk
    rw [List.length_cons] at hk
    have hlength : (scope ++ [n.occurrence n.value]).length = scope.length + 1 :=
      List.length_append
    have hvalue : ((n.occurrence n.solver).applyAll n.ann scope).BuiltFrom 0
        (1 + 2 * scope.length) := (Term.BuiltFrom.var ..).applyAll n.ann hscope
    have hrest := ih (scope ++ [n.occurrence n.value])
      (List.forall_mem_append.2 ⟨hscope, List.forall_mem_singleton.2 (.var ..)⟩) (by omega)
    have hlet := hvalue.letIn n.ann n.value hrest
    have hown : own + 2 * k + valueNodes k scope.length =
        1 + 2 * scope.length + (own + 2 * k + valueNodes k (scope.length + 1)) + 1 := by
      rw [valueNodes_of_lt (by omega)]
      omega
    rw [hlength, Multiset.zero_add, ← hown] at hlet
    exact hlet

section
variable {k pre post : Knot α} {m : Member α} {parts : Multiset (Term α)} {own : Nat}

/-- An application to the values of all members, those before `m` under the names `f`. -/
theorem Numbered.builtFrom_applyToValues (h : k.Numbered) (hk : k = pre ++ m :: post)
    (f : Member α → Name) {head : Term α} (hhead : head.BuiltFrom parts own) :
    (m.applyToValues head (((k.earlier m).map fun n => n.occurrence (f n)) ++
      [m.occurrence m.value]) (k.later m)).BuiltFrom parts
        (own + 2 * k.length + valueNodes k.length (pre.length + 1)) := by
  have hlength : ((pre.map fun n => n.occurrence (f n)) ++ [m.occurrence m.value]).length =
      pre.length + 1 := by
    rw [List.length_append, List.length_map, List.length_singleton]
  have hsplit : k.length = pre.length + (post.length + 1) := by
    rw [hk, List.length_append, List.length_cons]
  rw [h.earlier_eq hk, h.later_eq hk, ← hlength]
  refine Knot.builtFrom_applyToValues m hhead _ (List.forall_mem_append.2 ⟨?_, ?_⟩) (by omega)
  · exact List.forall_mem_map.2 fun n _ => .var ..
  · exact List.forall_mem_singleton.2 (.var ..)

/-- A solver holds the body of its member. -/
theorem Numbered.builtFrom_solve (h : k.Numbered) (hk : k = pre ++ m :: post) :
    (k.solve m).BuiltFrom {m.body}
      (2 * k.length + valueNodes k.length (pre.length + 1) + 2 + pre.length) := by
  have hvalues := h.builtFrom_applyToValues hk Member.value (.part m.body)
  have hsolve := ((hvalues.lam m.ann m.value).fix m.ann).lamAll m.ann
    ((k.earlier m).map Member.value)
  rw [List.length_map, h.earlier_eq hk, Nat.zero_add] at hsolve
  rw [solve, h.earlier_eq hk]
  exact hsolve

/-- The solvers are bound once each. -/
theorem Numbered.builtFrom_bindSolvers (h : k.Numbered) {post : List (Member α)} :
    ∀ (pre : List (Member α)) {parts : Multiset (Term α)} {own : Nat} {t : Term α},
      k = pre ++ post → t.BuiltFrom parts own →
      (post.foldl (fun t n => .letIn n.ann n.solver (k.solve n) t) t).BuiltFrom
        (parts + Multiset.ofList (post.map Member.body))
        (own + ∑ l ∈ Finset.Ico pre.length k.length, solverNodes k.length l) := by
  induction post with
  | nil =>
    intro pre parts own t hk ht
    rw [hk, List.append_nil, Finset.Ico_self, Finset.sum_empty]
    simpa using ht
  | cons n post ih =>
    intro pre parts own t hk ht
    have hk' : k = (pre ++ [n]) ++ post := by simp [hk]
    have hlt : pre.length < k.length := by simp [hk]
    have hrest := ih (pre ++ [n]) hk' ((h.builtFrom_solve hk).letIn n.ann n.solver ht)
    rw [List.length_append, List.length_singleton] at hrest
    have hparts : parts + Multiset.ofList ((n :: post).map Member.body) =
        {n.body} + parts + Multiset.ofList (post.map Member.body) := by
      rw [List.map_cons, ← Multiset.cons_coe, ← Multiset.singleton_add, ← add_assoc,
        add_comm parts]
    have hown : own + ∑ l ∈ Finset.Ico pre.length k.length, solverNodes k.length l =
        2 * k.length + valueNodes k.length (pre.length + 1) + 2 + pre.length + own + 1 +
          ∑ l ∈ Finset.Ico (pre.length + 1) k.length, solverNodes k.length l := by
      rw [Finset.sum_eq_sum_Ico_succ_bot hlt, solverNodes]
      omega
    rw [hparts, hown]
    exact hrest

/-- A solution holds the body of each member after its own. -/
theorem Numbered.builtFrom_solution (h : k.Numbered) (hk : k = pre ++ m :: post) :
    (k.solution m).BuiltFrom (Multiset.ofList (post.map Member.body))
      (solutionNodes k.length pre.length) := by
  have hvalues := h.builtFrom_applyToValues hk Member.name (.var m.ann false m.name.helper)
  have hk' : k = (pre ++ [m]) ++ post := by simp [hk]
  have hsolvers := h.builtFrom_bindSolvers (pre ++ [m]) hk' hvalues
  have hfix := (hsolvers.lam m.ann m.value).fix m.ann
  have hown : solutionNodes k.length pre.length =
      1 + 2 * k.length + valueNodes k.length (pre.length + 1) +
        ∑ l ∈ Finset.Ico (pre.length + 1) k.length, solverNodes k.length l + 1 + 1 := by
    unfold solutionNodes
    omega
  rw [List.length_append, List.length_singleton, Multiset.zero_add, ← hown] at hfix
  rw [solution, equation, bindSolvers, h.later_eq hk]
  rw [h.later_eq hk] at hfix
  exact hfix

/-! ## All bindings of a knot -/

/-- A helper is a copy of the body, and a solution holds the bodies after it. -/
theorem Numbered.builtFrom_bindingsOf (h : k.Numbered) {ms : List (Member α)} :
    ∀ (pre : List (Member α)), k = pre ++ ms →
      (k.bindingsOf ms).BuiltFrom ((ms.map Member.body).tails.map Multiset.ofList).sum
        (∑ i ∈ Finset.Ico pre.length k.length, solutionNodes k.length i) := by
  induction ms with
  | nil =>
    intro pre hk
    rw [hk, List.append_nil, Finset.Ico_self, Finset.sum_empty]
    exact .nil
  | cons m ms ih =>
    intro pre hk
    have hk' : k = (pre ++ [m]) ++ ms := by simp [hk]
    have hlt : pre.length < k.length := by simp [hk]
    have hrest := ih (pre ++ [m]) hk'
    rw [List.length_append, List.length_singleton] at hrest
    have hmember := Group.BuiltFrom.cons (b := ⟨m.name.helper, m.body⟩) (.part m.body)
      (.cons (b := ⟨m.name, k.solution m⟩) (h.builtFrom_solution hk) hrest)
    rw [Finset.sum_eq_sum_Ico_succ_bot hlt]
    rw [List.map_cons, List.tails_cons, List.map_cons, List.sum_cons, ← Multiset.cons_coe,
      ← Multiset.singleton_add, add_assoc]
    rw [Nat.zero_add] at hmember
    exact hmember

/-- A list is the sum of its elements. -/
theorem ofList_map_eq_sum {β : Type} (f : β → Term α) (l : List β) :
    Multiset.ofList (l.map f) = ∑ j : Fin l.length, {f l[j]} := by
  calc Multiset.ofList (l.map f)
      = ((Multiset.ofList (l.map f)).map ({·})).sum := (Multiset.sum_map_singleton _).symm
    _ = (l.map fun b => {f b}).sum := by rw [Multiset.map_coe, Multiset.sum_coe, List.map_map]; rfl
    _ = ∑ j : Fin l.length, {f l[j]} := (Fin.sum_univ_fun_getElem l _).symm

/-- An element is in one tail of the list for each position up to its own. -/
theorem sum_tails {β : Type} (f : β → Term α) (l : List β) :
    ((l.map f).tails.map Multiset.ofList).sum = ∑ j : Fin l.length, (j.val + 1) • {f l[j]} := by
  induction l with
  | nil => rfl
  | cons b l ih =>
    calc (((b :: l).map f).tails.map Multiset.ofList).sum
        = {f b} + Multiset.ofList (l.map f) + ((l.map f).tails.map Multiset.ofList).sum := by
          rw [List.map_cons, List.tails_cons, List.map_cons, List.sum_cons, ← Multiset.cons_coe,
            ← Multiset.singleton_add]
      _ = {f b} + ∑ j : Fin l.length, ({f l[j]} + (j.val + 1) • {f l[j]}) := by
          rw [ih, ofList_map_eq_sum, add_assoc, Finset.sum_add_distrib]
      _ = {f b} + ∑ j : Fin l.length, (j.val + 1 + 1) • {f l[j]} := by
          simp only [succ_nsmul' _ (_ + 1)]
      _ = (0 + 1) • {f b} + ∑ j : Fin l.length, (j.val + 1 + 1) • {f l[j]} := by
          rw [Nat.zero_add, one_nsmul]
      _ = ∑ j : Fin (b :: l).length, (j.val + 1) • {f (b :: l)[j]} :=
          (Fin.sum_univ_succ fun j : Fin (l.length + 1) =>
            (j.val + 1) • ({f (b :: l)[j]} : Multiset (Term α))).symm

end

theorem length_ofGroup (g : Group α) : (ofGroup g).length = g.length := by
  rw [ofGroup, List.length_map, List.length_zipIdx]

/-- The bindings of a component hold `j + 1` copies of the lifted term of member `j`. -/
theorem builtFrom_bindings_ofGroup (g : Group α) :
    (ofGroup g).bindings.BuiltFrom
      (∑ j : Fin g.length, (j.val + 1) • {g[j].lift (g.map Binding.name)})
      (overhead g.length) := by
  have hall := (numbered_ofGroup g).builtFrom_bindingsOf [] (List.nil_append _).symm
  have hbody : (ofGroup g).map Member.body = g.map (Binding.lift (g.map Binding.name)) :=
    map_ofGroup fun _ _ => rfl
  rw [hbody, sum_tails, List.length_nil, ← Finset.range_eq_Ico, length_ofGroup] at hall
  exact hall

theorem length_bindings (k : Knot α) : k.bindings.length = 2 * k.length := by
  simp [bindings, List.length_flatMap, Nat.mul_comm]

/-! ## The bound -/

theorem sum_Ico_le {f : Nat → Nat} {i k n : Nat} (h : ∀ l < k, f l ≤ n) :
    ∑ l ∈ Finset.Ico i k, f l ≤ k * n := by
  have hcard := Finset.sum_le_card_nsmul (Finset.Ico i k) f n
    fun l hl => h l (Finset.mem_Ico.1 hl).2
  rw [Nat.card_Ico, smul_eq_mul] at hcard
  exact hcard.trans (Nat.mul_le_mul_right n (Nat.sub_le k i))

theorem valueNodes_le (k i : Nat) : valueNodes k i ≤ 2 * k ^ 2 := by
  calc valueNodes k i ≤ k * (2 * k) := sum_Ico_le fun l hl => by omega
    _ = 2 * k ^ 2 := by ring

theorem solverNodes_le {k l : Nat} (h : l < k) : solverNodes k l ≤ 7 * k ^ 2 := by
  have hvalues := valueNodes_le k (l + 1)
  have hpos : 1 ≤ k := by omega
  have hk : k ≤ k ^ 2 := Nat.le_self_pow (by decide) k
  unfold solverNodes
  omega

theorem solutionNodes_le {k i : Nat} (h : i < k) : solutionNodes k i ≤ 14 * k ^ 3 := by
  have hvalues := valueNodes_le k (i + 1)
  have hsolvers : ∑ l ∈ Finset.Ico (i + 1) k, solverNodes k l ≤ k * (7 * k ^ 2) :=
    sum_Ico_le fun l hl => solverNodes_le hl
  have hpos : 1 ≤ k := by omega
  have hk : k ≤ k ^ 2 := Nat.le_self_pow (by decide) k
  have hk' : k ^ 2 ≤ k ^ 3 := Nat.pow_le_pow_right hpos (by decide)
  have hmul : k * (7 * k ^ 2) = 7 * k ^ 3 := by ring
  unfold solutionNodes
  omega

theorem overhead_le (k : Nat) : overhead k ≤ 14 * k ^ 4 := by
  rw [overhead, Finset.range_eq_Ico]
  calc ∑ i ∈ Finset.Ico 0 k, solutionNodes k i ≤ k * (14 * k ^ 3) :=
        sum_Ico_le fun i hi => solutionNodes_le hi
    _ = 14 * k ^ 4 := by ring

end Knot

/-! ## Components -/

namespace Group

/-- The nodes of copies, each as often as it is listed. -/
theorem sum_size_copies {n : Nat} (c : Fin n → Nat) (f : Fin n → Term α) :
    (Multiset.map Term.size (∑ j, c j • {f j})).sum = ∑ j, c j * (f j).size := by
  let nodes : Multiset (Term α) →+ Nat :=
    Multiset.sumAddMonoidHom.comp (Multiset.mapAddMonoidHom Term.size)
  have hsum : nodes (∑ j, c j • {f j}) = ∑ j, nodes (c j • {f j}) := map_sum nodes _ _
  refine hsum.trans (Finset.sum_congr rfl fun j _ => ?_)
  rw [map_nsmul, smul_eq_mul]
  exact congrArg (c j * ·) (Multiset.sum_singleton _)

/-- **The size of a tied component is polynomial.** The terms that a recursive component of `k`
members gives rise to are made of `j + 1` copies of the lifted term of each member `j` and of nodes
around them. The number of these depends on `k` only, and is at most `14 * k ^ 4`. -/
theorem size_emit {g : Group α} {c : Component} (hc : c ∈ g.components)
    (hcyclic : c.cyclic = true) :
    let members := g.select c.members
    let k := members.length
    let out := (g.emit c).value
    k = c.members.length ∧ out.length = 2 * k ∧
      out.BuiltFrom (∑ j : Fin k, (j.val + 1) • {members[j].lift (g.namesOf c)})
        (Knot.overhead k) ∧
      out.size = ∑ j : Fin k, (j.val + 1) * (members[j].term.size + k) + Knot.overhead k ∧
      Knot.overhead k ≤ 14 * k ^ 4 := by
  intro members k out
  have hlt : ∀ i ∈ c.members, i < g.length :=
    fun i hi => g.decomposition_components.lt_length hc hi
  have hout : out = (Knot.ofGroup members).bindings :=
    congrArg Logged.value (if_pos hcyclic)
  have hlength : out.length = 2 * k := by
    rw [hout, Knot.length_bindings, Knot.length_ofGroup]
  have hbuilt : out.BuiltFrom (∑ j : Fin k, (j.val + 1) • {members[j].lift (g.namesOf c)})
      (Knot.overhead k) := hout ▸ Knot.builtFrom_bindings_ofGroup members
  refine ⟨(forall₂_select hlt).length_eq.symm, hlength, hbuilt, ?_, Knot.overhead_le k⟩
  rw [hbuilt.size_eq, sum_size_copies]
  simp only [Binding.size_lift, namesOf, List.length_map]
  rfl

/-- `a = b; b = \x -> c; c = a a`. -/
def ring : Group Unit :=
  [⟨⟨"a"⟩, .var () false ⟨"b"⟩⟩,
   ⟨⟨"b"⟩, .lam () ⟨"x"⟩ (.var () false ⟨"c"⟩)⟩,
   ⟨⟨"c"⟩, .app () (.var () false ⟨"a"⟩) (.var () false ⟨"a"⟩)⟩]

theorem size_emit_ring :
    ⟨[0, 1, 2], true⟩ ∈ ring.components ∧
      (ring.emit ⟨[0, 1, 2], true⟩).value.size = 1 * (1 + 3) + 2 * (2 + 3) + 3 * (3 + 3) + 81 := by
  have hc : ⟨[0, 1, 2], true⟩ ∈ ring.components := by decide +kernel
  obtain ⟨-, -, -, hsize, -⟩ := size_emit hc rfl
  exact ⟨hc, hsize.trans (by decide)⟩

end Group

end Letrec
