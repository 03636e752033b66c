import Letrec.Proofs.Group.Closure
import Letrec.Proofs.Group.Hygiene
import Letrec.Proofs.Group.Position

/-!
# What a knot refers to

`Knot.Closed.mem_free_solution` bounds what a solution leaves unbound. Here the bound is shown to be
exact. A name gets lost only if it is bound on the way, where values and solvers are bound. Members
and the names in bodies are plain, so they are neither, and nor is a helper if no member has an
empty name. So a solver refers to the solvers after it and to all that its body refers to
(`Knot.Closed.mem_free_solve_iff`), and a solution to its helper, to the members before it and to
all that the bodies after it refer to (`Knot.Closed.mem_free_solution_iff`).

For a component these are the names that the terms refer to outside of it (`Group.emit_free_iff`).
-/

namespace Letrec

variable {α : Type} {x : Name} {t : Term α}

/-- Lifting takes no plain name but those of the members out of a term. -/
theorem Binding.mem_free_lift_iff {b : Binding α} {members : List Name}
    (hplain : ∀ y ∈ b.term.free, y.Plain) :
    x ∈ (b.lift members).free ↔ x ∈ b.term.free ∧ x ∉ members :=
  ⟨mem_free_lift, fun ⟨hx, hmem⟩ => mem_free_lift_of_plain (hplain x hx) hmem hx⟩

namespace Knot

variable {k pre post : Knot α} {m : Member α}

/-! ## Names that are bound for values and solvers -/

/-- Lets of values take nothing but these values. -/
theorem mem_free_applyToValues_of {head : Term α} {later : List (Member α)}
    (hvalue : x ∉ later.map Member.value) : ∀ {scope : List (Term α)},
      x ∈ head.free ∨ (∃ t ∈ scope, x ∈ t.free) ∨ x ∈ later.map Member.solver →
        x ∈ (m.applyToValues head scope later).free := by
  induction later with
  | nil =>
    intro scope hx
    exact Term.mem_free_applyAll.2 (hx.imp_right fun hx => hx.resolve_right List.not_mem_nil)
  | cons n later ih =>
    intro scope hx
    rw [List.map_cons, List.mem_cons, not_or] at hvalue
    refine Term.mem_free_letIn.2 ⟨?_, hvalue.1⟩
    rcases hx with hhead | ⟨t, ht, hx⟩ | hsolver
    · exact .inr (ih hvalue.2 (.inl hhead))
    · exact .inr (ih hvalue.2 (.inr (.inl ⟨t, List.mem_append_left _ ht, hx⟩)))
    · rcases List.mem_cons.1 hsolver with rfl | hsolver
      · exact .inl (Term.mem_free_applyAll.2 (.inl (Term.mem_free_var.2 rfl)))
      · exact .inr (ih hvalue.2 (.inr (.inr hsolver)))

/-- Lets of solvers take nothing but these solvers. -/
theorem mem_free_foldl_solve_of {ms : List (Member α)} (hsolver : x ∉ ms.map Member.solver)
    (hx : x ∈ t.free ∨ ∃ n ∈ ms, x ∈ (k.solve n).free) :
    x ∈ (ms.foldl (fun t n => .letIn n.ann n.solver (k.solve n) t) t).free := by
  induction ms generalizing t with
  | nil => exact hx.resolve_right fun ⟨_, hn, _⟩ => List.not_mem_nil hn
  | cons n ms ih =>
    rw [List.map_cons, List.mem_cons, not_or] at hsolver
    refine ih hsolver.2 ?_
    rcases hx with hx | ⟨q, hq, hx⟩
    · exact .inl (Term.mem_free_letIn.2 ⟨.inr hx, hsolver.1⟩)
    · rcases List.mem_cons.1 hq with rfl | hq
      · exact .inl (Term.mem_free_letIn.2 ⟨.inl hx, hsolver.1⟩)
      · exact .inr ⟨q, hq, hx⟩

/-! ## Solvers and solutions -/

/-- A solver refers to the solvers after it and to what its body refers to. -/
theorem Closed.mem_free_solve_iff (h : k.Closed) (hm : m ∈ k) :
    x ∈ (k.solve m).free ↔ x ∈ m.body.free ∨ x ∈ (k.later m).map Member.solver := by
  refine ⟨mem_free_solve, fun hx => ?_⟩
  have hvalue : ∀ n : Member α, x ≠ n.value := by
    rintro n rfl
    rcases hx with hbody | hsolver
    · exact n.name.not_plain_value n.index (h.plain_body m hm _ hbody)
    · obtain ⟨q, -, hq⟩ := List.mem_map.1 hsolver
      exact Name.solver_ne_value hq
  have hvalues : ∀ ms : List (Member α), x ∉ ms.map Member.value := by
    intro ms hmem
    obtain ⟨n, -, hn⟩ := List.mem_map.1 hmem
    exact hvalue n hn.symm
  refine Term.mem_free_lamAll.2 ⟨Term.mem_free_fix.2 (Term.mem_free_lam.2 ⟨?_, hvalue m⟩), hvalues _⟩
  exact mem_free_applyToValues_of (hvalues _) (hx.imp_right .inr)

/-- What a solution refers to is plain, except for its helper. -/
theorem Closed.plain_of_mem_free_solution (h : k.Closed) (hk : k = pre ++ m :: post)
    (hx : x = m.name.helper ∨ x ∈ pre.map Member.name ∨ ∃ n ∈ post, x ∈ n.body.free) :
    x = m.name.helper ∨ x.Plain := by
  refine hx.imp_right fun hx => ?_
  rcases hx with hpre | ⟨n, hn, hbody⟩
  · obtain ⟨q, hq, rfl⟩ := List.mem_map.1 hpre
    exact h.plain_name q (hk ▸ List.mem_append_left _ hq)
  · refine h.plain_body n ?_ x hbody
    rw [hk]
    exact List.mem_append_right pre (List.mem_cons_of_mem m hn)

/-- Nothing of the kind is a value or a solver of a member whose name is not empty. -/
theorem ne_value_and_ne_solver {n : Member α} (hm : m.name.Plain) (hn : n.name.text ≠ "")
    (hx : x = m.name.helper ∨ x.Plain) : x ≠ n.value ∧ x ≠ n.solver := by
  rcases hx with rfl | hplain
  · exact ⟨Name.helper_ne_value hm hn, Name.helper_ne_solver hm hn⟩
  · constructor
    · rintro rfl
      exact n.name.not_plain_value n.index hplain
    · rintro rfl
      exact n.name.not_plain_solver n.index hplain

section
variable (h : k.Closed) (hne : ∀ n ∈ k, n.name.text ≠ "") (hk : k = pre ++ m :: post)
include h hne hk

/-- A solution refers to its helper, to the members before it and to what the bodies after it refer
to. -/
theorem Closed.mem_free_solution_iff : x ∈ (k.solution m).free ↔
    x = m.name.helper ∨ x ∈ pre.map Member.name ∨ ∃ n ∈ post, x ∈ n.body.free := by
  refine ⟨h.mem_free_solution hk, fun hx => ?_⟩
  have hm : m ∈ k := hk ▸ List.mem_append_right pre List.mem_cons_self
  have hpost : ∀ n ∈ post, n ∈ k := fun n hn =>
    hk ▸ List.mem_append_right pre (List.mem_cons_of_mem m hn)
  have hbound : ∀ n ∈ k, x ≠ n.value ∧ x ≠ n.solver := fun n hn =>
    ne_value_and_ne_solver (h.plain_name m hm) (hne n hn) (h.plain_of_mem_free_solution hk hx)
  have hvalues : x ∉ post.map Member.value := by
    intro hmem
    obtain ⟨n, hn, rfl⟩ := List.mem_map.1 hmem
    exact (hbound n (hpost n hn)).1 rfl
  have hsolvers : x ∉ post.map Member.solver := by
    intro hmem
    obtain ⟨n, hn, rfl⟩ := List.mem_map.1 hmem
    exact (hbound n (hpost n hn)).2 rfl
  simp only [solution, equation, bindSolvers, h.earlier_eq hk, h.later_eq hk, Term.mem_free_fix,
    Term.mem_free_lam]
  refine ⟨mem_free_foldl_solve_of hsolvers ?_, (hbound m hm).1⟩
  rcases hx with rfl | hpre | ⟨n, hn, hbody⟩
  · exact .inl (mem_free_applyToValues_of hvalues (.inl (Term.mem_free_var.2 rfl)))
  · obtain ⟨s, hs, hx⟩ := mem_free_occurrences.2 hpre
    exact .inl (mem_free_applyToValues_of hvalues
      (.inr (.inl ⟨s, List.mem_append_left _ hs, hx⟩)))
  · exact .inr ⟨n, hn, (h.mem_free_solve_iff (hpost n hn)).2 (.inl hbody)⟩

/-- Values and solvers do not escape from a solution. -/
theorem Closed.value_and_solver_not_mem_free_solution {n : Member α} (hn : n ∈ k) :
    n.value ∉ (k.solution m).free ∧ n.solver ∉ (k.solution m).free := by
  have hm : m ∈ k := hk ▸ List.mem_append_right pre List.mem_cons_self
  have hfree : ∀ y ∈ (k.solution m).free, y ≠ n.value ∧ y ≠ n.solver := fun y hy =>
    ne_value_and_ne_solver (h.plain_name m hm) (hne n hn)
      (h.plain_of_mem_free_solution hk (h.mem_free_solution hk hy))
  exact ⟨fun hy => (hfree _ hy).1 rfl, fun hy => (hfree _ hy).2 rfl⟩

end

/-! ## Members by number -/

theorem Numbered.mem_solver_later_iff (h : k.Numbered) {i : Nat} (hm : k[i]? = some m) :
    x ∈ (k.later m).map Member.solver ↔
      ∃ l y, i < l ∧ (k.map Member.name)[l]? = some y ∧ x = y.solver l := by
  constructor
  · intro hx
    obtain ⟨n, hn, rfl⟩ := List.mem_map.1 hx
    obtain ⟨l, hil, hl⟩ := (h.mem_later_iff hm).1 hn
    refine ⟨l, n.name, hil, ?_, ?_⟩
    · rw [List.getElem?_map, hl, Option.map_some]
    · rw [Member.solver, h l n hl]
  · rintro ⟨l, y, hil, hy, rfl⟩
    rw [List.getElem?_map, Option.map_eq_some_iff] at hy
    obtain ⟨n, hl, rfl⟩ := hy
    refine List.mem_map.2 ⟨n, (h.mem_later_iff hm).2 ⟨l, hil, hl⟩, ?_⟩
    rw [Member.solver, h l n hl]

/-- The solver of a later member stands in the scope of the solvers after it. -/
theorem Numbered.exists_at_solve (h : k.Numbered) {i j : Nat} {n : Member α}
    (hm : k[i]? = some m) (hn : k[j]? = some n) (hij : i < j) :
    ∃ path, (k.solution m).At (path ++ [.bound n.solver]) (k.solve n) ∧
      ∀ y ∈ (k.later n).map Member.solver, Step.body y ∈ path := by
  have hlater : n ∈ k.later m := (h.mem_later_iff hm).2 ⟨j, hij, hn⟩
  obtain ⟨mid, rest, hrest⟩ := List.append_of_mem hlater
  have hk : k = k.earlier m ++ m :: (mid ++ n :: rest) := hrest ▸ h.eq_append hm
  refine ⟨.fix :: .lam m.value :: solverSteps rest, h.at_solution_solver hk, fun y hy => ?_⟩
  have hk' : k = (k.earlier m ++ m :: mid) ++ n :: rest := by
    rw [List.append_assoc, List.cons_append, ← hk]
  rw [h.later_eq hk'] at hy
  obtain ⟨q, hq, rfl⟩ := List.mem_map.1 hy
  exact List.mem_cons_of_mem _ (List.mem_cons_of_mem _
    (List.mem_map.2 ⟨q, List.mem_reverse.2 hq, rfl⟩))

/-- No value and no solver escapes from a solution, and it refers to no member from its own on. -/
theorem Closed.not_escape (h : k.Closed) (hne : ∀ n ∈ k, n.name.text ≠ "") {i l : Nat}
    {n : Member α} (hm : k[i]? = some m) (hn : k[l]? = some n) :
    n.name.value l ∉ (k.solution m).free ∧ n.name.solver l ∉ (k.solution m).free ∧
      (i ≤ l → n.name ∉ (k.solution m).free) := by
  have hk : k = k.earlier m ++ m :: k.later m := Numbered.eq_append h.numbered hm
  have hbound := h.value_and_solver_not_mem_free_solution hne hk (List.mem_of_getElem? hn)
  rw [Member.value, Member.solver, h.numbered l n hn] at hbound
  refine ⟨hbound.1, hbound.2, fun hil => h.not_mem_free_solution hk ?_⟩
  rcases Nat.lt_or_eq_of_le hil with hil | rfl
  · exact List.mem_cons_of_mem _ ((Numbered.mem_later_iff h.numbered hm).2 ⟨l, hil, hn⟩)
  · obtain rfl := Option.some.inj (hm.symm.trans hn)
    exact List.mem_cons_self

end Knot

/-! ## Components -/

namespace Group

variable {g : Group α} {c : Component}

/-- What the term of a member refers to outside of the component. -/
def outer (g : Group α) (c : Component) (b : Binding α) : List Name :=
  b.term.free.filter (· ∉ g.namesOf c)

theorem mem_outer {b : Binding α} : x ∈ g.outer c b ↔ x ∈ b.term.free ∧ x ∉ g.namesOf c := by
  rw [outer, List.mem_filter, decide_eq_true_iff]

section
variable (hfree : ∀ b ∈ g.select c.members, ∀ y ∈ b.term.free, y.Plain)
include hfree

/-- The body of a member refers to what its term refers to outside of the component. -/
theorem mem_free_body_iff {l : Nat} {n : Member α}
    (hn : (Knot.ofGroup (g.select c.members))[l]? = some n) {d : Binding α}
    (hd : (g.select c.members)[l]? = some d) : x ∈ n.body.free ↔ x ∈ g.outer c d := by
  obtain ⟨d', hd', rfl⟩ := Knot.getElem?_ofGroup.1 hn
  obtain rfl := Option.some.inj (hd.symm.trans hd')
  rw [mem_outer]
  exact Binding.mem_free_lift_iff (hfree d (List.mem_of_getElem? hd))

/-- The same of the members after a position. -/
theorem exists_mem_free_later_iff {i : Nat} {m : Member α}
    (hm : (Knot.ofGroup (g.select c.members))[i]? = some m) :
    (∃ n ∈ (Knot.ofGroup (g.select c.members)).later m, x ∈ n.body.free) ↔
      ∃ l d, i < l ∧ (g.select c.members)[l]? = some d ∧ x ∈ g.outer c d := by
  have hlater := fun n => (Knot.numbered_ofGroup (g.select c.members)).mem_later_iff (n := n) hm
  constructor
  · rintro ⟨n, hn, hx⟩
    obtain ⟨l, hil, hl⟩ := (hlater n).1 hn
    obtain ⟨d, hd, -⟩ := Knot.getElem?_ofGroup.1 hl
    exact ⟨l, d, hil, hd, (mem_free_body_iff hfree hl hd).1 hx⟩
  · rintro ⟨l, d, hil, hd, hx⟩
    have hl := Knot.getElem?_ofGroup.2 ⟨d, hd, rfl⟩
    exact ⟨_, (hlater _).2 ⟨l, hil, hl⟩, (mem_free_body_iff hfree hl hd).2 hx⟩

end

/-- **Exactly what a knot refers to.** The members of a recursive component being distinct and
proper and their terms referring to plain names, the solver of a member refers to the solvers after
it and to what its term refers to outside of the component. The emitted term of the `i`-th member
refers to its helper, to the members before it and to what the terms after it refer to outside of
the component. In it, the solver of each member after the `i`-th one stands in the scope of those
that it refers to. -/
theorem emit_free_iff (hcyclic : c.cyclic = true) (hnodup : (g.namesOf c).Nodup)
    (hname : ∀ m ∈ g.namesOf c, m.Proper)
    (hfree : ∀ b ∈ g.select c.members, ∀ y ∈ b.term.free, y.Plain) :
    let names := g.namesOf c
    let members := g.select c.members
    let k := Knot.ofGroup members
    ∀ (i : Nat) (b : Binding α), members[i]? = some b → ∃ m : Member α,
      k[i]? = some m ∧ m.name = b.name ∧
      (g.emit c).value[2 * i + 1]? = some ⟨b.name, k.solution m⟩ ∧
      (∀ x, x ∈ (k.solve m).free ↔
        x ∈ g.outer c b ∨ ∃ l y, i < l ∧ names[l]? = some y ∧ x = y.solver l) ∧
      (∀ x, x ∈ (k.solution m).free ↔
        x = b.name.helper ∨ x ∈ names.take i ∨
          ∃ l d, i < l ∧ members[l]? = some d ∧ x ∈ g.outer c d) ∧
      (∀ (j : Nat) (n : Member α), i < j → k[j]? = some n → ∃ path,
        (k.solution m).At (path ++ [.bound n.solver]) (k.solve n) ∧
        ∀ (l : Nat) (y : Name), j < l → names[l]? = some y → .body (y.solver l) ∈ path) ∧
      ∀ (l : Nat) (y : Name), names[l]? = some y →
        y.value l ∉ (k.solution m).free ∧ y.solver l ∉ (k.solution m).free ∧
          (i ≤ l → y ∉ (k.solution m).free) := by
  intro names members k i b hb
  have hproper : ∀ b ∈ members, b.name.Proper := fun b hb => hname _ (List.mem_map_of_mem hb)
  have hclosed : k.Closed := Knot.closed_ofGroup hnodup (fun b hb => (hproper b hb).1) hfree
  have hnumbered : k.Numbered := hclosed.numbered
  have hnames : k.map Member.name = names := Knot.map_name_ofGroup members
  have hne : ∀ n ∈ k, n.name.text ≠ "" := by
    intro n hn
    have hmember : n.name ∈ k.map Member.name := List.mem_map_of_mem hn
    rw [hnames] at hmember
    exact (hname n.name hmember).2
  obtain ⟨m, hm, hmname⟩ : ∃ m : Member α, k[i]? = some m ∧ m.name = b.name :=
    ⟨_, Knot.getElem?_ofGroup.2 ⟨b, hb, rfl⟩, rfl⟩
  refine ⟨m, hm, hmname, ?emitted, fun x => ?solver, fun x => ?solution, ?scope, ?escape⟩
  case emitted => exact hmname ▸ getElem?_emit_solution hcyclic hm
  case solver =>
    rw [hclosed.mem_free_solve_iff (List.mem_of_getElem? hm), mem_free_body_iff hfree hm hb,
      hnumbered.mem_solver_later_iff hm, hnames]
  case solution =>
    have hearlier : (k.earlier m).map Member.name = names.take i := by
      rw [Knot.earlier, hnumbered i m hm, List.map_take, hnames]
    rw [hclosed.mem_free_solution_iff hne (hnumbered.eq_append hm), hmname, hearlier,
      exists_mem_free_later_iff hfree hm]
  case scope =>
    intro j n hij hn
    obtain ⟨path, hpath, hscope⟩ := hnumbered.exists_at_solve hm hn hij
    refine ⟨path, hpath, fun l y hjl hy => hscope _ ?_⟩
    exact (hnumbered.mem_solver_later_iff hn).2 ⟨l, y, hjl, hnames ▸ hy, rfl⟩
  case escape =>
    intro l y hy
    rw [← hnames, List.getElem?_map, Option.map_eq_some_iff] at hy
    obtain ⟨n, hl, rfl⟩ := hy
    exact hclosed.not_escape hne hm hl

/-- `a = b outer`, `b = c` and `c = a (far b)`. -/
def threeCycle : Group Unit :=
  [⟨⟨"a"⟩, .app () (.var () false ⟨"b"⟩) (.var () false ⟨"outer"⟩)⟩,
   ⟨⟨"b"⟩, .var () false ⟨"c"⟩⟩,
   ⟨⟨"c"⟩, .app () (.var () false ⟨"a"⟩) (.app () (.var () false ⟨"far"⟩) (.var () false ⟨"b"⟩))⟩]

/-- The solution of `b` refers to its helper, to `a` before it, and to `far` because of `c` after it.
The solver of `b` refers to that of `c`. -/
theorem emit_free_iff_threeCycle :
    ⟨[0, 1, 2], true⟩ ∈ threeCycle.components ∧
      (threeCycle.namesOf ⟨[0, 1, 2], true⟩).Nodup ∧
      (∀ m ∈ threeCycle.namesOf ⟨[0, 1, 2], true⟩, m.Proper) ∧
      (∀ b ∈ threeCycle.select [0, 1, 2], ∀ y ∈ b.term.free, y.Plain) ∧
      ∃ m : Member Unit, (Knot.ofGroup threeCycle)[1]? = some m ∧
        (threeCycle.emit ⟨[0, 1, 2], true⟩).value[3]? =
          some ⟨⟨"b"⟩, (Knot.ofGroup threeCycle).solution m⟩ ∧
        (∀ x, x ∈ ((Knot.ofGroup threeCycle).solve m).free ↔ x = ⟨"@S2@c"⟩) ∧
        ∀ x, x ∈ ((Knot.ofGroup threeCycle).solution m).free ↔
          x = ⟨"@b@"⟩ ∨ x = ⟨"a"⟩ ∨ x = ⟨"far"⟩ := by
  have hnodup : (threeCycle.namesOf ⟨[0, 1, 2], true⟩).Nodup := by decide
  have hname : ∀ m ∈ threeCycle.namesOf ⟨[0, 1, 2], true⟩, m.Proper := by decide
  have hfree : ∀ b ∈ threeCycle.select [0, 1, 2], ∀ y ∈ b.term.free, y.Plain := by decide
  obtain ⟨m, hm, -, hvalue, hsolve, hsolution, -, -⟩ :=
    emit_free_iff (g := threeCycle) (c := ⟨[0, 1, 2], true⟩) rfl hnodup hname hfree 1 _ rfl
  refine ⟨by decide +kernel, hnodup, hname, hfree, m, hm, hvalue, fun x => (hsolve x).trans ?_,
    fun x => (hsolution x).trans ?_⟩
  · constructor
    · rintro (houter | ⟨l, y, hl, hy, rfl⟩)
      · exact absurd houter (List.not_mem_nil)
      · obtain rfl : l = 2 := by
          have hlt : l < 3 := (List.getElem?_eq_some_iff.1 hy).1
          omega
        obtain rfl := Option.some.inj hy
        decide
    · rintro rfl
      exact .inr ⟨2, ⟨"c"⟩, by decide, rfl, by decide⟩
  · refine or_congr Iff.rfl (or_congr List.mem_singleton ?_)
    constructor
    · rintro ⟨l, d, hl, hd, hx⟩
      obtain rfl : l = 2 := by
        have hlt : l < 3 := (List.getElem?_eq_some_iff.1 hd).1
        omega
      obtain rfl := Option.some.inj hd
      exact List.mem_singleton.1 hx
    · rintro rfl
      exact ⟨2, _, by decide, rfl, by decide⟩

end Group

end Letrec
