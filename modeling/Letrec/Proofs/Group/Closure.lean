import Letrec.Proofs.Group.Free

/-!
# A group closes over exactly its names

What a group around a body leaves unbound is what its terms and the body refer to, apart from the
names of the group (`Group.mem_free_letIn_iff`).

Nothing else is left unbound. For the names that are made for knots this is `Group.mem_free_letIn`.
A name of the group is bound by its component, whose bindings are in order
(`Group.InOrder.name_not_mem_free_nest`), and no component further out refers to it. And nothing is
lost. Lifting takes no plain name but those of the members out of a term
(`Binding.mem_free_lift_of_plain`), the helper of a member is bound to its lifted term and so refers
to all the rest, and the lets around it bind members and helpers only.
-/

namespace Letrec

variable {α : Type} {x : Name} {t : Term α}

/-! ## What lifting keeps -/

theorem Binding.mem_free_lift_of_plain {b : Binding α} {members : List Name} (hplain : x.Plain)
    (hmem : x ∉ members) (hx : x ∈ b.term.free) : x ∈ (b.lift members).free := by
  have hfold : ∀ (ms : List Name) (t : Term α), x ∉ ms → x ∈ t.free →
      x ∈ (ms.foldl (fun t m => t.rename m (m.lifted b.name)) t).free := by
    intro ms
    induction ms with
    | nil => exact fun _ _ hx => hx
    | cons m ms ih =>
      intro t hmem hx
      rw [List.mem_cons, not_or] at hmem
      exact ih _ hmem.2 (Term.mem_free_rename_of_ne hmem.1 hx)
  refine Term.mem_free_lamAll.2 ⟨hfold members b.term hmem hx, fun hparam => ?_⟩
  obtain ⟨m, -, rfl⟩ := List.mem_map.1 hparam
  exact m.not_plain_lifted b.name hplain

theorem Knot.exists_mem_ofGroup {g : Group α} {b : Binding α} (hb : b ∈ g) :
    ∃ m ∈ ofGroup g, m.name = b.name ∧ m.body = b.lift (g.map Binding.name) := by
  have hmap : (ofGroup g).map (fun m => (m.name, m.body)) =
      g.map fun b => (b.name, b.lift (g.map Binding.name)) :=
    map_ofGroup fun _ _ => rfl
  obtain ⟨m, hm, he⟩ := List.mem_map.1 (hmap ▸ List.mem_map_of_mem hb)
  exact ⟨m, hm, congrArg Prod.fst he, congrArg Prod.snd he⟩

namespace Group

variable {g : Group α} {b : Binding α}

/-! ## Nested lets -/

/-- Lets bind no name but their own. -/
theorem mem_free_nest_of_not_mem (hname : x ∉ g.map Binding.name)
    (hx : x ∈ t.free ∨ ∃ b ∈ g, x ∈ b.term.free) : x ∈ (g.nest t).free := by
  induction g with
  | nil => exact hx.resolve_right fun ⟨_, hb, _⟩ => List.not_mem_nil hb
  | cons b g ih =>
    rw [List.map_cons, List.mem_cons, not_or] at hname
    refine Term.mem_free_letIn.2 ⟨?_, hname.1⟩
    rcases hx with hx | ⟨c, hc, hx⟩
    · exact .inr (ih hname.2 (.inl hx))
    · rcases List.mem_cons.1 hc with rfl | hc
      · exact .inl hx
      · exact .inr (ih hname.2 (.inr ⟨c, hc, hx⟩))

/-- If no binding refers to a later one, every name is bound where it is referred to. -/
theorem InOrder.name_not_mem_free_nest (h : g.InOrder) (hb : b ∈ g) :
    b.name ∉ (g.nest t).free := by
  obtain ⟨-, hlater⟩ := inOrder_iff.1 h
  clear h
  induction g with
  | nil => exact absurd hb List.not_mem_nil
  | cons c g ih =>
    rw [List.pairwise_cons] at hlater
    intro hx
    obtain ⟨hx, hne⟩ := Term.mem_free_letIn.1 hx
    rcases List.mem_cons.1 hb with rfl | hb
    · exact hne rfl
    · exact hx.elim (hlater.1 b hb) (ih hb hlater.2)

/-! ## Components -/

/-- Every binding is in some component. -/
theorem Decomposition.exists_select {cs : List Component} (h : g.Decomposition cs) (hb : b ∈ g) :
    ∃ c ∈ cs, b ∈ g.select c.members := by
  obtain ⟨i, hi⟩ := List.mem_iff_getElem?.1 hb
  have hlt : i < g.length := (List.getElem?_eq_some_iff.1 hi).1
  obtain ⟨c, hc, hic⟩ := List.mem_flatMap.1 (h.partition.symm.subset (List.mem_range.2 hlt))
  exact ⟨c, hc, mem_select.2 ⟨i, hic, hi⟩⟩

/-- A component binds the names of its members. -/
theorem exists_name_emit {c : Component} (hb : b ∈ g.select c.members) :
    ∃ e ∈ (g.emit c).value, e.name = b.name := by
  unfold emit
  split
  · obtain ⟨m, hm, hname, -⟩ := Knot.exists_mem_ofGroup hb
    exact ⟨_, Knot.mem_bindingsOf.2 ⟨m, hm, .inr rfl⟩, hname⟩
  · exact ⟨b, hb, rfl⟩

/-- A component refers to whatever its members refer to outside of the group. -/
theorem exists_mem_free_emit {c : Component} (hb : b ∈ g.select c.members) (hplain : x.Plain)
    (hx : x ∈ b.term.free) (hout : x ∉ g.map Binding.name) :
    ∃ e ∈ (g.emit c).value, x ∈ e.term.free := by
  unfold emit
  split
  · obtain ⟨m, hm, -, hbody⟩ := Knot.exists_mem_ofGroup hb
    refine ⟨_, Knot.mem_bindingsOf.2 ⟨m, hm, .inl rfl⟩, ?_⟩
    rw [hbody]
    refine Binding.mem_free_lift_of_plain hplain (fun hmem => hout ?_) hx
    obtain ⟨b', hb', rfl⟩ := List.mem_map.1 hmem
    exact List.mem_map_of_mem (mem_of_mem_select hb')
  · exact ⟨b, hb, hx⟩

/-- A plain name that is bound is one of the group. -/
theorem not_mem_name_linearize (hplain : x.Plain) (hout : x ∉ g.map Binding.name) :
    x ∉ g.linearize.value.map Binding.name := by
  intro hmem
  obtain ⟨e, he, rfl⟩ := List.mem_map.1 hmem
  rw [value_linearize] at he
  obtain ⟨c, -, he⟩ := List.mem_flatMap.1 he
  obtain ⟨i, -, b, hb, hname | hname⟩ := mem_emit he
  · exact hout (hname ▸ List.mem_map_of_mem (List.mem_of_getElem? hb))
  · exact b.name.not_plain_helper (hname ▸ hplain)

/-! ## Groups -/

section
variable (hnodup : (g.map Binding.name).Nodup) (hname : ∀ b ∈ g, b.name.Plain)
  (hfree : ∀ b ∈ g, ∀ y ∈ b.term.free, y.Plain)

include hnodup hname hfree

/-- No name of the group is left unbound. -/
theorem name_not_mem_free_letIn (hb : b ∈ g) : b.name ∉ (g.letIn t).value.free := by
  have hdec := g.decomposition_components
  obtain ⟨c, hc, hbc⟩ := hdec.exists_select hb
  obtain ⟨e, he, hename⟩ := exists_name_emit hbc
  obtain ⟨before, after, hcs⟩ := List.append_of_mem hc
  have hvalue : (g.letIn t).value = nest g.linearize.value t := rfl
  rw [← hename, hvalue, value_linearize, hcs, List.flatMap_append, List.flatMap_cons, nest_append,
    nest_append]
  intro hx
  rcases mem_free_nest hx with hx | ⟨e', he', hx⟩
  · exact (hdec.inOrder_emit hnodup hname hfree hc).name_not_mem_free_nest he hx
  · -- the reference is from further out, where it would be to a later component
    obtain ⟨d, hd, he'⟩ := List.mem_flatMap.1 he'
    obtain ⟨k, hk⟩ := List.mem_iff_getElem?.1 hd
    have hlt : k < before.length := (List.getElem?_eq_some_iff.1 hk).1
    have hdk : g.components[k]? = some d := by rw [hcs, List.getElem?_append_left hlt, hk]
    have hcl : g.components[before.length]? = some c := by simp [hcs]
    have hdisjoint := hdec.disjoint
    rw [hcs] at hdisjoint
    exact hdec.emit_not_mem_free hnodup hname hfree hdk hcl hlt
      ((List.pairwise_append.1 hdisjoint).2.2 d hd c List.mem_cons_self) he' he hx

/-- **A group closes over exactly its names**: what it leaves unbound around a body is what its
terms and the body refer to, without the names of the group. -/
theorem mem_free_letIn_iff (hbody : ∀ y ∈ t.free, y.Plain) (x : Name) :
    x ∈ (g.letIn t).value.free ↔
      (x ∈ t.free ∨ ∃ b ∈ g, x ∈ b.term.free) ∧ x ∉ g.map Binding.name := by
  refine ⟨fun hx => ⟨mem_free_letIn hnodup hname hfree hx, fun hmem => ?_⟩, ?_⟩
  · obtain ⟨b, hb, rfl⟩ := List.mem_map.1 hmem
    exact name_not_mem_free_letIn hnodup hname hfree hb hx
  · rintro ⟨hx, hout⟩
    have hplain : x.Plain := hx.elim (hbody x) fun ⟨b, hb, hx⟩ => hfree b hb x hx
    refine mem_free_nest_of_not_mem (not_mem_name_linearize hplain hout) (hx.imp_right ?_)
    rintro ⟨b, hb, hx⟩
    obtain ⟨c, hc, hbc⟩ := g.decomposition_components.exists_select hb
    obtain ⟨e, he, hx⟩ := exists_mem_free_emit hbc hplain hx hout
    rw [value_linearize]
    exact ⟨e, List.mem_flatMap.2 ⟨c, hc, he⟩, hx⟩

end

/-- A group with a member whose name is empty. The helper of `F1` and the value of that member, the
second one of their component, are both called `@F1@`. -/
def emptyMember : Group Unit :=
  [⟨⟨"h"⟩, .app () (.var () false ⟨"F1"⟩) (.var () false ⟨"near"⟩)⟩,
   ⟨⟨"F1"⟩, .lam () ⟨"x@"⟩ (.app () (.var () false ⟨""⟩) (.var () false ⟨"out"⟩))⟩,
   ⟨⟨""⟩, .letIn () ⟨"far"⟩ (.var () false ⟨"F1"⟩) (.var () false ⟨"far"⟩)⟩]

theorem mem_free_letIn_iff_emptyMember :
    Name.helper ⟨"F1"⟩ = Name.value 1 ⟨""⟩ ∧
      (emptyMember.map Binding.name).Nodup ∧ (∀ b ∈ emptyMember, b.name.Plain) ∧
      (∀ b ∈ emptyMember, ∀ y ∈ b.term.free, y.Plain) ∧
      ∀ x : Name,
        x ∈ (emptyMember.letIn (.app () (.var () false ⟨"h"⟩) (.var () false ⟨"far"⟩))).value.free ↔
          (x ∈ [⟨"h"⟩, ⟨"far"⟩] ∨ ∃ b ∈ emptyMember, x ∈ b.term.free) ∧
            x ∉ emptyMember.map Binding.name :=
  ⟨by decide +kernel, by decide, by decide, by decide,
    mem_free_letIn_iff (by decide) (by decide) (by decide) (by decide)⟩

end Group

end Letrec
