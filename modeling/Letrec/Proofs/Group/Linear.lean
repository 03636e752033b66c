import Letrec.Group.Linear
import Letrec.Proofs.Group.Components
import Letrec.Proofs.Group.Knot
import Mathlib.Data.List.Nodup
import Mathlib.Data.List.Pairwise

/-!
# Linear groups have no forward references

`Group.linearize` puts the bindings of the components after one another (`value_linearize`). A
component without recursion has no reference among its members (`Decomposition.not_refers`), a knot
refers backwards only, and between components the order of the decomposition decides. With plain
names no reference is to a helper that is made on the way, so that together nothing refers to itself
or to what is bound later (`inOrder_linearize`).
-/

namespace Letrec.Group

variable {α : Type} {g : Group α}

theorem value_linearize (g : Group α) :
    g.linearize.value = g.components.flatMap fun c => (g.emit c).value := by
  simp [linearize, analyze, List.flatMap_def]

theorem mem_select {positions : List Nat} {b : Binding α} :
    b ∈ g.select positions ↔ ∃ i ∈ positions, g[i]? = some b := by
  simp [select, List.mem_filterMap]

theorem mem_of_mem_select {positions : List Nat} {b : Binding α} (h : b ∈ g.select positions) :
    b ∈ g := by
  obtain ⟨i, -, hi⟩ := mem_select.1 h
  exact List.mem_of_getElem? hi

theorem select_range (g : Group α) : g.select (List.range g.length) = g := by
  unfold select
  induction g with
  | nil => rfl
  | cons b g ih =>
    have hhead : (b :: g)[0]? = some b := rfl
    rw [List.length_cons, List.range_succ_eq_map, List.filterMap_cons_some hhead,
      List.filterMap_map]
    exact congrArg (b :: ·) ih

/-! ## Distinct names -/

theorem position_unique (hnodup : (g.map Binding.name).Nodup) {i j : Nat} {b c : Binding α}
    (hb : g[i]? = some b) (hc : g[j]? = some c) (hname : b.name = c.name) : i = j := by
  have hi : i < g.length := (List.getElem?_eq_some_iff.1 hb).1
  have hij : (g.map Binding.name)[i]? = (g.map Binding.name)[j]? := by
    rw [List.getElem?_map, List.getElem?_map, hb, hc, Option.map_some, Option.map_some, hname]
  exact (List.getElem?_inj (by simpa using hi) hnodup).1 hij

theorem bindsLast_of_nodup (hnodup : (g.map Binding.name).Nodup) {j : Nat} {b : Binding α}
    (hb : g[j]? = some b) : g.BindsLast b.name j where
  binds := ⟨b, hb, rfl⟩
  last _ _ hc hname := Nat.le_of_eq (position_unique hnodup hc hb hname)

theorem refers_of_mem_free (hnodup : (g.map Binding.name).Nodup) {i j : Nat} {b c : Binding α}
    (hb : g[i]? = some b) (hc : g[j]? = some c) (hx : c.name ∈ b.term.free) : g.Refers i j :=
  ⟨b, hb, c.name, hx, bindsLast_of_nodup hnodup hc⟩

theorem nodup_select (hnodup : (g.map Binding.name).Nodup) {positions : List Nat}
    (h : positions.Nodup) : ((g.select positions).map Binding.name).Nodup := by
  induction positions with
  | nil => exact List.nodup_nil
  | cons i positions ih =>
    rw [List.nodup_cons] at h
    unfold select at ih ⊢
    cases hi : g[i]? with
    | none => simpa [hi] using ih h.2
    | some b =>
      rw [List.filterMap_cons_some hi, List.map_cons, List.nodup_cons]
      refine ⟨fun hb => ?_, ih h.2⟩
      obtain ⟨c, hc, hname⟩ := List.mem_map.1 hb
      obtain ⟨j, hj, hcj⟩ := mem_select.1 hc
      exact h.1 (position_unique hnodup hcj hi hname ▸ hj)

/-! ## Components -/

section
variable {cs : List Component} {c : Component}

theorem Decomposition.mem_iff (h : g.Decomposition cs) {i : Nat} :
    i ∈ cs.flatMap Component.members ↔ i < g.length :=
  h.partition.mem_iff.trans List.mem_range

theorem Decomposition.lt_length (h : g.Decomposition cs) (hc : c ∈ cs) {i : Nat}
    (hi : i ∈ c.members) : i < g.length :=
  h.mem_iff.1 (List.mem_flatMap.2 ⟨c, hc, hi⟩)

theorem Decomposition.members_nodup (h : g.Decomposition cs) (hc : c ∈ cs) : c.members.Nodup :=
  (h.ascending c hc).imp Nat.ne_of_lt

theorem Decomposition.disjoint (h : g.Decomposition cs) :
    cs.Pairwise fun c d => ∀ i ∈ c.members, i ∉ d.members := by
  have hnodup := h.partition.nodup_iff.2 List.nodup_range
  exact (List.nodup_flatMap.1 hnodup).2.imp fun hcd i hi hi' => hcd hi hi'

/-- A position is in one component only. -/
theorem Decomposition.component_unique {d : Component} (h : g.Decomposition cs) (hc : c ∈ cs)
    (hd : d ∈ cs) {i : Nat} (hic : i ∈ c.members) (hid : i ∈ d.members) : c = d := by
  by_contra hne
  have hsymm : Std.Symm fun c d : Component => ∀ i ∈ c.members, i ∉ d.members :=
    ⟨fun _ _ hdisjoint i hi hi' => hdisjoint i hi' hi⟩
  exact h.disjoint.forall hc hd hne i hic hid

/-- Without recursion there is no reference inside a component. -/
theorem Decomposition.not_refers (h : g.Decomposition cs) (hc : c ∈ cs)
    (hcyclic : c.cyclic = false) {i j : Nat} (hi : i ∈ c.members) (hj : j ∈ c.members) :
    ¬ g.Refers i j := by
  intro hij
  have hback : Relation.ReflTransGen g.Refers j i :=
    ((h.together i (h.lt_length hc hi) j (h.lt_length hc hj)).1 ⟨c, hc, hi, hj⟩).2
  have hcycle : c.cyclic = true :=
    (h.cyclic c hc).2 ⟨i, hi, Relation.TransGen.head' hij hback⟩
  rw [hcyclic] at hcycle
  exact Bool.false_ne_true hcycle

end

/-! ## What a component emits -/

section
variable (hnodup : (g.map Binding.name).Nodup) (hname : ∀ b ∈ g, b.name.Plain)
  (hfree : ∀ b ∈ g, ∀ x ∈ b.term.free, x.Plain)

include hnodup hname hfree

theorem closed_select {positions : List Nat} (h : positions.Nodup) :
    (Knot.ofGroup (g.select positions)).Closed :=
  Knot.closed_ofGroup (nodup_select hnodup h) (fun b hb => hname b (mem_of_mem_select hb))
    (fun b hb => hfree b (mem_of_mem_select hb))

omit hnodup hname hfree in
/-- An emitted name is that of a member or of its helper. -/
theorem mem_emit {c : Component} {b : Binding α} (h : b ∈ (g.emit c).value) :
    ∃ i ∈ c.members, ∃ b', g[i]? = some b' ∧ (b.name = b'.name ∨ b.name = b'.name.helper) := by
  unfold emit at h
  split at h
  · obtain ⟨m, hm, hb⟩ := Knot.mem_bindingsOf.1 h
    obtain ⟨b', hb', hname, -⟩ := Knot.mem_ofGroup hm
    obtain ⟨i, hi, hib'⟩ := mem_select.1 hb'
    refine ⟨i, hi, b', hib', ?_⟩
    rcases hb with rfl | rfl
    · exact .inr (congrArg Name.helper hname)
    · exact .inl hname
  · obtain ⟨i, hi, hib⟩ := mem_select.1 h
    exact ⟨i, hi, b, hib, .inl rfl⟩

/-- An emitted term refers to members, to their helpers and to what their terms refer to. -/
theorem mem_free_emit {c : Component} (hc : c.members.Nodup) {b : Binding α} {x : Name}
    (h : b ∈ (g.emit c).value) (hx : x ∈ b.term.free) :
    ∃ i ∈ c.members, ∃ b', g[i]? = some b' ∧
      (x = b'.name.helper ∨ x = b'.name ∨ x ∈ b'.term.free) := by
  unfold emit at h
  split at h
  · obtain ⟨m, hm, hx⟩ := (closed_select hnodup hname hfree hc).mem_free_bindings h hx
    obtain ⟨b', hb', hmname, -, hbody⟩ := Knot.mem_ofGroup hm
    obtain ⟨i, hi, hib'⟩ := mem_select.1 hb'
    rw [hmname, hbody] at hx
    exact ⟨i, hi, b', hib', hx.imp_right (Or.imp_right fun hx => (Binding.mem_free_lift hx).1)⟩
  · obtain ⟨i, hi, hib⟩ := mem_select.1 h
    exact ⟨i, hi, b, hib, .inr (.inr hx)⟩

theorem Decomposition.inOrder_emit {cs : List Component} (h : g.Decomposition cs) {c : Component}
    (hc : c ∈ cs) : (g.emit c).value.InOrder := by
  unfold emit
  split
  · exact (closed_select hnodup hname hfree (h.members_nodup hc)).inOrder_bindings
  · next hcyclic =>
    intro i j b d hb hd _ hx
    obtain ⟨i', hi', hb'⟩ := mem_select.1 (List.mem_of_getElem? hb)
    obtain ⟨j', hj', hd'⟩ := mem_select.1 (List.mem_of_getElem? hd)
    exact h.not_refers hc (Bool.eq_false_iff.2 hcyclic) hi' hj'
      (refers_of_mem_free hnodup hb' hd' hx)

/-- Between components the order of the decomposition decides. -/
theorem Decomposition.emit_not_mem_free {cs : List Component} (h : g.Decomposition cs)
    {k l : Nat} {c d : Component} (hc : cs[k]? = some c) (hd : cs[l]? = some d) (hkl : k < l)
    (hdisjoint : ∀ i ∈ c.members, i ∉ d.members) {b e : Binding α} (hb : b ∈ (g.emit c).value)
    (he : e ∈ (g.emit d).value) : e.name ∉ b.term.free := by
  intro hx
  have hmem := List.mem_of_getElem? hc
  obtain ⟨i, hi, b', hb', hx⟩ :=
    mem_free_emit hnodup hname hfree (h.members_nodup hmem) hb hx
  obtain ⟨j, hj, e', he', hename⟩ := mem_emit he
  have hbg : b' ∈ g := List.mem_of_getElem? hb'
  have heg : e' ∈ g := List.mem_of_getElem? he'
  rcases hename with hename | hename <;> rw [hename] at hx <;> rcases hx with hx | hx | hx
  · exact b'.name.not_plain_helper (hx ▸ hname e' heg)
  · exact hdisjoint i hi (position_unique hnodup he' hb' hx ▸ hj)
  · have := h.order k l c d hc hd (Nat.ne_of_lt hkl) i hi j hj
      (refers_of_mem_free hnodup hb' he' hx)
    omega
  · exact hdisjoint i hi (position_unique hnodup he' hb' (Name.helper_injective hx) ▸ hj)
  · exact e'.name.not_plain_helper (hx ▸ hname b' hbg)
  · exact e'.name.not_plain_helper (hfree b' hbg _ hx)

/-- What the components give rise to one after another refers backwards only. -/
theorem Decomposition.inOrder_flatMap_emit {cs : List Component} (h : g.Decomposition cs) :
    InOrder (cs.flatMap fun c => (g.emit c).value) := by
  rw [inOrder_iff]
  refine ⟨fun b hb => ?_, List.pairwise_flatMap.2 ⟨fun c hc => ?_, ?_⟩⟩
  · obtain ⟨c, hc, hb⟩ := List.mem_flatMap.1 hb
    exact (inOrder_iff.1 (h.inOrder_emit hnodup hname hfree hc)).1 b hb
  · exact (inOrder_iff.1 (h.inOrder_emit hnodup hname hfree hc)).2
  · rw [List.pairwise_iff_getElem]
    intro k l hk hl hkl b hb e he
    exact h.emit_not_mem_free hnodup hname hfree (List.getElem?_eq_getElem hk)
      (List.getElem?_eq_getElem hl) hkl
      (List.pairwise_iff_getElem.1 h.disjoint k l hk hl hkl) hb he

/-- **A linear group has no forward references**: no term refers to its own name or to a name that is
bound after it, helpers included. -/
theorem inOrder_linearize : g.linearize.value.InOrder := by
  rw [value_linearize]
  exact g.decomposition_components.inOrder_flatMap_emit hnodup hname hfree

end

/-- `h = f; f = \x@ -> g x@; g = \y -> f y`, where `f` and `g` call each other. -/
def mutualPair : Group Unit :=
  [⟨⟨"h"⟩, .var () false ⟨"f"⟩⟩,
   ⟨⟨"f"⟩, .lam () ⟨"x@"⟩ (.app () (.var () false ⟨"g"⟩) (.var () false ⟨"x@"⟩))⟩,
   ⟨⟨"g"⟩, .lam () ⟨"y"⟩ (.app () (.var () false ⟨"f"⟩) (.var () false ⟨"y"⟩))⟩]

theorem inOrder_linearize_mutualPair :
    mutualPair.linearize.value.map (fun b => b.name.text) = ["@f@", "f", "@g@", "g", "h"] ∧
      mutualPair.linearize.value.InOrder :=
  ⟨by decide +kernel,
    inOrder_linearize (by decide) (by decide) (by decide)⟩

end Letrec.Group
