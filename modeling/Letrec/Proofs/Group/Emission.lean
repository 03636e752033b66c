import Letrec.Proofs.Group.Linear
import Mathlib.Data.List.Forall2

/-!
# What a linear group is made of

Every binding of a linear group has an origin (`Origin`): the binding at some position of the group,
or the helper of one. `Group.origins` lists the origins component by component, and
`Group.Emitted` says what a binding of an origin looks like: the binding itself if it is in no
recursion, a fixed point of an abstraction under the same name otherwise, and for a helper the
lifted term.

The origins are those of the bindings of the linear group, one by one (`emitted_linearize`). Each
position of the group occurs once among them, so nothing is lost or doubled (`linearize_lossless`).
-/

namespace Letrec

variable {α : Type}

/-- Where a binding of a linear group comes from. -/
inductive Origin where
  /-- The binding at a position of the group, as it is or with its recursion tied. -/
  | binding (position : Nat)
  /-- The helper of the binding at a position. -/
  | helper (position : Nat)
  deriving DecidableEq, Repr

/-- The origins of what a component gives rise to, in order. -/
def Component.origins (c : Component) : List Origin :=
  if c.cyclic then c.members.flatMap fun i => [.helper i, .binding i] else c.members.map .binding

namespace Group

variable {g : Group α}

/-- The origins of the bindings of the linear group, in order. -/
def origins (g : Group α) : List Origin := g.components.flatMap Component.origins

/-- A binding of the linear group is what its origin gives rise to. -/
inductive Emitted (g : Group α) : Origin → Binding α → Prop where
  /-- A binding that is a component without recursion is kept as it is. -/
  | kept {i : Nat} {b : Binding α} :
      ⟨[i], false⟩ ∈ g.components → g[i]? = some b → Emitted g (.binding i) b
  /-- A member of a recursive component becomes a fixed point of an abstraction. -/
  | tied {c : Component} {i : Nat} {b : Binding α} {a a' : α} {x : Name} {t : Term α} :
      c ∈ g.components → c.cyclic = true → i ∈ c.members → g[i]? = some b →
      Emitted g (.binding i) ⟨b.name, .fix a (.lam a' x t)⟩
  /-- Its helper is its term, lifted over the names of the component. -/
  | helper {c : Component} {i : Nat} {b : Binding α} :
      c ∈ g.components → c.cyclic = true → i ∈ c.members → g[i]? = some b →
      Emitted g (.helper i) ⟨b.name.helper, b.lift ((g.select c.members).map Binding.name)⟩

/-! ## Components -/

section
variable {cs : List Component} {c : Component}

/-- Without recursion a component is a single binding. -/
theorem Decomposition.exists_members_eq (h : g.Decomposition cs) (hc : c ∈ cs)
    (hcyclic : c.cyclic = false) : ∃ i, c.members = [i] := by
  obtain ⟨i, hi⟩ := List.exists_mem_of_ne_nil _ (h.nonempty c hc)
  have hall : ∀ j ∈ c.members, j = i := by
    intro j hj
    by_contra hne
    obtain ⟨hij, hji⟩ :=
      (h.together i (h.lt_length hc hi) j (h.lt_length hc hj)).1 ⟨c, hc, hi, hj⟩
    have hcycle : Relation.TransGen g.Refers i i :=
      ((Relation.reflTransGen_iff_eq_or_transGen.1 hij).resolve_left hne).trans_left hji
    rw [(h.cyclic c hc).2 ⟨i, hi, hcycle⟩] at hcyclic
    cases hcyclic
  refine ⟨i, List.perm_singleton.1 ?_⟩
  refine (List.perm_ext_iff_of_nodup (h.members_nodup hc) (List.nodup_singleton i)).2 fun j => ?_
  rw [List.mem_singleton]
  exact ⟨hall j, fun hj => hj ▸ hi⟩

end

/-- The positions that are selected are those of the bindings. -/
theorem forall₂_select {positions : List Nat} (h : ∀ i ∈ positions, i < g.length) :
    List.Forall₂ (fun i b => g[i]? = some b) positions (g.select positions) := by
  induction positions with
  | nil => exact .nil
  | cons i positions ih =>
    obtain ⟨hi, h⟩ := List.forall_mem_cons.1 h
    have hb : g[i]? = some g[i] := List.getElem?_eq_getElem hi
    rw [select, List.filterMap_cons_some hb]
    exact .cons hb (ih h)

theorem forall₂_ofGroup {positions : List Nat} (h : ∀ i ∈ positions, i < g.length) :
    List.Forall₂
      (fun i m => ∃ b, g[i]? = some b ∧ m.name = b.name ∧
        m.body = b.lift ((g.select positions).map Binding.name))
      positions (Knot.ofGroup (g.select positions)) := by
  have hselect := forall₂_select h
  rw [← List.zipIdx_map_fst 0 (g.select positions), List.forall₂_map_right_iff] at hselect
  rw [Knot.ofGroup, List.forall₂_map_right_iff]
  exact hselect.imp fun i p hp => ⟨p.1, hp, rfl, rfl⟩

/-- A component gives rise to what its origins say. -/
theorem emitted_emit {c : Component} (hc : c ∈ g.components) :
    List.Forall₂ g.Emitted c.origins (g.emit c).value := by
  have hdec := g.decomposition_components
  have hlt : ∀ i ∈ c.members, i < g.length := fun i hi => hdec.lt_length hc hi
  unfold emit Component.origins
  by_cases hcyclic : c.cyclic = true
  · rw [if_pos hcyclic, if_pos hcyclic]
    have hmembers := (List.forall₂_and_left _ _).2 ⟨fun i hi => hi, forall₂_ofGroup hlt⟩
    refine List.rel_flatMap hmembers fun i m hm => ?_
    obtain ⟨hi, b, hb, hname, hbody⟩ := hm
    rw [hname, hbody]
    exact .cons (.helper hc hcyclic hi hb) (.cons (.tied hc hcyclic hi hb) .nil)
  · rw [if_neg hcyclic, if_neg hcyclic, List.forall₂_map_left_iff]
    obtain ⟨i, hi⟩ := hdec.exists_members_eq hc (Bool.eq_false_iff.2 hcyclic)
    have hmem : ⟨[i], false⟩ ∈ g.components := by
      rw [← hi, ← Bool.eq_false_iff.2 hcyclic]
      exact hc
    have hselect := forall₂_select hlt
    rw [hi] at hselect ⊢
    refine List.Forall₂.imp ?_ ((List.forall₂_and_left _ _).2 ⟨fun j hj => hj, hselect⟩)
    intro j b hb
    obtain rfl := List.mem_singleton.1 hb.1
    exact .kept hmem hb.2

/-! ## Groups -/

theorem emitted_linearize (g : Group α) :
    List.Forall₂ g.Emitted g.origins g.linearize.value := by
  rw [value_linearize, origins]
  have hcs : List.Forall₂ (fun c d => c ∈ g.components ∧ c = d) g.components g.components :=
    List.forall₂_same.2 fun c hc => ⟨hc, rfl⟩
  refine List.rel_flatMap hcs fun c d hcd => ?_
  obtain ⟨hc, rfl⟩ := hcd
  exact emitted_emit hc

section
variable {k : Nat} {o : Origin} {e : Binding α}

theorem exists_emitted_of_origin (h : g.origins[k]? = some o) :
    ∃ e, g.linearize.value[k]? = some e ∧ g.Emitted o e := by
  obtain ⟨hk, rfl⟩ := List.getElem?_eq_some_iff.1 h
  have hk' : k < g.linearize.value.length := g.emitted_linearize.length_eq ▸ hk
  exact ⟨_, List.getElem?_eq_getElem hk', g.emitted_linearize.get hk hk'⟩

theorem exists_origin_of_getElem? (h : g.linearize.value[k]? = some e) :
    ∃ o, g.origins[k]? = some o ∧ g.Emitted o e := by
  obtain ⟨hk, rfl⟩ := List.getElem?_eq_some_iff.1 h
  have hk' : k < g.origins.length := g.emitted_linearize.length_eq ▸ hk
  exact ⟨_, List.getElem?_eq_getElem hk', g.emitted_linearize.get hk' hk⟩

end

theorem binding_mem_flatMap_origins {cs : List Component} {i : Nat} :
    .binding i ∈ cs.flatMap Component.origins ↔ i ∈ cs.flatMap Component.members := by
  have hc : ∀ c : Component, .binding i ∈ c.origins ↔ i ∈ c.members := by
    intro c
    unfold Component.origins
    split <;> simp
  simp only [List.mem_flatMap, hc]

/-- Every binding of the group is an origin. -/
theorem binding_mem_origins {i : Nat} : .binding i ∈ g.origins ↔ i < g.length := by
  rw [origins, binding_mem_flatMap_origins, g.decomposition_components.mem_iff]

/-- Every binding of the group gives rise to one of the linear group. -/
theorem exists_mem_linearize {i : Nat} (hi : i < g.length) :
    ∃ e ∈ g.linearize.value, g.Emitted (.binding i) e := by
  obtain ⟨k, hk⟩ := List.mem_iff_getElem?.1 (binding_mem_origins.2 hi)
  obtain ⟨e, he, hemitted⟩ := exists_emitted_of_origin hk
  exact ⟨e, List.mem_of_getElem? he, hemitted⟩

/-- A member of a recursive component counts twice. -/
theorem length_flatMap_origins (cs : List Component) :
    (cs.flatMap Component.origins).length =
      (cs.flatMap Component.members).length +
        ((cs.filter Component.cyclic).flatMap Component.members).length := by
  induction cs with
  | nil => rfl
  | cons c cs ih =>
    have hc : c.origins.length = c.members.length + if c.cyclic then c.members.length else 0 := by
      unfold Component.origins
      split
      · simp [List.length_flatMap]; omega
      · simp
    rw [List.flatMap_cons, List.flatMap_cons, List.length_append, List.length_append, ih, hc,
      List.filter_cons]
    split
    · rw [List.flatMap_cons, List.length_append]; omega
    · omega

/-- **Nothing is lost on the way to a linear group, and the order is that of the components.** The
bindings of the linear group come from the components one after another: from a component without
recursion its only binding as it is, and from a recursive one a helper and a fixed point for each of
its members in ascending order. Each position of the group is in one component, there are as many
bindings more as there are members of recursive components, and fixed points occur only if they did
before or if there is recursion. -/
theorem linearize_lossless (g : Group α) :
    List.Forall₂ g.Emitted g.origins g.linearize.value ∧
      (g.components.flatMap Component.members).Perm (List.range g.length) ∧
      (∀ c ∈ g.components, c.members.Pairwise (· < ·) ∧
        (c.cyclic = false → ∃ i, c.members = [i])) ∧
      g.linearize.value.length =
        g.length + ((g.components.filter Component.cyclic).flatMap Component.members).length ∧
      ((∃ e ∈ g.linearize.value, e.term.hasFix = true) ↔
        (∃ b ∈ g, b.term.hasFix = true) ∨ ∃ c ∈ g.components, c.cyclic = true) := by
  have hdec := g.decomposition_components
  refine ⟨g.emitted_linearize, hdec.partition,
    fun c hc => ⟨hdec.ascending c hc, hdec.exists_members_eq hc⟩, ?length, ?before, ?after⟩
  case length =>
    rw [← g.emitted_linearize.length_eq, origins, length_flatMap_origins,
      hdec.partition.length_eq, List.length_range]
  case before =>
    rintro ⟨e, he, hfix⟩
    obtain ⟨k, hk⟩ := List.mem_iff_getElem?.1 he
    obtain ⟨o, -, hemitted⟩ := exists_origin_of_getElem? hk
    cases hemitted with
    | kept _ hb => exact .inl ⟨e, List.mem_of_getElem? hb, hfix⟩
    | tied hc hcyclic => exact .inr ⟨_, hc, hcyclic⟩
    | helper hc hcyclic => exact .inr ⟨_, hc, hcyclic⟩
  case after =>
    rintro (⟨b, hb, hfix⟩ | ⟨c, hc, hcyclic⟩)
    · obtain ⟨i, hi⟩ := List.mem_iff_getElem?.1 hb
      obtain ⟨e, he, hemitted⟩ := exists_mem_linearize (List.getElem?_eq_some_iff.1 hi).1
      refine ⟨e, he, ?_⟩
      cases hemitted with
      | kept _ hb' => rwa [← Option.some.inj (hi.symm.trans hb')]
      | tied => rfl
    · obtain ⟨i, hi⟩ := List.exists_mem_of_ne_nil _ (hdec.nonempty c hc)
      obtain ⟨e, he, hemitted⟩ := exists_mem_linearize (hdec.lt_length hc hi)
      refine ⟨e, he, ?_⟩
      cases hemitted with
      | kept hc' =>
        -- a component without recursion is not `c`
        rw [hdec.component_unique hc hc' hi List.mem_cons_self] at hcyclic
        cases hcyclic
      | tied => rfl

end Group

end Letrec
