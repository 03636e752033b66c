import Letrec.Group.Basic
import Letrec.Proofs.Graph.Components
import Mathlib.Data.List.Perm.Basic

/-!
# The components of a binding group

`Group.Refers g i w`: some free name of binding `i` is bound in the group, last at position `w`.
`targets` lists these positions (`edge_targets`), so that what holds of the components of a graph
holds of the components of a group. `Decomposition` collects it, and `components_spec` is the main
statement.
-/

namespace Letrec.Group

variable {α : Type} {g : Group α}

/-! ## References -/

/-- `w` is the last position at which the group binds `x`. -/
structure BindsLast (g : Group α) (x : Name) (w : Nat) : Prop where
  binds : ∃ b, g[w]? = some b ∧ b.name = x
  last : ∀ (j : Nat) b, g[j]? = some b → b.name = x → j ≤ w

/-- Binding `i` refers to binding `w`. -/
def Refers (g : Group α) (i w : Nat) : Prop :=
  ∃ b, g[i]? = some b ∧ ∃ x ∈ b.term.free, g.BindsLast x w

theorem BindsLast.lt_length {x : Name} {w : Nat} (h : g.BindsLast x w) : w < g.length := by
  obtain ⟨b, hb, -⟩ := h.binds
  exact (List.getElem?_eq_some_iff.1 hb).1

theorem Refers.lt_length {i w : Nat} (h : g.Refers i w) : w < g.length := by
  obtain ⟨_, _, _, _, hw⟩ := h
  exact hw.lt_length

/-- The bindings from the end are the bindings of the reversed group. -/
theorem getElem_reverse_sub {j : Nat} (hj : j < g.length)
    (h : g.length - 1 - j < g.reverse.length) : g.reverse[g.length - 1 - j] = g[j] := by
  rw [List.getElem_reverse]
  congr 1
  omega

theorem lastIdx?_eq_some_iff {x : Name} {w : Nat} :
    g.lastIdx? x = some w ↔ g.BindsLast x w := by
  unfold lastIdx?
  simp only [Option.map_eq_some_iff, List.findIdx?_eq_some_iff_getElem, decide_eq_true_eq]
  refine ⟨fun h => ?_, fun h => ?_⟩
  · obtain ⟨i, ⟨hi, hx, hfirst⟩, rfl⟩ := h
    rw [List.length_reverse] at hi
    have hw : g.length - 1 - i < g.length := by omega
    rw [List.getElem_reverse] at hx
    refine ⟨⟨_, List.getElem?_eq_getElem hw, hx⟩, fun j b hb hbx => ?_⟩
    obtain ⟨hj, rfl⟩ := List.getElem?_eq_some_iff.1 hb
    refine Nat.le_of_not_lt fun hlt => hfirst (g.length - 1 - j) (by omega) ?_
    rwa [getElem_reverse_sub hj]
  · obtain ⟨b, hb, hbx⟩ := h.binds
    obtain ⟨hw, rfl⟩ := List.getElem?_eq_some_iff.1 hb
    refine ⟨g.length - 1 - w, ⟨by rw [List.length_reverse]; omega, ?_, fun j hj hjx => ?_⟩,
      by omega⟩
    · rwa [getElem_reverse_sub hw]
    · rw [List.getElem_reverse] at hjx
      have := h.last _ _ (List.getElem?_eq_getElem (by omega)) hjx
      omega

theorem mem_targets {i w : Nat} : w ∈ g.targets i ↔ g.Refers i w := by
  unfold targets Refers
  cases h : g[i]? with
  | none => simp
  | some b => simp [Binding.references, List.mem_filterMap, lastIdx?_eq_some_iff]

/-- The edges of the group's graph are its references. -/
theorem edge_targets : Graph.Edge g.targets = g.Refers := by
  funext i w
  exact propext mem_targets

theorem targets_lt_length :
    ∀ i ∈ List.range g.length, ∀ w, Graph.Edge g.targets i w → w ∈ List.range g.length :=
  fun _ _ _ hw => List.mem_range.2 (mem_targets.1 hw).lt_length

/-! ## Components -/

/-- The components `cs` partition the positions of the group by mutual reachability along its
references, and each comes after those that it refers to. -/
structure Decomposition (g : Group α) (cs : List Component) : Prop where
  nonempty : ∀ c ∈ cs, c.members ≠ []
  ascending : ∀ c ∈ cs, c.members.Pairwise (· < ·)
  /-- Every position is in exactly one component. -/
  partition : (cs.flatMap Component.members).Perm (List.range g.length)
  together : ∀ i < g.length, ∀ j < g.length, (∃ c ∈ cs, i ∈ c.members ∧ j ∈ c.members) ↔
    Relation.ReflTransGen g.Refers i j ∧ Relation.ReflTransGen g.Refers j i
  cyclic : ∀ c ∈ cs, c.cyclic = true ↔ ∃ i ∈ c.members, Relation.TransGen g.Refers i i
  order : ∀ (k l : Nat) (c d : Component), cs[k]? = some c → cs[l]? = some d → k ≠ l →
    ∀ i ∈ c.members, ∀ j ∈ d.members, g.Refers i j → l < k

/-- The component made of some vertices of the group's graph. -/
def componentOf (g : Group α) (vertices : List Nat) : Component :=
  let members := (List.range g.length).filter (· ∈ vertices)
  { members, cyclic := 1 < members.length || members.any fun i => i ∈ g.targets i }

theorem components_eq (g : Group α) :
    g.components =
      (Graph.components (List.range g.length) g.targets).map g.componentOf := rfl

theorem mem_members {i : Nat} {vertices : List Nat} :
    i ∈ (g.componentOf vertices).members ↔ i < g.length ∧ i ∈ vertices := by
  simp [componentOf]

theorem members_pairwise (g : Group α) (vertices : List Nat) :
    (g.componentOf vertices).members.Pairwise (· < ·) :=
  List.pairwise_lt_range.filter _

theorem members_nodup (g : Group α) (vertices : List Nat) :
    (g.componentOf vertices).members.Nodup :=
  (g.members_pairwise vertices).imp fun h => Nat.ne_of_lt h

theorem one_lt_length_iff {l : List Nat} (h : l.Nodup) :
    1 < l.length ↔ ∃ i ∈ l, ∃ j ∈ l, i ≠ j := by
  match l, h with
  | [], _ => simp
  | [a], _ => simp
  | a :: b :: l, h =>
    have hab : a ≠ b := fun he => (List.nodup_cons.1 h).1 (he ▸ List.mem_cons_self)
    exact ⟨fun _ => ⟨a, by simp, b, by simp, hab⟩, fun _ => by simp⟩

/-- Being cyclic is read off two members, or one that refers to itself. -/
theorem cyclic_componentOf {vertices : List Nat} :
    (g.componentOf vertices).cyclic = true ↔
      (∃ i ∈ (g.componentOf vertices).members, ∃ j ∈ (g.componentOf vertices).members, i ≠ j) ∨
        ∃ i ∈ (g.componentOf vertices).members, g.Refers i i := by
  have hcyclic : (g.componentOf vertices).cyclic =
      (decide (1 < (g.componentOf vertices).members.length) ||
        (g.componentOf vertices).members.any fun i => i ∈ g.targets i) := rfl
  rw [hcyclic, Bool.or_eq_true, decide_eq_true_iff, List.any_eq_true]
  refine or_congr ?_ (exists_congr fun i => and_congr_right fun _ => ?_)
  · exact one_lt_length_iff (g.members_nodup vertices)
  · rw [decide_eq_true_iff, mem_targets]

/-- The components of a group are its strongly connected components, in an order without forward
references. -/
theorem decomposition_components (g : Group α) : g.Decomposition g.components := by
  have hcond := Graph.condensation_components (g.targets_lt_length)
  rw [components_eq]
  generalize Graph.components (List.range g.length) g.targets = cs at hcond ⊢
  -- the members of a component are the vertices of the list that it is made of
  have hmem : ∀ c ∈ cs, ∀ i, i ∈ (g.componentOf c).members ↔ i ∈ c := by
    intro c hc i
    rw [mem_members]
    refine ⟨And.right, fun hi => ⟨?_, hi⟩⟩
    exact List.mem_range.1 ((hcond.mem_iff i).1 (List.mem_flatten_of_mem hc hi))
  have hgraph : Graph.Path g.targets = Relation.ReflTransGen g.Refers := by
    rw [Graph.Path, edge_targets]
  refine ⟨?nonempty, ?ascending, ?partition, ?together, ?cyclic, ?order⟩
  case nonempty =>
    intro c hc
    obtain ⟨vertices, hv, rfl⟩ := List.mem_map.1 hc
    obtain ⟨i, hi⟩ := List.exists_mem_of_ne_nil _ (hcond.nonempty vertices hv)
    exact List.ne_nil_of_mem ((hmem vertices hv i).2 hi)
  case ascending =>
    intro c hc
    obtain ⟨vertices, -, rfl⟩ := List.mem_map.1 hc
    exact g.members_pairwise vertices
  case partition =>
    have hperm : ∀ c ∈ cs, (g.componentOf c).members.Perm c := by
      intro c hc
      exact (List.perm_ext_iff_of_nodup (g.members_nodup c)
        ((List.nodup_flatten.1 hcond.nodup).1 c hc)).2 (hmem c hc)
    have hflat : (cs.flatMap fun c => (g.componentOf c).members).Perm cs.flatten := by
      rw [← List.flatMap_id]
      exact List.Perm.flatMap_left cs hperm
    rw [List.flatMap_map]
    exact hflat.trans ((List.perm_ext_iff_of_nodup hcond.nodup List.nodup_range).2 hcond.mem_iff)
  case together =>
    intro i hi j hj
    rw [← hgraph, ← hcond.together_iff g.targets_lt_length (List.mem_range.2 hi)
      (List.mem_range.2 hj)]
    refine ⟨fun h => ?_, fun h => ?_⟩
    · obtain ⟨c, hc, hic, hjc⟩ := h
      obtain ⟨vertices, hv, rfl⟩ := List.mem_map.1 hc
      exact ⟨vertices, hv, (hmem vertices hv i).1 hic, (hmem vertices hv j).1 hjc⟩
    · obtain ⟨vertices, hv, hi', hj'⟩ := h
      exact ⟨_, List.mem_map_of_mem hv, (hmem vertices hv i).2 hi', (hmem vertices hv j).2 hj'⟩
  case cyclic =>
    intro c hc
    obtain ⟨vertices, hv, rfl⟩ := List.mem_map.1 hc
    have hcycle := hcond.cycle_iff g.targets_lt_length hv
    rw [edge_targets] at hcycle
    simp only [cyclic_componentOf, hmem vertices hv, hcycle]
  case order =>
    intro k l c d hc hd hkl i hi j hj hij
    rw [List.getElem?_map, Option.map_eq_some_iff] at hc hd
    obtain ⟨u, hu, rfl⟩ := hc
    obtain ⟨v, hv, rfl⟩ := hd
    exact hcond.lt_of_edge hu hv hkl ((hmem u (List.mem_of_getElem? hu) i).1 hi)
      ((hmem v (List.mem_of_getElem? hv) j).1 hj) (mem_targets.2 hij)

/-- **A group is split into its strongly connected components**, in an order without forward
references, and the bound for the depth of the search is never what ends it. -/
theorem components_spec (g : Group α) :
    g.Decomposition g.components ∧
      ∀ depth, g.length ≤ depth →
        Graph.componentsWithin depth (List.range g.length) g.targets =
          Graph.components (List.range g.length) g.targets :=
  ⟨g.decomposition_components, fun _ hdepth =>
    Graph.componentsWithin_eq g.targets_lt_length (by rwa [List.length_range])⟩

end Letrec.Group
