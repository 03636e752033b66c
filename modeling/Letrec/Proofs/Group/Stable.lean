import Letrec.Proofs.Graph.Order
import Letrec.Proofs.Group.Linear

/-!
# Groups in order

A group whose terms only refer to what is bound before them is linear already. Each of its bindings
is a component without recursion, and of the many orders in which these could be taken it is the
given one that is found (`InOrder.components_eq`), so the group stays as it is
(`InOrder.linearize_eq`). Since linear groups are in order, making a group linear once more changes
nothing (`linearize_stable`).
-/

namespace Letrec.Group

variable {α : Type} {g : Group α}

theorem InOrder.lt_of_refers (h : g.InOrder) {i w : Nat} (hiw : g.Refers i w) : w < i := by
  obtain ⟨b, hb, x, hx, hlast⟩ := hiw
  obtain ⟨c, hc, rfl⟩ := hlast.binds
  exact Nat.lt_of_not_le fun hle => h i w b c hb hc hle hx

/-- A vertex without an edge to itself. -/
theorem componentOf_singleton {i : Nat} (hi : i < g.length) (hself : ¬ g.Refers i i) :
    g.componentOf [i] = ⟨[i], false⟩ := by
  have hmembers : (List.range g.length).filter (· ∈ [i]) = [i] := by
    refine List.perm_singleton.1 ((List.perm_ext_iff_of_nodup (g.members_nodup [i])
      (List.nodup_singleton i)).2 fun j => ?_)
    rw [mem_members, List.mem_singleton, and_iff_right_iff_imp]
    exact fun hj => hj ▸ hi
  have htargets : i ∉ g.targets i := fun hmem => hself (mem_targets.1 hmem)
  simp only [componentOf, hmembers]
  simp [htargets]

/-- In a group in order each binding is a component, and they keep their order. -/
theorem InOrder.components_eq (h : g.InOrder) :
    g.components = (List.range g.length).map fun i => ⟨[i], false⟩ := by
  have hback : ∀ pre v post, List.range g.length = pre ++ v :: post →
      ∀ w, Graph.Edge g.targets v w → w ∈ pre := by
    intro pre v post hrange w hw
    have hlt : w < v := h.lt_of_refers (mem_targets.1 hw)
    have hsorted := List.pairwise_lt_range (n := g.length)
    have hmem : w ∈ List.range g.length :=
      List.mem_range.2 (mem_targets.1 hw).lt_length
    rw [hrange] at hsorted hmem
    rcases List.mem_append.1 hmem with hmem | hmem
    · exact hmem
    · rcases List.mem_cons.1 hmem with rfl | hmem
      · exact absurd hlt (Nat.lt_irrefl w)
      · have := (List.pairwise_cons.1 (List.pairwise_append.1 hsorted).2.1).1 w hmem
        omega
  rw [Group.components_eq, Graph.components_of_backward List.nodup_range hback, List.map_map]
  refine List.map_congr_left fun i hi => componentOf_singleton (List.mem_range.1 hi) fun hself => ?_
  exact absurd (h.lt_of_refers hself) (Nat.lt_irrefl i)

/-- A group in order is linear. -/
theorem InOrder.linearize_eq (h : g.InOrder) : g.linearize.value = g := by
  have hselect : ∀ i, g.select [i] = g[i]?.toList := by
    intro i
    cases hi : g[i]? <;> simp [select, hi]
  calc g.linearize.value
      = (List.range g.length).flatMap fun i => (g.emit ⟨[i], false⟩).value := by
        rw [value_linearize, h.components_eq, List.flatMap_map]
    _ = (List.range g.length).flatMap fun i => g[i]?.toList :=
        congrArg (fun f => (List.range g.length).flatMap f) (funext hselect)
    _ = g.select (List.range g.length) := (List.filterMap_eq_flatMap_toList _ _).symm
    _ = g := g.select_range

/-- **Making a group linear is stable and idempotent.** A group in which every reference to a name of
the group goes to an earlier binding stays as it is. If the names are distinct and plain and nothing
but plain names is free, a linear group is of this kind, so that making it linear again changes
nothing. -/
theorem linearize_stable :
    (∀ g : Group α, g.InOrder → g.linearize.value = g) ∧
      ∀ g : Group α, (g.map Binding.name).Nodup → (∀ b ∈ g, b.name.Plain) →
        (∀ b ∈ g, ∀ x ∈ b.term.free, x.Plain) →
        g.linearize.value.linearize.value = g.linearize.value := by
  refine ⟨fun g h => h.linearize_eq, fun g hnodup hname hfree => InOrder.linearize_eq ?_⟩
  rw [value_linearize]
  exact g.decomposition_components.inOrder_flatMap_emit hnodup hname hfree

/-- `d = 1; c = \y -> y; b = c d; a = c`, which could be taken in other orders too. -/
def inSourceOrder : Group Unit :=
  [⟨⟨"d"⟩, .lit () (.integer 1)⟩,
   ⟨⟨"c"⟩, .lam () ⟨"y"⟩ (.var () false ⟨"y"⟩)⟩,
   ⟨⟨"b"⟩, .app () (.var () false ⟨"c"⟩) (.var () false ⟨"d"⟩)⟩,
   ⟨⟨"a"⟩, .var () false ⟨"c"⟩⟩]

theorem linearize_stable_mutualPair :
    (inSourceOrder.InOrder ∧ inSourceOrder.linearize.value = inSourceOrder) ∧
      (mutualPair.map Binding.name).Nodup ∧ (∀ b ∈ mutualPair, b.name.Plain) ∧
      (∀ b ∈ mutualPair, ∀ x ∈ b.term.free, x.Plain) ∧
      mutualPair.linearize.value.linearize.value = mutualPair.linearize.value := by
  have horder : inSourceOrder.InOrder := inOrder_iff.2 (by decide)
  exact ⟨⟨horder, linearize_stable.1 inSourceOrder horder⟩, by decide, by decide, by decide,
    linearize_stable.2 mutualPair (by decide) (by decide) (by decide)⟩

end Letrec.Group
