import Letrec.Proofs.Graph.Order
import Letrec.Proofs.Group.Emission
import Letrec.Term.Text

/-!
# Names that are bound twice

If a group binds a name more than once, references go to its last binding. The others are shadowed:
nothing refers to them (`BindsLast.not_refers`), so the order of the components leaves them where
they are found, which may be after the last one. `BindsLast.lt_iff` says when a shadowed binding
does come first: when neither it nor anything before it reaches the last one.

The body sees what is bound last in the linear group. `bindsLast_linearize_iff` says exactly when
this is the last binding of the group, and `boundTwice` is a group where it is not.
-/

namespace Letrec

variable {α : Type}

/-- The position in the group that an origin is about. -/
def Origin.position : Origin → Nat
  | .binding i | .helper i => i

theorem Component.position_mem_members {c : Component} {o : Origin} (h : o ∈ c.origins) :
    o.position ∈ c.members := by
  unfold origins at h
  split at h
  · obtain ⟨i, hi, ho⟩ := List.mem_flatMap.1 h
    rcases List.mem_pair.1 ho with rfl | rfl <;> exact hi
  · obtain ⟨i, hi, rfl⟩ := List.mem_map.1 h
    exact hi

theorem Component.origins_nodup {c : Component} (h : c.members.Nodup) : c.origins.Nodup := by
  unfold origins
  split
  · refine List.nodup_flatMap.2 ⟨fun i _ => by simp, h.imp fun hne => ?_⟩
    simp [Function.onFun, Ne.symm hne]
  · exact h.map fun i j hij => Origin.binding.inj hij

namespace Group

variable {g : Group α}

/-! ## The order of the origins -/

/-- No origin occurs twice. -/
theorem origins_nodup (g : Group α) : g.origins.Nodup := by
  have hdec := g.decomposition_components
  refine List.nodup_flatMap.2
    ⟨fun c hc => Component.origins_nodup (hdec.members_nodup hc), hdec.disjoint.imp fun hcd => ?_⟩
  exact fun o hoc hod =>
    hcd _ (Component.position_mem_members hoc) (Component.position_mem_members hod)

section
variable {i w j k : Nat}

theorem lt_length_of_origin (h : g.origins[j]? = some (.binding i)) : i < g.length :=
  binding_mem_origins.1 (List.mem_of_getElem? h)

theorem origin_index_unique {o : Origin} (hj : g.origins[j]? = some o)
    (hk : g.origins[k]? = some o) : j = k :=
  (List.getElem?_inj (List.getElem?_eq_some_iff.1 hj).1 g.origins_nodup).1 (hj.trans hk.symm)

/-- The origins of earlier components come first. -/
theorem index_lt_of_append {front back : List Component} (h : g.components = front ++ back)
    (hj : g.origins[j]? = some (.binding i)) (hk : g.origins[k]? = some (.binding w))
    (hi : i ∈ front.flatMap Component.members) (hw : w ∈ back.flatMap Component.members) :
    j < k := by
  have horigins : g.origins =
      front.flatMap Component.origins ++ back.flatMap Component.origins := by
    rw [origins, h, List.flatMap_append]
  obtain ⟨m, hm⟩ := List.mem_iff_getElem?.1 (binding_mem_flatMap_origins.2 hi)
  obtain ⟨n, hn⟩ := List.mem_iff_getElem?.1 (binding_mem_flatMap_origins.2 hw)
  have hmlt := (List.getElem?_eq_some_iff.1 hm).1
  have hjm : j = m :=
    origin_index_unique hj (by rw [horigins, List.getElem?_append_left hmlt, hm])
  have hkn : k = (front.flatMap Component.origins).length + n := by
    refine origin_index_unique hk ?_
    rw [horigins, List.getElem?_append_right (Nat.le_add_right _ _), Nat.add_sub_cancel_left, hn]
  omega

/-- What the bindings before a position reach is found before everything else. -/
theorem exists_components_append {p : Nat} (hp : p ≤ g.length) :
    ∃ front back, g.components = front ++ back ∧
      ∀ v < g.length, v ∈ front.flatMap Component.members ↔
        ∃ r < p, Relation.ReflTransGen g.Refers r v := by
  have hrange : List.range g.length = List.range p ++ (List.range g.length).drop p := by
    conv_lhs => rw [← List.take_append_drop p (List.range g.length), List.take_range,
      Nat.min_eq_left hp]
  have hsucc := g.targets_lt_length
  rw [hrange] at hsucc
  obtain ⟨done, rest, hcs, hdone⟩ := Graph.components_append hsucc
  rw [← hrange] at hcs
  refine ⟨done.map g.componentOf, rest.map g.componentOf, ?_, fun v hv => ?_⟩
  · rw [components_eq, hcs, List.map_append]
  · rw [← edge_targets, List.flatMap_map]
    simpa [mem_members, hv] using hdone v

theorem index_lt_of_reached {p : Nat} (hp : p ≤ g.length)
    (hj : g.origins[j]? = some (.binding i)) (hk : g.origins[k]? = some (.binding w))
    (hi : ∃ r < p, Relation.ReflTransGen g.Refers r i)
    (hw : ∀ r < p, ¬ Relation.ReflTransGen g.Refers r w) : j < k := by
  obtain ⟨front, back, hcomponents, hfront⟩ := exists_components_append hp
  have hwlt := lt_length_of_origin hk
  have hback : w ∈ back.flatMap Component.members := by
    have hall := g.decomposition_components.mem_iff.2 hwlt
    rw [hcomponents, List.flatMap_append] at hall
    refine (List.mem_append.1 hall).resolve_left fun hmem => ?_
    obtain ⟨r, hr, hrw⟩ := (hfront w hwlt).1 hmem
    exact hw r hr hrw
  exact index_lt_of_append hcomponents hj hk ((hfront i (lt_length_of_origin hj)).2 hi) hback

/-- A component does not reach a later one. -/
theorem components_pairwise_not_path (g : Group α) :
    g.components.Pairwise fun c d => ∀ i ∈ c.members, ∀ j ∈ d.members,
      ¬ Relation.ReflTransGen g.Refers i j := by
  have hcond := Graph.condensation_components (g.targets_lt_length)
  rw [components_eq, List.pairwise_map]
  refine (hcond.pairwise_not_path g.targets_lt_length).imp fun hcd i hi j hj => ?_
  rw [← edge_targets]
  exact hcd i (mem_members.1 hi).2 j (mem_members.1 hj).2

/-- What a binding reaches comes before it, unless it is reached back. -/
theorem index_lt_of_path (hj : g.origins[j]? = some (.binding i))
    (hk : g.origins[k]? = some (.binding w)) (hpath : Relation.ReflTransGen g.Refers i w)
    (hback : ¬ Relation.ReflTransGen g.Refers w i) : k < j := by
  have hdec := g.decomposition_components
  have hi := lt_length_of_origin hj
  have hw := lt_length_of_origin hk
  obtain ⟨c, hc, hic⟩ := List.mem_flatMap.1 (hdec.mem_iff.2 hi)
  obtain ⟨d, hd, hwd⟩ := List.mem_flatMap.1 (hdec.mem_iff.2 hw)
  obtain ⟨pre, post, hcs⟩ := List.append_of_mem hc
  have hbefore : d ∈ pre := by
    have hpairwise := g.components_pairwise_not_path
    rw [hcs] at hd hpairwise
    rcases List.mem_append.1 hd with hd | hd
    · exact hd
    · rcases List.mem_cons.1 hd with rfl | hd
      · exact absurd ((hdec.together i hi w hw).1 ⟨d, hc, hic, hwd⟩).2 hback
      · exact absurd hpath
          ((List.pairwise_cons.1 (List.pairwise_append.1 hpairwise).2.1).1 d hd i hic w hwd)
  exact index_lt_of_append hcs hk hj (List.mem_flatMap.2 ⟨d, hbefore, hwd⟩)
    (List.mem_flatMap.2 ⟨c, List.mem_cons_self, hic⟩)

end

/-! ## Shadowed bindings -/

section
variable {x : Name} {i w : Nat}

/-- Nothing refers to a binding that is not the last one of its name. -/
theorem BindsLast.not_refers (h : g.BindsLast x w) (hbound : ∃ b, g[i]? = some b ∧ b.name = x)
    (hiw : i < w) (j : Nat) : ¬ g.Refers j i := by
  rintro ⟨_, -, y, -, hlast⟩
  obtain ⟨b, hb, hname⟩ := hbound
  obtain ⟨b', hb', rfl⟩ := hlast.binds
  obtain rfl : b' = b := Option.some.inj (hb'.symm.trans hb)
  obtain ⟨d, hd, hdname⟩ := h.binds
  have := hlast.last w d hd (hdname.trans hname.symm)
  omega

/-- So only the binding itself reaches it. -/
theorem BindsLast.eq_of_path (h : g.BindsLast x w) (hbound : ∃ b, g[i]? = some b ∧ b.name = x)
    (hiw : i < w) {j : Nat} (hpath : Relation.ReflTransGen g.Refers j i) : j = i := by
  cases hpath with
  | refl => rfl
  | tail _ hji => exact absurd hji (h.not_refers hbound hiw _)

/-- **A shadowed binding comes before the last one of its name** unless it, or something before it,
reaches that. -/
theorem BindsLast.lt_iff (h : g.BindsLast x w) (hbound : ∃ b, g[i]? = some b ∧ b.name = x)
    (hiw : i < w) {j k : Nat} (hj : g.origins[j]? = some (.binding i))
    (hk : g.origins[k]? = some (.binding w)) :
    j < k ↔ ∀ r ≤ i, ¬ Relation.ReflTransGen g.Refers r w := by
  have hi : i < g.length := lt_length_of_origin hj
  refine ⟨fun hjk r hri hpath => absurd hjk (Nat.lt_asymm ?_), fun hpath => ?_⟩
  · rcases Nat.lt_or_eq_of_le hri with hlt | rfl
    · -- when `i` is visited, the last binding has been found already
      refine index_lt_of_reached (Nat.le_of_lt hi) hk hj ⟨r, hlt, hpath⟩ fun r' hr' hpath' => ?_
      exact Nat.ne_of_lt hr' (h.eq_of_path hbound hiw hpath')
    · exact index_lt_of_path hj hk hpath fun hback =>
        Nat.ne_of_gt hiw (h.eq_of_path hbound hiw hback)
  · exact index_lt_of_reached hi hj hk ⟨i, Nat.lt_succ_self i, Relation.ReflTransGen.refl⟩
      fun r hr => hpath r (Nat.le_of_lt_succ hr)

end

/-! ## What the body sees -/

section
variable {x : Name} {i : Nat} {e : Binding α}

theorem Emitted.binding_name_iff (h : g.Emitted (.binding i) e) :
    e.name = x ↔ ∃ b, g[i]? = some b ∧ b.name = x := by
  cases h with
  | kept _ hb => simp [hb]
  | tied _ _ _ hb => simp [hb]

theorem Emitted.helper_name_iff (h : g.Emitted (.helper i) e) :
    e.name = x ↔ ∃ b, g[i]? = some b ∧ b.name.helper = x := by
  cases h with
  | helper _ _ _ hb => simp [hb]

end

/-- **The last binding of a name is what the body sees of it** exactly if, of the other bindings of
the name, none reaches it or comes after one that does, and if no helper of that name is made after
it. -/
theorem bindsLast_linearize_iff {x : Name} {w : Nat} (h : g.BindsLast x w) :
    ∃ k e, g.origins[k]? = some (.binding w) ∧ g.linearize.value[k]? = some e ∧
      g.Emitted (.binding w) e ∧
      (g.linearize.value.BindsLast x k ↔
        (∀ i < w, (∃ b, g[i]? = some b ∧ b.name = x) →
          ∀ r ≤ i, ¬ Relation.ReflTransGen g.Refers r w) ∧
        ∀ l p, k < l → g.origins[l]? = some (.helper p) →
          ∀ b, g[p]? = some b → b.name.helper ≠ x) := by
  obtain ⟨k, hk⟩ := List.mem_iff_getElem?.1 (binding_mem_origins.2 h.lt_length)
  obtain ⟨e, he, hemitted⟩ := exists_emitted_of_origin hk
  refine ⟨k, e, hk, he, hemitted, fun hlast => ⟨?shadowed, ?helpers⟩,
    fun hcond => ⟨⟨e, he, hemitted.binding_name_iff.2 h.binds⟩, ?last⟩⟩
  case shadowed =>
    intro i hiw hbound
    have hi : i < g.length := Nat.lt_trans hiw h.lt_length
    obtain ⟨j, hj⟩ := List.mem_iff_getElem?.1 (binding_mem_origins.2 hi)
    obtain ⟨e', he', hemitted'⟩ := exists_emitted_of_origin hj
    have hjk : j ≤ k := hlast.last j e' he' (hemitted'.binding_name_iff.2 hbound)
    have hne : j ≠ k := by
      rintro rfl
      exact Nat.ne_of_gt hiw (Origin.binding.inj (Option.some.inj (hk.symm.trans hj)))
    exact (h.lt_iff hbound hiw hj hk).1 (Nat.lt_of_le_of_ne hjk hne)
  case helpers =>
    intro l p hkl hl b hb hx
    obtain ⟨e', he', hemitted'⟩ := exists_emitted_of_origin hl
    have hlk : l ≤ k := hlast.last l e' he' (hemitted'.helper_name_iff.2 ⟨b, hb, hx⟩)
    exact Nat.not_lt_of_le hlk hkl
  case last =>
    intro j e' he' hname
    obtain ⟨o, ho, hemitted'⟩ := exists_origin_of_getElem? he'
    cases o with
    | binding i =>
      obtain ⟨b, hb, hbx⟩ := hemitted'.binding_name_iff.1 hname
      rcases Nat.lt_or_eq_of_le (h.last i b hb hbx) with hiw | rfl
      · exact Nat.le_of_lt ((h.lt_iff ⟨b, hb, hbx⟩ hiw ho hk).2 (hcond.1 i hiw ⟨b, hb, hbx⟩))
      · exact Nat.le_of_eq (origin_index_unique ho hk)
    | helper p =>
      obtain ⟨b, hb, hbx⟩ := hemitted'.helper_name_iff.1 hname
      exact Nat.le_of_not_lt fun hkj => hcond.2 j p hkj ho b hb hbx

/-- `x = 1; y = \n -> y x; x = 2`, where `y` calls itself. -/
def boundAgain : Group Unit :=
  [⟨⟨"x"⟩, .lit () (.integer 1)⟩,
   ⟨⟨"y"⟩, .lam () ⟨"n"⟩ (.app () (.var () false ⟨"y"⟩) (.var () false ⟨"x"⟩))⟩,
   ⟨⟨"x"⟩, .lit () (.integer 2)⟩]

theorem bindsLast_linearize_boundAgain :
    boundAgain.BindsLast ⟨"x"⟩ 2 ∧
      ∃ k, boundAgain.origins[k]? = some (.binding 2) ∧
        boundAgain.linearize.value.BindsLast ⟨"x"⟩ k := by
  have hlast : boundAgain.BindsLast ⟨"x"⟩ 2 := lastIdx?_eq_some_iff.1 (by decide)
  obtain ⟨k, -, hk, -, -, hiff⟩ := bindsLast_linearize_iff hlast
  refine ⟨hlast, k, hk, hiff.2 ⟨fun i hi hbound r hr hpath => ?_, fun l p _ _ b hb => ?_⟩⟩
  · obtain ⟨b, hb, hname⟩ := hbound
    have hi0 : i = 0 := by
      rcases (by omega : i = 0 ∨ i = 1) with rfl | rfl
      · rfl
      · obtain rfl := Option.some.inj hb
        exact absurd hname (by decide)
    obtain rfl : r = 0 := by omega
    rcases Relation.ReflTransGen.cases_head hpath with h | ⟨v, hv, -⟩
    · cases h
    · have hv := mem_targets.2 hv
      rw [show boundAgain.targets 0 = [] by decide] at hv
      exact absurd hv List.not_mem_nil
  · exact (by decide : ∀ b ∈ boundAgain, b.name.helper ≠ ⟨"x"⟩) b (List.mem_of_getElem? hb)

/-- `z = x; x = 1; x = 2`. -/
def boundTwice : Group Unit :=
  [⟨⟨"z"⟩, .var () false ⟨"x"⟩⟩,
   ⟨⟨"x"⟩, .lit () (.integer 1)⟩,
   ⟨⟨"x"⟩, .lit () (.integer 2)⟩]

/-- `z` refers to the last binding of `x`, the body to the one before. -/
theorem not_bindsLast_linearize_boundTwice :
    boundTwice.BindsLast ⟨"x"⟩ 2 ∧ boundTwice.Refers 0 2 ∧
      (∃ k, boundTwice.linearize.value.BindsLast ⟨"x"⟩ k ∧
        boundTwice.origins[k]? = some (.binding 1)) ∧
      (¬ ∃ k, boundTwice.linearize.value.BindsLast ⟨"x"⟩ k ∧
        boundTwice.origins[k]? = some (.binding 2)) ∧
      (boundTwice.letIn (.var () false ⟨"x"⟩)).value.text =
        "let x = 2 in let z = x in let x = 1 in x" := by
  have hlast : boundTwice.linearize.value.BindsLast ⟨"x"⟩ 2 :=
    lastIdx?_eq_some_iff.1 (by decide +kernel)
  have horigin : boundTwice.origins[2]? = some (.binding 1) := by decide +kernel
  refine ⟨lastIdx?_eq_some_iff.1 (by decide), mem_targets.1 (by decide), ⟨2, hlast, horigin⟩,
    fun h => ?_, by decide +kernel⟩
  obtain ⟨k, hk, hkorigin⟩ := h
  have hk2 : k = 2 := Option.some.inj
    ((lastIdx?_eq_some_iff.2 hk).symm.trans (lastIdx?_eq_some_iff.2 hlast))
  rw [hk2, horigin] at hkorigin
  cases hkorigin

end Group

end Letrec
