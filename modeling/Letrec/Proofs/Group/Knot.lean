import Letrec.Proofs.Name.Reserved
import Letrec.Proofs.Term.Rename

/-!
# What the bindings of a knot refer to

`Knot.Closed` collects what holds of a component after lifting: its members are numbered, their names
are distinct and plain, and their bodies refer to plain names other than those of the members
(`closed_ofGroup`). A member is handled with the split `k = pre ++ m :: post` of the knot around it.
The names that its solution leaves unbound are its helper, the members before it and what the bodies
refer to (`Closed.mem_free_solution`); solvers and values are bound on the way. So the bindings of a
knot refer backwards only (`Closed.inOrder_bindings`).
-/

universe u

namespace Letrec

variable {α : Type}

/-- No term has a free occurrence of its own name or of a name that is bound later. -/
def Group.InOrder (g : Group α) : Prop :=
  ∀ (i j : Nat) (b c : Binding α), g[i]? = some b → g[j]? = some c → i ≤ j → c.name ∉ b.term.free

theorem Group.inOrder_iff {g : Group α} :
    g.InOrder ↔ (∀ b ∈ g, b.name ∉ b.term.free) ∧ g.Pairwise fun b c => c.name ∉ b.term.free := by
  rw [List.pairwise_iff_getElem]
  refine ⟨fun h => ?_, fun h i j b c hb hc hij => ?_⟩
  · refine ⟨fun b hb => ?_, fun i j hi hj hij => ?_⟩
    · obtain ⟨i, hi⟩ := List.mem_iff_getElem?.1 hb
      exact h i i b b hi hi (Nat.le_refl i)
    · exact h i j _ _ (List.getElem?_eq_getElem hi) (List.getElem?_eq_getElem hj) (Nat.le_of_lt hij)
  · obtain ⟨hself, hlater⟩ := h
    obtain ⟨hi, rfl⟩ := List.getElem?_eq_some_iff.1 hb
    obtain ⟨hj, rfl⟩ := List.getElem?_eq_some_iff.1 hc
    rcases Nat.lt_or_eq_of_le hij with hij | rfl
    · exact hlater i j hi hj hij
    · exact hself _ (List.getElem_mem hi)

/-! ## Lifting -/

/-- Lifting takes the names of the members out of a term. -/
theorem Binding.mem_free_lift {b : Binding α} {members : List Name} {x : Name}
    (h : x ∈ (b.lift members).free) : x ∈ b.term.free ∧ x ∉ members := by
  have hfold : ∀ (ms : List Name) (t : Term α),
      x ∈ (ms.foldl (fun t m => t.rename m (m.lifted b.name)) t).free →
        (x ∈ t.free ∧ x ∉ ms) ∨ x ∈ ms.map (Name.lifted · b.name) := by
    intro ms
    induction ms with
    | nil => simp
    | cons m ms ih =>
      intro t hx
      rcases ih _ hx with ⟨hx, hms⟩ | hx
      · rcases Term.mem_free_rename hx with ⟨hx, hm⟩ | ⟨hx, -⟩
        · exact .inl ⟨hx, by simp [hm, hms]⟩
        · exact .inr (by simp [hx])
      · exact .inr (List.mem_cons_of_mem _ hx)
  rw [Binding.lift, Term.mem_free_lamAll] at h
  exact (hfold members b.term h.1).resolve_right h.2

namespace Knot

/-- The members are numbered by their positions. -/
def Numbered (k : Knot α) : Prop :=
  ∀ (i : Nat) (m : Member α), k[i]? = some m → m.index = i

/-- What holds of a component once it is lifted. -/
structure Closed (k : Knot α) : Prop where
  numbered : ∀ (i : Nat) (m : Member α), k[i]? = some m → m.index = i
  nodup : (k.map Member.name).Nodup
  plain_name : ∀ m ∈ k, m.name.Plain
  plain_body : ∀ m ∈ k, ∀ x ∈ m.body.free, x.Plain
  lifted : ∀ m ∈ k, ∀ n ∈ k, n.name ∉ m.body.free

theorem getElem?_ofGroup {g : Group α} {i : Nat} {m : Member α} :
    (ofGroup g)[i]? = some m ↔
      ∃ b, g[i]? = some b ∧ ⟨i, b.name, b.term.ann, b.lift (g.map Binding.name)⟩ = m := by
  simp [ofGroup, List.getElem?_map, List.getElem?_zipIdx]

theorem mem_ofGroup {g : Group α} {m : Member α} (h : m ∈ ofGroup g) :
    ∃ b ∈ g, m.name = b.name ∧ m.ann = b.term.ann ∧ m.body = b.lift (g.map Binding.name) := by
  obtain ⟨i, hi⟩ := List.mem_iff_getElem?.1 h
  obtain ⟨b, hb, rfl⟩ := getElem?_ofGroup.1 hi
  exact ⟨b, List.mem_of_getElem? hb, rfl, rfl, rfl⟩

/-- What does not depend on the numbers of the members is read off the group. -/
theorem map_ofGroup {β : Type u} {g : Group α} {f : Member α → β} {f' : Binding α → β}
    (h : ∀ i b, f ⟨i, b.name, b.term.ann, b.lift (g.map Binding.name)⟩ = f' b) :
    (ofGroup g).map f = g.map f' := by
  have hfst : (fun p : Binding α × Nat => f' p.1) = f' ∘ Prod.fst := rfl
  rw [ofGroup, List.map_map]
  simp only [Function.comp_def, h]
  rw [hfst, ← List.map_map, List.zipIdx_map_fst]

theorem map_name_ofGroup (g : Group α) : (ofGroup g).map Member.name = g.map Binding.name :=
  map_ofGroup fun _ _ => rfl

theorem numbered_ofGroup (g : Group α) : (ofGroup g).Numbered := by
  intro i m hm
  obtain ⟨b, -, rfl⟩ := getElem?_ofGroup.1 hm
  rfl

theorem closed_ofGroup {g : Group α} (hnodup : (g.map Binding.name).Nodup)
    (hname : ∀ b ∈ g, b.name.Plain) (hfree : ∀ b ∈ g, ∀ x ∈ b.term.free, x.Plain) :
    (ofGroup g).Closed where
  numbered := numbered_ofGroup g
  nodup := by rwa [map_name_ofGroup]
  plain_name m hm := by
    obtain ⟨b, hb, hn, -⟩ := mem_ofGroup hm
    exact hn ▸ hname b hb
  plain_body m hm x hx := by
    obtain ⟨b, hb, -, -, hbody⟩ := mem_ofGroup hm
    rw [hbody] at hx
    exact hfree b hb x (Binding.mem_free_lift hx).1
  lifted m hm n hn hx := by
    obtain ⟨b, -, -, -, hbody⟩ := mem_ofGroup hm
    rw [hbody] at hx
    refine (Binding.mem_free_lift hx).2 ?_
    rw [← map_name_ofGroup]
    exact List.mem_map_of_mem hn

/-! ## Splitting a knot at a member -/

section
variable {k pre post : Knot α} {m : Member α}

theorem Numbered.index_eq (h : k.Numbered) (hk : k = pre ++ m :: post) : m.index = pre.length := by
  refine h _ m ?_
  rw [hk, List.getElem?_append_right (Nat.le_refl _), Nat.sub_self, List.getElem?_cons_zero]

theorem Numbered.earlier_eq (h : k.Numbered) (hk : k = pre ++ m :: post) : k.earlier m = pre := by
  rw [earlier, h.index_eq hk, hk, List.take_left]

theorem Numbered.later_eq (h : k.Numbered) (hk : k = pre ++ m :: post) : k.later m = post := by
  rw [later, h.index_eq hk, hk, ← List.drop_drop, List.drop_left, List.drop_one, List.tail_cons]

theorem Closed.earlier_eq (h : k.Closed) (hk : k = pre ++ m :: post) : k.earlier m = pre :=
  Numbered.earlier_eq h.numbered hk

theorem Closed.later_eq (h : k.Closed) (hk : k = pre ++ m :: post) : k.later m = post :=
  Numbered.later_eq h.numbered hk

theorem Closed.name_not_mem (h : k.Closed) (hk : k = pre ++ m :: post) :
    m.name ∉ pre.map Member.name ∧ m.name ∉ post.map Member.name := by
  have hnodup := h.nodup
  rw [hk, List.map_append, List.map_cons] at hnodup
  obtain ⟨-, hpost, hpre⟩ := List.nodup_append.1 hnodup
  refine ⟨fun hm => hpre _ hm _ List.mem_cons_self rfl, (List.nodup_cons.1 hpost).1⟩

end

/-! ## The names that a solution leaves unbound -/

section
variable {k : Knot α} {x : Name}

/-- The values are bound on the way; solvers are not. -/
theorem mem_free_applyToValues {m : Member α} {head : Term α} {later : List (Member α)} :
    ∀ {scope : List (Term α)}, x ∈ (m.applyToValues head scope later).free →
      x ∈ head.free ∨ (∃ t ∈ scope, x ∈ t.free) ∨ x ∈ later.map Member.solver := by
  induction later with
  | nil =>
    intro scope h
    rw [Member.applyToValues, Term.mem_free_applyAll] at h
    exact h.imp_right .inl
  | cons n later ih =>
    intro scope h
    rw [Member.applyToValues, Term.mem_free_letIn, Term.mem_free_applyAll] at h
    obtain ⟨(hbound | hscope) | hrest, hvalue⟩ := h
    · rw [Member.occurrence, Term.mem_free_var] at hbound
      exact .inr (.inr (by simp [hbound]))
    · exact .inr (.inl hscope)
    · rcases ih hrest with hhead | ⟨t, ht, hx⟩ | hlater
      · exact .inl hhead
      · rcases List.mem_append.1 ht with ht | ht
        · exact .inr (.inl ⟨t, ht, hx⟩)
        · obtain rfl := List.mem_singleton.1 ht
          exact absurd (Term.mem_free_var.1 hx) hvalue
      · exact .inr (.inr (List.mem_cons_of_mem _ hlater))

theorem mem_free_occurrences {ms : List (Member α)} {f : Member α → Name} :
    (∃ t ∈ ms.map fun n => n.occurrence (f n), x ∈ t.free) ↔ x ∈ ms.map f := by
  rw [List.mem_map]
  refine ⟨fun h => ?_, fun h => ?_⟩
  · obtain ⟨t, ht, hx⟩ := h
    obtain ⟨n, hn, rfl⟩ := List.mem_map.1 ht
    exact ⟨n, hn, (Term.mem_free_var.1 hx).symm⟩
  · obtain ⟨n, hn, rfl⟩ := h
    exact ⟨_, List.mem_map_of_mem hn, Term.mem_free_var.2 rfl⟩

/-- A solver leaves the solvers after it and the names of its body unbound. -/
theorem mem_free_solve {m : Member α} (h : x ∈ (k.solve m).free) :
    x ∈ m.body.free ∨ x ∈ (k.later m).map Member.solver := by
  simp only [solve, equation, Term.mem_free_lamAll, Term.mem_free_fix, Term.mem_free_lam, id] at h
  obtain ⟨⟨hx, hvalue⟩, hparam⟩ := h
  rcases mem_free_applyToValues hx with hbody | ⟨t, ht, hx⟩ | hlater
  · exact .inl hbody
  · rcases List.mem_append.1 ht with ht | ht
    · exact absurd (mem_free_occurrences.1 ⟨t, ht, hx⟩) hparam
    · obtain rfl := List.mem_singleton.1 ht
      exact absurd (Term.mem_free_var.1 hx) hvalue
  · exact .inr hlater

/-- A solver is bound outside of every solver that refers to it. -/
theorem Closed.mem_free_bindSolvers (h : k.Closed) {post : List (Member α)} :
    ∀ (pre : List (Member α)) {t : Term α}, k = pre ++ post →
      x ∈ (post.foldl (fun t n => .letIn n.ann n.solver (k.solve n) t) t).free →
        (x ∈ t.free ∧ x ∉ post.map Member.solver) ∨ ∃ n ∈ post, x ∈ n.body.free := by
  induction post with
  | nil => simp
  | cons n post ih =>
    intro pre t hk hx
    have hk' : k = (pre ++ [n]) ++ post := by simp [hk]
    rcases ih _ hk' hx with ⟨hx, hsolver⟩ | ⟨m, hm, hx⟩
    · obtain ⟨hsolve | ht, hn⟩ := Term.mem_free_letIn.1 hx
      · rcases mem_free_solve hsolve with hbody | hlater
        · exact .inr ⟨n, List.mem_cons_self, hbody⟩
        · rw [h.later_eq hk] at hlater
          exact absurd hlater hsolver
      · exact .inl ⟨ht, by simp [hn, hsolver]⟩
    · exact .inr ⟨m, List.mem_cons_of_mem _ hm, hx⟩

theorem Closed.mem_free_solution (h : k.Closed) {pre post : Knot α} {m : Member α}
    (hk : k = pre ++ m :: post) (hx : x ∈ (k.solution m).free) :
    x = m.name.helper ∨ x ∈ pre.map Member.name ∨ ∃ n ∈ post, x ∈ n.body.free := by
  simp only [solution, equation, bindSolvers, h.earlier_eq hk, h.later_eq hk, Term.mem_free_fix,
    Term.mem_free_lam] at hx
  obtain ⟨hx, hvalue⟩ := hx
  rcases h.mem_free_bindSolvers (pre ++ [m]) (by simp [hk]) hx with ⟨hx, hsolver⟩ | hbody
  · rcases mem_free_applyToValues hx with hhead | ⟨t, ht, hx⟩ | hlater
    · exact .inl (Term.mem_free_var.1 hhead)
    · rcases List.mem_append.1 ht with ht | ht
      · exact .inr (.inl (mem_free_occurrences.1 ⟨t, ht, hx⟩))
      · obtain rfl := List.mem_singleton.1 ht
        exact absurd (Term.mem_free_var.1 hx) hvalue
    · exact absurd hlater hsolver
  · exact .inr (.inr hbody)

end

/-! ## The bindings of a knot -/

/-- The bindings of some of the members. -/
def bindingsOf (k : Knot α) (ms : List (Member α)) : Group α :=
  ms.flatMap fun m => [⟨m.name.helper, m.body⟩, ⟨m.name, k.solution m⟩]

theorem bindingsOf_cons (k : Knot α) (m : Member α) (ms : List (Member α)) :
    k.bindingsOf (m :: ms) =
      ⟨m.name.helper, m.body⟩ :: ⟨m.name, k.solution m⟩ :: k.bindingsOf ms := rfl

theorem mem_bindingsOf {k : Knot α} {ms : List (Member α)} {b : Binding α} :
    b ∈ k.bindingsOf ms ↔ ∃ m ∈ ms, b = ⟨m.name.helper, m.body⟩ ∨ b = ⟨m.name, k.solution m⟩ := by
  simp [bindingsOf]

/-- A plain name is bound only if it is that of a member. -/
theorem not_mem_name_bindingsOf {k : Knot α} {ms : List (Member α)} {x : Name} (hx : x.Plain)
    (h : x ∉ ms.map Member.name) : x ∉ (k.bindingsOf ms).map Binding.name := by
  intro hmem
  obtain ⟨b, hb, rfl⟩ := List.mem_map.1 hmem
  obtain ⟨m, hm, rfl | rfl⟩ := mem_bindingsOf.1 hb
  · exact m.name.not_plain_helper hx
  · exact h (List.mem_map_of_mem hm)

/-- A relation that holds of every element and every later one holds pairwise. -/
theorem pairwise_of_split {R : Member α → Member α → Prop} {k : Knot α}
    (h : ∀ pre m post, k = pre ++ m :: post → ∀ n ∈ post, R m n) : k.Pairwise R := by
  induction k with
  | nil => exact List.Pairwise.nil
  | cons m k ih =>
    refine List.pairwise_cons.2 ⟨h [] m k rfl, ih fun pre m' post hk => ?_⟩
    exact h (m :: pre) m' post (by rw [hk, List.cons_append])

section
variable {k pre post : Knot α} {m n : Member α}

/-- A solution refers to no member from its own on. -/
theorem Closed.not_mem_free_solution (h : k.Closed) (hk : k = pre ++ m :: post)
    (hn : n ∈ m :: post) : n.name ∉ (k.solution m).free := by
  intro hx
  have hnk : n ∈ k := hk ▸ List.mem_append_right pre hn
  rcases h.mem_free_solution hk hx with hhelper | hpre | ⟨m', hm', hx⟩
  · exact m.name.not_plain_helper (hhelper ▸ h.plain_name n hnk)
  · obtain ⟨q, hq, hqn⟩ := List.mem_map.1 hpre
    have hnodup := h.nodup
    rw [hk, List.map_append] at hnodup
    exact (List.nodup_append.1 hnodup).2.2 q.name (List.mem_map_of_mem hq) n.name
      (List.mem_map_of_mem hn) hqn
  · refine h.lifted m' ?_ n hnk hx
    rw [hk]
    exact List.mem_append_right _ (List.mem_cons_of_mem _ hm')

/-- A solution refers to no helper but its own. -/
theorem Closed.helper_not_mem_free_solution (h : k.Closed) (hk : k = pre ++ m :: post)
    (hn : n ∈ post) : n.name.helper ∉ (k.solution m).free := by
  intro hx
  rcases h.mem_free_solution hk hx with hhelper | hpre | ⟨m', hm', hx⟩
  · exact (h.name_not_mem hk).2 (Name.helper_injective hhelper ▸ List.mem_map_of_mem hn)
  · obtain ⟨q, hq, hqn⟩ := List.mem_map.1 hpre
    refine n.name.not_plain_helper (hqn ▸ h.plain_name q ?_)
    rw [hk]
    exact List.mem_append_left _ hq
  · refine n.name.not_plain_helper (h.plain_body m' ?_ _ hx)
    rw [hk]
    exact List.mem_append_right _ (List.mem_cons_of_mem _ hm')

theorem Closed.helper_not_mem_free_body (h : k.Closed) (hm : m ∈ k) (x : Name) :
    x.helper ∉ m.body.free :=
  fun hx => x.not_plain_helper (h.plain_body m hm _ hx)

/-- The bindings of a knot refer backwards only. -/
theorem Closed.inOrder_bindings (h : k.Closed) : k.bindings.InOrder := by
  have hsplit : ∀ {m}, m ∈ k → ∃ pre post, k = pre ++ m :: post := List.append_of_mem
  rw [Group.inOrder_iff]
  refine ⟨fun b hb => ?self, List.pairwise_flatMap.2 ⟨fun m hm => ?inner, ?outer⟩⟩
  case self =>
    obtain ⟨m, hm, rfl | rfl⟩ := mem_bindingsOf.1 hb
    · exact h.helper_not_mem_free_body hm m.name
    · obtain ⟨pre, post, hk⟩ := hsplit hm
      exact h.not_mem_free_solution hk List.mem_cons_self
  case inner =>
    simpa using h.lifted m hm m hm
  case outer =>
    refine pairwise_of_split fun pre m post hk n hn => ?_
    have hm : m ∈ k := by simp [hk]
    have hnk : n ∈ k := by simp [hk, hn]
    simp only [List.forall_mem_cons, List.not_mem_nil, false_implies, implies_true, and_true]
    exact ⟨⟨h.helper_not_mem_free_body hm n.name, h.lifted m hm n hnk⟩,
      h.helper_not_mem_free_solution hk hn,
      h.not_mem_free_solution hk (List.mem_cons_of_mem _ hn)⟩

/-- A binding of a knot is named after a member, as is each name it refers to that no body does. -/
theorem Closed.mem_free_bindings (h : k.Closed) {b : Binding α} {x : Name} (hb : b ∈ k.bindings)
    (hx : x ∈ b.term.free) :
    ∃ m ∈ k, x = m.name.helper ∨ x = m.name ∨ x ∈ m.body.free := by
  obtain ⟨m, hm, rfl | rfl⟩ := mem_bindingsOf.1 hb
  · exact ⟨m, hm, .inr (.inr hx)⟩
  · obtain ⟨pre, post, hk⟩ := List.append_of_mem hm
    rcases h.mem_free_solution hk hx with hx | hx | ⟨n, hn, hx⟩
    · exact ⟨m, hm, .inl hx⟩
    · obtain ⟨q, hq, rfl⟩ := List.mem_map.1 hx
      exact ⟨q, by simp [hk, hq], .inr (.inl rfl)⟩
    · exact ⟨n, by simp [hk, hn], .inr (.inr hx)⟩

end

end Knot

end Letrec
