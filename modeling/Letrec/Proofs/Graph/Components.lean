import Letrec.Proofs.Graph.Search
import Mathlib.Data.List.Nodup

/-!
# The strongly connected components of a graph

`Condensation vertices succ cs`: the lists `cs` partition the vertices, the members of each reach
each other, and no edge leads from a list to a later one. This determines who is together with whom
(`Condensation.together_iff`) and makes each list come after all that it has edges to
(`Condensation.lt_of_edge`).

`condensation_components` says this of the search's result, and `componentsWithin_eq` that its bound
for the depth is never what ends it.
-/

universe u

namespace Letrec.Graph

variable {V : Type u} {vertices : List V} {succ : V → List V}

variable (vertices succ) in
/-- The lists `cs` are the strongly connected components, those with edges between them in the
opposite order of the edges. -/
structure Condensation (cs : List (List V)) : Prop where
  nonempty : ∀ c ∈ cs, c ≠ []
  nodup : cs.flatten.Nodup
  mem_iff : ∀ x, x ∈ cs.flatten ↔ x ∈ vertices
  connected : ∀ c ∈ cs, ∀ x ∈ c, ∀ y ∈ c, Path succ x y
  order : cs.Pairwise fun c d => ∀ x ∈ c, ∀ z ∈ d, ¬Edge succ x z

namespace Condensation

variable {cs : List (List V)} {c d : List V} {k l : Nat} {x y : V}

/-- A vertex is in one component only. -/
theorem index_unique (h : Condensation vertices succ cs) (hc : cs[k]? = some c)
    (hd : cs[l]? = some d) (hxc : x ∈ c) (hxd : x ∈ d) : k = l := by
  have hdisj := (List.nodup_flatten.1 h.nodup).2
  obtain ⟨hk, rfl⟩ := List.getElem?_eq_some_iff.1 hc
  obtain ⟨hl, rfl⟩ := List.getElem?_eq_some_iff.1 hd
  rcases Nat.lt_trichotomy k l with hlt | heq | hgt
  · exact absurd hxd (List.pairwise_iff_getElem.1 hdisj k l hk hl hlt hxc)
  · exact heq
  · exact absurd hxc (List.pairwise_iff_getElem.1 hdisj l k hl hk hgt hxd)

/-- An edge leads into the same component or an earlier one. -/
theorem le_of_edge (h : Condensation vertices succ cs) (hc : cs[k]? = some c)
    (hd : cs[l]? = some d) (hx : x ∈ c) (hy : y ∈ d) (hxy : Edge succ x y) : l ≤ k := by
  obtain ⟨hk, rfl⟩ := List.getElem?_eq_some_iff.1 hc
  obtain ⟨hl, rfl⟩ := List.getElem?_eq_some_iff.1 hd
  refine Nat.le_of_not_lt fun hlt => ?_
  exact List.pairwise_iff_getElem.1 h.order k l hk hl hlt x hx y hy hxy

/-- **Edges between different components lead to earlier ones.** -/
theorem lt_of_edge (h : Condensation vertices succ cs) (hc : cs[k]? = some c)
    (hd : cs[l]? = some d) (hkl : k ≠ l) (hx : x ∈ c) (hy : y ∈ d) (hxy : Edge succ x y) :
    l < k :=
  Nat.lt_of_le_of_ne (h.le_of_edge hc hd hx hy hxy) hkl.symm

theorem exists_component (h : Condensation vertices succ cs) (hx : x ∈ vertices) :
    ∃ (k : Nat) (c : List V), cs[k]? = some c ∧ x ∈ c := by
  obtain ⟨c, hc, hxc⟩ := List.mem_flatten.1 ((h.mem_iff x).2 hx)
  obtain ⟨k, hk⟩ := List.mem_iff_getElem?.1 hc
  exact ⟨k, c, hk, hxc⟩

section
variable (hsucc : ∀ v ∈ vertices, ∀ w, Edge succ v w → w ∈ vertices)
include hsucc

/-- A path leads into the same component or an earlier one. -/
theorem le_of_path (h : Condensation vertices succ cs) (hd : cs[l]? = some d) (hy : y ∈ d)
    (hxy : Path succ x y) : ∀ {k : Nat} {c : List V}, cs[k]? = some c → x ∈ c → l ≤ k := by
  induction hxy using Relation.ReflTransGen.head_induction_on with
  | refl =>
    intro k c hc hx
    exact Nat.le_of_eq (h.index_unique hd hc hy hx)
  | head hxz _ ih =>
    intro k c hc hx
    have hxv := (h.mem_iff _).1 (List.mem_flatten_of_mem (List.mem_of_getElem? hc) hx)
    obtain ⟨m, e, he, hz⟩ := h.exists_component (hsucc _ hxv _ hxz)
    exact Nat.le_trans (ih he hz) (h.le_of_edge hc he hx hz hxz)

/-- A component does not reach a later one. -/
theorem pairwise_not_path (h : Condensation vertices succ cs) :
    cs.Pairwise fun c d => ∀ x ∈ c, ∀ z ∈ d, ¬ Path succ x z := by
  refine List.pairwise_iff_getElem.2 fun k l hk hl hkl x hx z hz hxz => ?_
  have := h.le_of_path hsucc (List.getElem?_eq_getElem hl) hz hxz (List.getElem?_eq_getElem hk) hx
  omega

/-- **Two vertices are together exactly when each can be reached from the other.** -/
theorem together_iff (h : Condensation vertices succ cs) (hx : x ∈ vertices) (hy : y ∈ vertices) :
    (∃ c ∈ cs, x ∈ c ∧ y ∈ c) ↔ Path succ x y ∧ Path succ y x := by
  refine ⟨fun h' => ?_, fun h' => ?_⟩
  · obtain ⟨c, hc, hxc, hyc⟩ := h'
    exact ⟨h.connected c hc x hxc y hyc, h.connected c hc y hyc x hxc⟩
  · obtain ⟨hxy, hyx⟩ := h'
    obtain ⟨k, c, hc, hxc⟩ := h.exists_component hx
    obtain ⟨l, d, hd, hyd⟩ := h.exists_component hy
    have hkl : k = l :=
      Nat.le_antisymm (h.le_of_path hsucc hc hxc hyx hd hyd) (h.le_of_path hsucc hd hyd hxy hc hxc)
    have hcd : d = c := Option.some.inj (hd.symm.trans (hkl ▸ hc))
    exact ⟨c, List.mem_of_getElem? hc, hxc, hcd ▸ hyd⟩

/-- **A component has a cycle exactly when it has two members or one with an edge to itself.** -/
theorem cycle_iff (h : Condensation vertices succ cs) (hc : c ∈ cs) :
    (∃ x ∈ c, Relation.TransGen (Edge succ) x x) ↔
      (∃ x ∈ c, ∃ y ∈ c, x ≠ y) ∨ ∃ x ∈ c, Edge succ x x := by
  refine ⟨fun h' => ?_, fun h' => ?_⟩
  · obtain ⟨x, hx, hxx⟩ := h'
    obtain ⟨z, hxz, hzx⟩ := Relation.TransGen.head'_iff.1 hxx
    by_cases hz : x = z
    · exact .inr ⟨x, hx, hz ▸ hxz⟩
    · have hxv := (h.mem_iff x).1 (List.mem_flatten_of_mem hc hx)
      obtain ⟨d, hd, hxd, hzd⟩ :=
        (h.together_iff hsucc hxv (hsucc x hxv z hxz)).2 ⟨.single hxz, hzx⟩
      obtain ⟨k, hk⟩ := List.mem_iff_getElem?.1 hc
      obtain ⟨l, hl⟩ := List.mem_iff_getElem?.1 hd
      have hdc : d = c := Option.some.inj (hl.symm.trans (h.index_unique hk hl hx hxd ▸ hk))
      exact .inl ⟨x, hx, z, hdc ▸ hzd, hz⟩
  · rcases h' with ⟨x, hx, y, hy, hne⟩ | ⟨x, hx, hxx⟩
    · have hxy := h.connected c hc x hx y hy
      have hyx := h.connected c hc y hy x hx
      rcases Relation.reflTransGen_iff_eq_or_transGen.1 hxy with heq | htrans
      · exact absurd heq.symm hne
      · exact ⟨x, hx, htrans.trans_left hyx⟩
    · exact ⟨x, hx, .single hxx⟩

end

end Condensation

/-! ## The search's result -/

section
variable [DecidableEq V]

/-- Between two searches nothing is pending. -/
structure AtRest (vertices : List V) (succ : V → List V) (s : Search V) : Prop where
  valid : s.Valid vertices succ
  pending : s.pending = []

/-- A search from a new vertex completes its component. -/
theorem AtRest.visit (hsucc : ∀ v ∈ vertices, ∀ w, Edge succ v w → w ∈ vertices) {s : Search V}
    (h : AtRest vertices succ s) {v : V} (hv : v ∈ vertices) (hnc : v ∉ s.complete) {depth : Nat}
    (hdepth : vertices.length ≤ depth) :
    AtRest vertices succ (s.visit succ depth v).2 ∧
      s.complete ⊆ (s.visit succ depth v).2.complete ∧ v ∈ (s.visit succ depth v).2.complete ∧
      ∀ d, depth ≤ d → s.visit succ d v = s.visit succ depth v := by
  have hroom : vertices.length ≤ s.pending.length + depth := by omega
  obtain ⟨hvis, hd⟩ := visit_spec hsucc depth v s h.valid hv (by simp [h.pending]) hnc hroom
  obtain ⟨new, hnew, hx⟩ := hvis.pending
  have hnil : new = [] := by
    refine List.eq_nil_iff_forall_not_mem.2 fun x hm => ?_
    obtain ⟨k, y, -, hy, -⟩ := (hx x hm).2.reaches
    rw [h.pending] at hy
    exact absurd hy.mem List.not_mem_nil
  have hrest : (s.visit succ depth v).2.pending = [] := by rw [hnew, hnil, h.pending]; rfl
  refine ⟨⟨hvis.valid, hrest⟩, hvis.complete, ?_, hd⟩
  rcases hvis.seen with hc | ⟨k, -, hk⟩
  · exact hc
  · rw [hrest] at hk
    exact absurd hk.mem List.not_mem_nil

/-- Afterwards the component of `v` is complete, whether it was visited now or before. -/
theorem AtRest.visitNew (hsucc : ∀ v ∈ vertices, ∀ w, Edge succ v w → w ∈ vertices)
    {s : Search V} (h : AtRest vertices succ s) {v : V} (hv : v ∈ vertices) {depth : Nat}
    (hdepth : vertices.length ≤ depth) :
    AtRest vertices succ (s.visitNew succ depth v) ∧
      s.complete ⊆ (s.visitNew succ depth v).complete ∧ v ∈ (s.visitNew succ depth v).complete ∧
      ∀ d, depth ≤ d → s.visitNew succ d v = s.visitNew succ depth v := by
  unfold Search.visitNew
  by_cases hc : s.isClosed v = true
  · simp only [hc, if_true]
    exact ⟨h, List.Subset.refl _, Search.isClosed_iff.1 hc, fun _ _ => trivial⟩
  · simp only [hc, Bool.false_eq_true, if_false]
    have hnc : v ∉ s.complete := fun hm => hc (Search.isClosed_iff.2 hm)
    obtain ⟨hrest, hsub, hmem, hd⟩ := h.visit hsucc hv hnc hdepth
    exact ⟨hrest, hsub, hmem, fun d hle => by rw [hd d hle]⟩

/-- All of `todo` are visited, one after another. -/
theorem AtRest.visitAll (hsucc : ∀ v ∈ vertices, ∀ w, Edge succ v w → w ∈ vertices) {depth : Nat}
    (hdepth : vertices.length ≤ depth) :
    ∀ {todo : List V} {s : Search V}, (∀ v ∈ todo, v ∈ vertices) → AtRest vertices succ s →
      AtRest vertices succ (todo.foldl (Search.visitNew succ depth) s) ∧
        (∀ v, v ∈ todo ∨ v ∈ s.complete →
          v ∈ (todo.foldl (Search.visitNew succ depth) s).complete) ∧
        ∀ d, depth ≤ d → todo.foldl (Search.visitNew succ d) s =
          todo.foldl (Search.visitNew succ depth) s
  | [], s, _, h => ⟨h, fun v hv => hv.resolve_left List.not_mem_nil, fun _ _ => rfl⟩
  | v :: todo, s, htodo, h => by
    obtain ⟨hnext, hsub, hmem, hd⟩ := h.visitNew hsucc (htodo v List.mem_cons_self) hdepth
    obtain ⟨hall, hcomplete, hds⟩ :=
      visitAll hsucc hdepth (fun w hw => htodo w (List.mem_cons_of_mem _ hw)) hnext
    refine ⟨hall, fun w hw => hcomplete w ?_, fun d hle => ?_⟩
    · rcases hw with hw | hw
      · rcases List.mem_cons.1 hw with rfl | hw
        · exact .inr hmem
        · exact .inl hw
      · exact .inr (hsub hw)
    · rw [List.foldl_cons, List.foldl_cons, hd d hle, hds d hle]

/-- **The search finds the strongly connected components**, if its bound is at least the number of
vertices. -/
theorem condensation_componentsWithin (hsucc : ∀ v ∈ vertices, ∀ w, Edge succ v w → w ∈ vertices)
    {depth : Nat} (hdepth : vertices.length ≤ depth) :
    Condensation vertices succ (componentsWithin depth vertices succ) := by
  obtain ⟨⟨hvalid, -⟩, hcomplete, -⟩ :=
    AtRest.visitAll hsucc hdepth (fun v hv => hv) ⟨Search.Valid.empty, rfl⟩
  refine ⟨hvalid.nonempty, (List.nodup_append.1 hvalid.nodup).2.1, fun x => ⟨fun hx => ?_,
    fun hx => hcomplete x (.inl hx)⟩, hvalid.connected, hvalid.order⟩
  exact hvalid.mem x (List.mem_append_right _ hx)

theorem condensation_components (hsucc : ∀ v ∈ vertices, ∀ w, Edge succ v w → w ∈ vertices) :
    Condensation vertices succ (components vertices succ) :=
  condensation_componentsWithin hsucc (Nat.le_refl _)

/-- **The bound for the depth is never what ends a visit**: a larger one changes nothing. -/
theorem componentsWithin_eq (hsucc : ∀ v ∈ vertices, ∀ w, Edge succ v w → w ∈ vertices)
    {depth : Nat} (hdepth : vertices.length ≤ depth) :
    componentsWithin depth vertices succ = components vertices succ := by
  obtain ⟨-, -, hd⟩ := AtRest.visitAll hsucc (Nat.le_refl _) (fun v hv => hv)
    ⟨Search.Valid.empty, rfl⟩
  exact congrArg Search.closed (hd depth hdepth)

end

end Letrec.Graph
