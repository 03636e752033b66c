import Letrec.Proofs.Graph.Components
import Mathlib.Data.List.Infix

/-!
# The order of the components

A visit only ever adds components, and it enters nothing but what can be reached (`visit_extends`).
The vertices are visited in the order in which they are listed, so the components of all that the
first of them reach come before those of everything else (`components_append`).

This is a choice among the orders without forward edges. If the vertices are listed in such an order
already, it is the one that is found (`components_of_backward`).
-/

universe u

namespace Letrec.Graph

variable {V : Type u} {vertices : List V} {succ : V → List V}

/-! ## What a visit adds -/

/-- The search has gone on from `s` to `s'`: components were only added, and the vertices that are
known since then have the property `P`. -/
structure Search.Extends (P : V → Prop) (s s' : Search V) : Prop where
  closed : s.closed <+: s'.closed
  entered : ∀ x ∈ s'.pending ++ s'.complete, x ∈ s.pending ++ s.complete ∨ P x

namespace Search.Extends

variable {P Q : V → Prop} {s s' s'' : Search V} {v : V}

theorem refl (P : V → Prop) (s : Search V) : s.Extends P s :=
  ⟨List.prefix_refl _, fun _ hx => .inl hx⟩

theorem trans (h : s.Extends P s') (h' : s'.Extends P s'') : s.Extends P s'' where
  closed := h.closed.trans h'.closed
  entered x hx := (h'.entered x hx).elim (h.entered x) .inr

theorem mono (h : s.Extends P s') (hPQ : ∀ x, P x → Q x) : s.Extends Q s' :=
  ⟨h.closed, fun x hx => (h.entered x hx).imp_right (hPQ x)⟩

theorem enter (hv : P v) (s : Search V) : s.Extends P (s.enter v) where
  closed := List.prefix_refl _
  entered x hx := by
    rcases List.mem_cons.1 hx with rfl | hx
    · exact .inr hv
    · exact .inl hx

/-- Vertices that become a component are pending before. -/
theorem close (P : V → Prop) (s : Search V) (height : Nat) : s.Extends P (s.close height) where
  closed := List.prefix_append _ _
  entered x hx := by
    simp only [Search.close, Search.complete, List.flatten_append, List.flatten_singleton,
      List.mem_append] at hx ⊢
    rcases hx with hx | hx | hx
    · exact .inl (.inl (List.mem_of_mem_drop hx))
    · exact .inl (.inr hx)
    · exact .inl (.inl (List.mem_of_mem_take hx))

end Search.Extends

section
variable [DecidableEq V]

/-- A visit of `v` adds components, and enters only what `v` reaches. -/
theorem visit_extends (succ : V → List V) (depth : Nat) :
    ∀ (v : V) (s : Search V), s.Extends (Path succ v) (s.visit succ depth v).2 := by
  induction depth with
  | zero => exact fun v s => .refl _ s
  | succ depth ih =>
    intro v s
    have hfollow : s.Extends (Path succ v)
        ((succ v).foldl (Search.follow (Search.visit succ depth))
          (s.pending.length, s.enter v)).2 := by
      refine List.foldlRecOn (motive := fun seen : Nat × Search V => s.Extends (Path succ v) seen.2)
        (succ v) _ (.enter Relation.ReflTransGen.refl s) fun seen hseen w hw => ?_
      obtain ⟨low, s'⟩ := seen
      unfold Search.follow
      by_cases hclosed : s'.isClosed w = true
      · simpa only [hclosed, if_true] using hseen
      · simp only [hclosed, Bool.false_eq_true, if_false]
        cases s'.height? w with
        | some height => exact hseen
        | none => exact hseen.trans ((ih w s').mono fun x hx => .head hw hx)
    simp only [Search.visit]
    split
    · exact hfollow
    · exact hfollow.trans (.close _ _ _)

theorem visitNew_extends (succ : V → List V) (depth : Nat) (s : Search V) (v : V) :
    s.Extends (Path succ v) (s.visitNew succ depth v) := by
  unfold Search.visitNew
  split
  · exact .refl _ s
  · exact visit_extends succ depth v s

theorem visitAll_extends (succ : V → List V) (depth : Nat) (todo : List V) (s : Search V) :
    s.Extends (fun x => ∃ v ∈ todo, Path succ v x) (todo.foldl (Search.visitNew succ depth) s) := by
  refine List.foldlRecOn (motive := fun s' => s.Extends (fun x => ∃ v ∈ todo, Path succ v x) s')
    todo _ (.refl _ s) fun s' hs' v hv => ?_
  exact hs'.trans ((visitNew_extends succ depth s' v).mono fun x hx => ⟨v, hv, hx⟩)

/-! ## What comes first -/

/-- **What the first vertices reach comes first.** -/
theorem components_append {pre post : List V}
    (hsucc : ∀ v ∈ pre ++ post, ∀ w, Edge succ v w → w ∈ pre ++ post) :
    ∃ done rest, components (pre ++ post) succ = done ++ rest ∧
      ∀ x, x ∈ done.flatten ↔ ∃ v ∈ pre, Path succ v x := by
  let depth := (pre ++ post).length
  let s := pre.foldl (Search.visitNew succ depth) {}
  obtain ⟨⟨hvalid, hpending⟩, hvisited, -⟩ : AtRest (pre ++ post) succ s ∧ _ :=
    AtRest.visitAll hsucc (Nat.le_refl _) (fun v hv => List.mem_append_left post hv)
      ⟨Search.Valid.empty, rfl⟩
  have hcs : components (pre ++ post) succ =
      (post.foldl (Search.visitNew succ depth) s).closed := by
    rw [components, componentsWithin, List.foldl_append]
  obtain ⟨rest, hrest⟩ := (visitAll_extends succ depth post s).closed
  refine ⟨s.closed, rest, hcs.trans hrest.symm, fun x => ⟨fun hx => ?_, fun hx => ?_⟩⟩
  · have hnew := (visitAll_extends succ depth pre {}).entered x (List.mem_append_right _ hx)
    exact hnew.resolve_left List.not_mem_nil
  · obtain ⟨v, hv, hpath⟩ := hx
    -- no edge leads out of what is complete
    induction hpath with
    | refl => exact hvisited v (.inl hv)
    | tail _ hedge ih => exact hvalid.out _ ih _ hedge

/-! ## Vertices in order -/

/-- A visit of a vertex whose edges all lead into complete components makes it a component. -/
theorem visit_of_complete {depth : Nat} {v : V} {s : Search V} (hpending : s.pending = [])
    (h : ∀ w ∈ succ v, w ∈ s.complete) :
    (s.visit succ (depth + 1) v).2 = ⟨[], s.closed ++ [[v]]⟩ := by
  have hfollow : (succ v).foldl (Search.follow (Search.visit succ depth))
      (s.pending.length, s.enter v) = (s.pending.length, s.enter v) := by
    refine List.foldlRecOn (motive := (· = (s.pending.length, s.enter v))) (succ v) _ rfl
      fun seen hseen w hw => ?_
    subst hseen
    have hclosed : (s.enter v).isClosed w = true := Search.isClosed_iff.2 (h w hw)
    simp only [Search.follow, hclosed, if_true]
  simp only [Search.visit, hfollow, Nat.lt_irrefl, if_false]
  simp [Search.close, Search.enter, hpending]

/-- **Vertices whose edges all lead back stay in their order**: each is a component of its own. -/
theorem components_of_backward (hnodup : vertices.Nodup)
    (h : ∀ pre v post, vertices = pre ++ v :: post → ∀ w, Edge succ v w → w ∈ pre) :
    components vertices succ = vertices.map ([·]) := by
  have hall : ∀ todo pre : List V, vertices = pre ++ todo →
      todo.foldl (Search.visitNew succ vertices.length) ⟨[], pre.map ([·])⟩ =
        ⟨[], (pre ++ todo).map ([·])⟩ := by
    intro todo
    induction todo with
    | nil => simp
    | cons v todo ih =>
      intro pre hvertices
      have hcomplete : ∀ w, w ∈ Search.complete ⟨[], pre.map ([·])⟩ ↔ w ∈ pre := by
        simp [Search.complete]
      have hnew : v ∉ pre := by
        rw [hvertices] at hnodup
        exact fun hv => (List.nodup_append.1 hnodup).2.2 v hv v List.mem_cons_self rfl
      have hopen : ¬ Search.isClosed ⟨[], pre.map ([·])⟩ v = true :=
        fun hc => hnew ((hcomplete v).1 (Search.isClosed_iff.1 hc))
      obtain ⟨depth, hdepth⟩ : ∃ n, vertices.length = n + 1 :=
        ⟨pre.length + todo.length, by simp [hvertices]; omega⟩
      have hvisit : (Search.visit succ (depth + 1) v ⟨[], pre.map ([·])⟩).2 =
          ⟨[], pre.map ([·]) ++ [[v]]⟩ :=
        visit_of_complete rfl fun w hw => (hcomplete w).2 (h pre v todo hvertices w hw)
      have hstep : Search.visitNew succ vertices.length ⟨[], pre.map ([·])⟩ v =
          ⟨[], (pre ++ [v]).map ([·])⟩ := by
        rw [Search.visitNew, if_neg hopen, hdepth, hvisit, List.map_append]
        rfl
      rw [List.foldl_cons, hstep, ih (pre ++ [v]) (by simp [hvertices]), List.append_assoc]
      rfl
  exact congrArg Search.closed (hall vertices [] rfl)

end

end Letrec.Graph
