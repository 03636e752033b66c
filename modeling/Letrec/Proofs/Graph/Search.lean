import Letrec.Graph.Component
import Mathlib.Logic.Relation

/-!
# The invariant of the depth-first search

`Search.Valid` holds of every state of a search: no vertex occurs twice, the members of a complete
component reach each other, and no edge leads out of a complete component except into an earlier
one.

A visit of `v` leaves vertices behind that are still pending. `Visited` says what is known of them:
`v` reaches them, each of them reaches a vertex that was pending before at the height that the visit
returns or above (`Anchored`), and so do all their edges. `Following` says the same in the middle of
a visit, when only some of the edges of `v` have been followed. The main statement is `visit_spec`:
a visit of a new vertex keeps the invariant, and its result does not depend on the bound for the
depth as long as every vertex could be pending at once.
-/

universe u

namespace Letrec.Graph

variable {V : Type u}

/-- `w` is a successor of `v`. -/
def Edge (succ : V → List V) (v w : V) : Prop := w ∈ succ v

/-- `w` can be reached from `v`, possibly over no edge at all. -/
abbrev Path (succ : V → List V) : V → V → Prop := Relation.ReflTransGen (Edge succ)

/-! ## Heights -/

/-- `y` stands at height `k` in the stack `l`, whose last element is at the bottom. -/
def AtHeight (l : List V) (k : Nat) (y : V) : Prop := l.reverse[k]? = some y

theorem AtHeight.lt_length {l : List V} {k : Nat} {y : V} (h : AtHeight l k y) : k < l.length := by
  have := (List.getElem?_eq_some_iff.1 h).1
  rwa [List.length_reverse] at this

theorem AtHeight.mem {l : List V} {k : Nat} {y : V} (h : AtHeight l k y) : y ∈ l :=
  List.mem_reverse.1 (List.mem_of_getElem? h)

/-- Heights do not change when the stack grows. -/
theorem AtHeight.append {l : List V} {k : Nat} {y : V} (h : AtHeight l k y) (top : List V) :
    AtHeight (top ++ l) k y := by
  unfold AtHeight at *
  rw [List.reverse_append, List.getElem?_append_left (by simpa using AtHeight.lt_length h)]
  exact h

theorem AtHeight.of_append (top : List V) {l : List V} {k : Nat} {y : V}
    (h : AtHeight (top ++ l) k y) (hk : k < l.length) : AtHeight l k y := by
  unfold AtHeight at *
  rwa [List.reverse_append, List.getElem?_append_left (by simpa using hk)] at h

theorem AtHeight.mem_top (top : List V) {l : List V} {k : Nat} {y : V}
    (h : AtHeight (top ++ l) k y) (hk : l.length ≤ k) : y ∈ top := by
  unfold AtHeight at h
  rw [List.reverse_append, List.getElem?_append_right (by simpa using hk)] at h
  exact List.mem_reverse.1 (List.mem_of_getElem? h)

theorem atHeight_cons (v : V) (l : List V) : AtHeight (v :: l) l.length v := by
  simp [AtHeight]

namespace Search

/-- The vertices whose component is complete. -/
def complete (s : Search V) : List V := s.closed.flatten

/-- `z` is in a complete component, or pending at height `low` or above. -/
def Known (s : Search V) (low : Nat) (z : V) : Prop :=
  z ∈ s.complete ∨ ∃ k, low ≤ k ∧ AtHeight s.pending k z

/-- The search has gone on from `s` to `s'`: nothing that was pending has left the stack. -/
structure Grows (s s' : Search V) : Prop where
  pending : s.pending <:+ s'.pending
  complete : s.complete ⊆ s'.complete

theorem Grows.refl (s : Search V) : Grows s s := ⟨List.suffix_refl _, List.Subset.refl _⟩

theorem Known.mono {s s' : Search V} {low low' : Nat} {z : V} (h : s.Known low z)
    (hg : Grows s s') (hl : low' ≤ low) : s'.Known low' z := by
  rcases h with h | ⟨k, hk, h⟩
  · exact .inl (hg.complete h)
  · obtain ⟨top, ht⟩ := hg.pending
    exact .inr ⟨k, Nat.le_trans hl hk, ht ▸ h.append top⟩

section
variable [DecidableEq V]

theorem isClosed_iff {s : Search V} {v : V} : s.isClosed v = true ↔ v ∈ s.complete := by
  simp [isClosed, complete]

theorem atHeight_of_height? {s : Search V} {v : V} {k : Nat} (h : s.height? v = some k) :
    AtHeight s.pending k v := by
  obtain ⟨hk, hv, -⟩ := List.idxOf?_eq_some_iff.1 h
  exact List.getElem?_eq_some_iff.2 ⟨hk, by simpa using hv⟩

theorem height?_eq_none {s : Search V} {v : V} : s.height? v = none ↔ v ∉ s.pending := by
  simp [height?]

end

/-- The component that is completed at a height is what is pending there or above. -/
theorem close_append {s : Search V} {top rest : List V} (h : s.pending = top ++ rest) :
    s.close rest.length = ⟨rest, s.closed ++ [top]⟩ := by
  simp [close, h]

end Search

/-! ## The invariant -/

section
variable {vertices : List V} {succ : V → List V}

variable (vertices succ) in
/-- What holds of every state of a search. -/
structure Search.Valid (s : Search V) : Prop where
  nodup : (s.pending ++ s.complete).Nodup
  mem : ∀ x ∈ s.pending ++ s.complete, x ∈ vertices
  nonempty : ∀ c ∈ s.closed, c ≠ []
  connected : ∀ c ∈ s.closed, ∀ x ∈ c, ∀ y ∈ c, Path succ x y
  out : ∀ x ∈ s.complete, ∀ z, Edge succ x z → z ∈ s.complete
  order : s.closed.Pairwise fun c d => ∀ x ∈ c, ∀ z ∈ d, ¬Edge succ x z

namespace Search

theorem Valid.empty : Valid vertices succ {} := by
  refine ⟨?_, ?_, ?_, ?_, ?_, ?_⟩ <;> simp [complete]

theorem Valid.enter {s : Search V} {v : V} (h : Valid vertices succ s) (hv : v ∈ vertices)
    (hnp : v ∉ s.pending) (hnc : v ∉ s.complete) : Valid vertices succ (s.enter v) where
  nodup := List.nodup_cons.2 ⟨fun hm => (List.mem_append.1 hm).elim hnp hnc, h.nodup⟩
  mem := fun x hx => by
    rcases List.mem_cons.1 hx with rfl | hx
    · exact hv
    · exact h.mem x hx
  nonempty := h.nonempty
  connected := h.connected
  out := h.out
  order := h.order

/-- The top of the stack may become a component if its members reach each other and no edge leads
out of it except into the components that are complete. -/
theorem Valid.close {s : Search V} {top rest : List V} (h : Valid vertices succ s)
    (hs : s.pending = top ++ rest) (hne : top ≠ [])
    (hconn : ∀ x ∈ top, ∀ y ∈ top, Path succ x y)
    (hout : ∀ x ∈ top, ∀ z, Edge succ x z → z ∈ top ∨ z ∈ s.complete) :
    Valid vertices succ ⟨rest, s.closed ++ [top]⟩ := by
  have hcomplete : complete ⟨rest, s.closed ++ [top]⟩ = s.complete ++ top := by simp [complete]
  have hperm : (s.pending ++ s.complete).Perm (rest ++ (s.complete ++ top)) := by
    rw [hs, List.append_assoc, ← List.append_assoc rest]
    exact List.perm_append_comm
  refine ⟨?nodup, ?mem, ?nonempty, ?connected, ?out, ?order⟩
  case nodup => rw [hcomplete]; exact hperm.nodup_iff.1 h.nodup
  case mem => rw [hcomplete]; exact fun x hx => h.mem x (hperm.mem_iff.2 hx)
  case nonempty =>
    intro c hc
    rcases List.mem_append.1 hc with hc | hc
    · exact h.nonempty c hc
    · rw [List.mem_singleton.1 hc]; exact hne
  case connected =>
    intro c hc
    rcases List.mem_append.1 hc with hc | hc
    · exact h.connected c hc
    · rw [List.mem_singleton.1 hc]; exact hconn
  case out =>
    rw [hcomplete]
    intro x hx z hz
    rcases List.mem_append.1 hx with hx | hx
    · exact List.mem_append_left _ (h.out x hx z hz)
    · exact List.mem_append.2 ((hout x hx z hz).symm)
  case order =>
    refine List.pairwise_append.2 ⟨h.order, List.pairwise_singleton _ _, fun c hc d hd => ?_⟩
    rw [List.mem_singleton.1 hd]
    -- an edge out of a complete component stays in the complete ones, and `top` is none of them
    intro x hx z hz he
    have hzc : z ∈ s.complete := h.out x (List.mem_flatten_of_mem hc hx) z he
    have hzp : z ∈ s.pending := hs ▸ List.mem_append_left rest hz
    exact (List.nodup_append.1 h.nodup).2.2 z hzp z hzc rfl

/-- A vertex that is not pending yet leaves room in the stack. -/
theorem Valid.length_lt {s : Search V} {v : V} (h : Valid vertices succ s) (hv : v ∈ vertices)
    (hnp : v ∉ s.pending) : s.pending.length < vertices.length := by
  have hnd : (v :: s.pending).Nodup :=
    List.nodup_cons.2 ⟨hnp, (List.nodup_append.1 h.nodup).1⟩
  refine hnd.length_le_of_subset fun x hx => ?_
  rcases List.mem_cons.1 hx with rfl | hx
  · exact hv
  · exact h.mem x (List.mem_append_left _ hx)

end Search

/-! ## Visits -/

variable (succ) in
/-- `x` reaches a vertex of the stack `base` at height `low` or above, and the search `s` knows
where all its edges lead. -/
structure Anchored (base : List V) (low : Nat) (s : Search V) (x : V) : Prop where
  reaches : ∃ k y, low ≤ k ∧ AtHeight base k y ∧ Path succ x y
  known : ∀ z, Edge succ x z → s.Known low z

theorem Anchored.mono {base : List V} {low low' : Nat} {s s' : Search V} {x : V}
    (h : Anchored succ base low s x) (hg : s.Grows s') (hl : low' ≤ low) :
    Anchored succ base low' s' x := by
  obtain ⟨⟨k, y, hk, hy, hxy⟩, hknown⟩ := h
  exact ⟨⟨k, y, Nat.le_trans hl hk, hy, hxy⟩, fun z hz => (hknown z hz).mono hg hl⟩

variable (vertices succ) in
/-- After a visit of `v` from `s`, which has returned `low` and `s'`. -/
structure Visited (v : V) (s : Search V) (low : Nat) (s' : Search V) : Prop where
  valid : s'.Valid vertices succ
  complete : s.complete ⊆ s'.complete
  pending : ∃ new, s'.pending = new ++ s.pending ∧
    ∀ x ∈ new, Path succ v x ∧ Anchored succ s.pending low s' x
  low_le : low ≤ s.pending.length
  low_cases : low = s.pending.length ∨ ∃ y, AtHeight s.pending low y ∧ Path succ v y
  seen : s'.Known s.pending.length v

theorem Visited.grows {v : V} {s s' : Search V} {low : Nat}
    (h : Visited vertices succ v s low s') : s.Grows s' := by
  obtain ⟨new, hnew, -⟩ := h.pending
  exact ⟨⟨new, hnew.symm⟩, h.complete⟩

variable (vertices succ) in
/-- In a visit of `v` from `s`: the edges to `done` are followed, which has led to `s'`, and `low`
is the least height seen so far. -/
structure Following (v : V) (s : Search V) (done : List V) (low : Nat) (s' : Search V) : Prop where
  valid : s'.Valid vertices succ
  complete : s.complete ⊆ s'.complete
  pending : ∃ top, s'.pending = top ++ v :: s.pending ∧
    ∀ x ∈ top, Path succ v x ∧ Anchored succ (v :: s.pending) low s' x
  low_le : low ≤ s.pending.length
  low_cases : low = s.pending.length ∨ ∃ y, AtHeight s.pending low y ∧ Path succ v y
  followed : ∀ z ∈ done, s'.Known low z

/-- Before the first edge. -/
theorem Following.enter {v : V} {s : Search V} (h : s.Valid vertices succ) (hv : v ∈ vertices)
    (hnp : v ∉ s.pending) (hnc : v ∉ s.complete) :
    Following vertices succ v s [] s.pending.length (s.enter v) where
  valid := h.enter hv hnp hnc
  complete := List.Subset.refl _
  pending := ⟨[], rfl, fun _ hx => absurd hx List.not_mem_nil⟩
  low_le := Nat.le_refl _
  low_cases := .inl rfl
  followed := fun _ hz => absurd hz List.not_mem_nil

/-- An edge to a vertex in a complete component. -/
theorem Following.step_complete {v w : V} {s s' : Search V} {done : List V} {low : Nat}
    (h : Following vertices succ v s done low s') (hw : w ∈ s'.complete) :
    Following vertices succ v s (done ++ [w]) low s' where
  valid := h.valid
  complete := h.complete
  pending := h.pending
  low_le := h.low_le
  low_cases := h.low_cases
  followed := by
    intro z hz
    rcases List.mem_append.1 hz with hz | hz
    · exact h.followed z hz
    · rw [List.mem_singleton.1 hz]
      exact .inl hw

/-- An edge to a vertex that is pending at height `k`. -/
theorem Following.step_pending {v w : V} {s s' : Search V} {done : List V} {low k : Nat}
    (h : Following vertices succ v s done low s') (hw : Edge succ v w)
    (hk : AtHeight s'.pending k w) :
    Following vertices succ v s (done ++ [w]) (min low k) s' := by
  obtain ⟨top, htop, hx⟩ := h.pending
  have hle : min low k ≤ low := Nat.min_le_left _ _
  refine ⟨h.valid, h.complete, ⟨top, htop, fun x hm => ?_⟩, Nat.le_trans hle h.low_le, ?_,
    fun z hz => ?_⟩
  · exact ⟨(hx x hm).1, (hx x hm).2.mono (.refl _) hle⟩
  · rcases Nat.lt_or_ge k low with hlt | hge
    · rw [Nat.min_eq_right (Nat.le_of_lt hlt)]
      -- below `low`, and so below `v`, the stack is the one from before the visit
      have hks : k < s.pending.length := Nat.lt_of_lt_of_le hlt h.low_le
      have hold : AtHeight s.pending k w :=
        AtHeight.of_append (top ++ [v]) (by simpa [htop] using hk) hks
      exact .inr ⟨w, hold, .single hw⟩
    · rw [Nat.min_eq_left hge]
      exact h.low_cases
  · rcases List.mem_append.1 hz with hz | hz
    · exact (h.followed z hz).mono (.refl _) hle
    · rw [List.mem_singleton.1 hz]
      exact .inr ⟨k, Nat.min_le_right _ _, hk⟩

/-- An edge to a new vertex, which is visited. -/
theorem Following.step_visited {v w : V} {s s' s'' : Search V} {done : List V} {low low' : Nat}
    (h : Following vertices succ v s done low s') (hw : Edge succ v w)
    (hv : Visited vertices succ w s' low' s'') :
    Following vertices succ v s (done ++ [w]) (min low low') s'' := by
  obtain ⟨top, htop, hx⟩ := h.pending
  obtain ⟨new, hnew, hy⟩ := hv.pending
  have hle : min low low' ≤ low := Nat.min_le_left _ _
  have hle' : min low low' ≤ low' := Nat.min_le_right _ _
  have hlow := h.low_le
  -- what `w` has left reaches the stack of `v`: directly or through `top`
  have hanchor : ∀ x k y, low' ≤ k → AtHeight s'.pending k y → Path succ x y →
      ∃ k' y', min low low' ≤ k' ∧ AtHeight (v :: s.pending) k' y' ∧ Path succ x y' := by
    intro x k y hk hky hxy
    rw [htop] at hky
    rcases Nat.lt_or_ge k (v :: s.pending).length with hlt | hge
    · exact ⟨k, y, Nat.le_trans hle' hk, hky.of_append top hlt, hxy⟩
    · obtain ⟨k', y', hk', hy', hyy'⟩ := (hx y (hky.mem_top top hge)).2.reaches
      exact ⟨k', y', Nat.le_trans hle hk', hy', hxy.trans hyy'⟩
  refine ⟨hv.valid, List.Subset.trans h.complete hv.complete,
    ⟨new ++ top, by rw [hnew, htop, List.append_assoc], fun x hm => ?_⟩,
    Nat.le_trans hle hlow, ?_, fun z hz => ?_⟩
  · rcases List.mem_append.1 hm with hm | hm
    · obtain ⟨hwx, ⟨⟨k, y, hk, hky, hxy⟩, hknown⟩⟩ := hy x hm
      exact ⟨.head hw hwx, hanchor x k y hk hky hxy,
        fun z hz => (hknown z hz).mono (.refl _) hle'⟩
    · exact ⟨(hx x hm).1, (hx x hm).2.mono hv.grows hle⟩
  · rcases Nat.lt_or_ge low' low with hlt | hge
    · rw [Nat.min_eq_right (Nat.le_of_lt hlt)]
      rcases hv.low_cases with heq | ⟨y, hy', hwy⟩
      · have hlen : low' = (top ++ v :: s.pending).length := by rw [heq, htop]
        simp only [List.length_append, List.length_cons] at hlen
        omega
      · have hold : AtHeight s.pending low' y :=
          AtHeight.of_append (top ++ [v]) (by simpa [htop] using hy') (by omega)
        exact .inr ⟨y, hold, .head hw hwy⟩
    · rw [Nat.min_eq_left hge]
      exact h.low_cases
  · rcases List.mem_append.1 hz with hz | hz
    · exact (h.followed z hz).mono hv.grows hle
    · rw [List.mem_singleton.1 hz]
      refine hv.seen.mono (.refl _) (Nat.le_trans hle (Nat.le_trans hlow ?_))
      rw [htop, List.length_append, List.length_cons]
      omega

/-- All edges are followed, and one of them leads further down than `v`: `v` stays pending. -/
theorem Following.suspend {v : V} {s s' : Search V} {low : Nat}
    (h : Following vertices succ v s (succ v) low s') (hlow : low < s.pending.length) :
    Visited vertices succ v s low s' := by
  obtain ⟨top, htop, hx⟩ := h.pending
  obtain ⟨y, hy, hvy⟩ := h.low_cases.resolve_left (Nat.ne_of_lt hlow)
  refine ⟨h.valid, h.complete, ⟨top ++ [v], by simp [htop], fun x hm => ?_⟩, h.low_le,
    .inr ⟨y, hy, hvy⟩, .inr ⟨s.pending.length, Nat.le_refl _, ?_⟩⟩
  · rcases List.mem_append.1 hm with hm | hm
    · obtain ⟨hvx, ⟨⟨k, z, hk, hz, hxz⟩, hknown⟩⟩ := hx x hm
      refine ⟨hvx, ?_, hknown⟩
      rcases Nat.lt_or_ge k s.pending.length with hlt | hge
      · exact ⟨k, z, hk, AtHeight.of_append [v] hz hlt, hxz⟩
      · -- the vertex is `v` itself, which reaches `y`
        have hzv : z = v := List.mem_singleton.1 (AtHeight.mem_top [v] hz hge)
        exact ⟨low, y, Nat.le_refl _, hy, hxz.trans (hzv ▸ hvy)⟩
    · rw [List.mem_singleton.1 hm]
      exact ⟨.refl, ⟨low, y, Nat.le_refl _, hy, hvy⟩, fun z hz => h.followed z hz⟩
  · rw [htop]
    exact (atHeight_cons v s.pending).append top

/-- All edges are followed, and none of them leads further down than `v`: `v` and what is pending
above it are a component. -/
theorem Following.close {v : V} {s s' : Search V}
    (h : Following vertices succ v s (succ v) s.pending.length s') :
    Visited vertices succ v s s.pending.length (s'.close s.pending.length) := by
  obtain ⟨top, htop, hx⟩ := h.pending
  have hstack : s'.pending = (top ++ [v]) ++ s.pending := by simp [htop]
  -- what is known from `v` on upwards is complete or in the new component
  have hknown : ∀ z, s'.Known s.pending.length z → z ∈ top ++ [v] ∨ z ∈ s'.complete := by
    intro z hz
    rcases hz with hz | ⟨k, hk, hz⟩
    · exact .inr hz
    · exact .inl (AtHeight.mem_top _ (hstack ▸ hz) hk)
  have hto : ∀ x ∈ top ++ [v], Path succ x v := by
    intro x hm
    rcases List.mem_append.1 hm with hm | hm
    · obtain ⟨k, z, hk, hz, hxz⟩ := (hx x hm).2.reaches
      have hzv : z = v := List.mem_singleton.1 (AtHeight.mem_top [v] hz hk)
      exact hzv ▸ hxz
    · rw [List.mem_singleton.1 hm]
  have hfrom : ∀ x ∈ top ++ [v], Path succ v x := by
    intro x hm
    rcases List.mem_append.1 hm with hm | hm
    · exact (hx x hm).1
    · rw [List.mem_singleton.1 hm]
  have hout : ∀ x ∈ top ++ [v], ∀ z, Edge succ x z → z ∈ top ++ [v] ∨ z ∈ s'.complete := by
    intro x hm z hz
    rcases List.mem_append.1 hm with hm | hm
    · exact hknown z ((hx x hm).2.known z hz)
    · exact hknown z (h.followed z (List.mem_singleton.1 hm ▸ hz))
  have hcomplete : Search.complete ⟨s.pending, s'.closed ++ [top ++ [v]]⟩ =
      s'.complete ++ (top ++ [v]) := by simp [Search.complete]
  rw [Search.close_append hstack]
  refine ⟨h.valid.close hstack (by simp) (fun x hm y hm' => (hto x hm).trans (hfrom y hm')) hout,
    ?_, ⟨[], rfl, fun _ hm => absurd hm List.not_mem_nil⟩, Nat.le_refl _, .inl rfl, .inl ?_⟩
  · rw [hcomplete]
    exact fun x hm => List.mem_append_left _ (h.complete hm)
  · rw [hcomplete]
    simp

/-! ## The recursion -/

section
variable [DecidableEq V]

variable (vertices succ) in
/-- Visits of depth `depth` do what they should, wherever the vertices that are not pending yet are
no more than that, and a larger bound changes nothing. -/
def VisitSpec (depth : Nat) : Prop :=
  ∀ (v : V) (s : Search V), s.Valid vertices succ → v ∈ vertices → v ∉ s.pending →
    v ∉ s.complete → vertices.length ≤ s.pending.length + depth →
    Visited vertices succ v s (s.visit succ depth v).1 (s.visit succ depth v).2 ∧
      ∀ d, depth ≤ d → s.visit succ d v = s.visit succ depth v

/-- One edge is followed. -/
theorem VisitSpec.follow {depth : Nat} (hspec : VisitSpec vertices succ depth) {v w : V}
    {s : Search V} {done : List V} {seen : Nat × Search V}
    (h : Following vertices succ v s done seen.1 seen.2) (hw : Edge succ v w)
    (hmem : w ∈ vertices) (hroom : vertices.length ≤ s.pending.length + (depth + 1)) :
    Following vertices succ v s (done ++ [w]) (Search.follow (Search.visit succ depth) seen w).1
        (Search.follow (Search.visit succ depth) seen w).2 ∧
      ∀ d, depth ≤ d → Search.follow (Search.visit succ d) seen w =
        Search.follow (Search.visit succ depth) seen w := by
  obtain ⟨low, s'⟩ := seen
  by_cases hc : s'.isClosed w = true
  · simp only [Search.follow, hc, if_true, implies_true, and_true]
    exact h.step_complete (Search.isClosed_iff.1 hc)
  · simp only [Search.follow, hc, Bool.false_eq_true, if_false]
    cases hh : s'.height? w with
    | some k => exact ⟨h.step_pending hw (Search.atHeight_of_height? hh), fun _ _ => rfl⟩
    | none =>
      obtain ⟨top, htop, -⟩ := h.pending
      have hroom' : vertices.length ≤ s'.pending.length + depth := by
        have hlen : s'.pending.length = (top ++ v :: s.pending).length := by rw [htop]
        simp only [List.length_append, List.length_cons] at hlen
        omega
      obtain ⟨hv, hd⟩ := hspec w s' h.valid hmem (Search.height?_eq_none.1 hh)
        (fun hm => hc (Search.isClosed_iff.2 hm)) hroom'
      exact ⟨h.step_visited hw hv, fun d hle => by rw [hd d hle]⟩

/-- The edges to `rest` are followed, one after another. -/
theorem VisitSpec.followAll {depth : Nat} (hspec : VisitSpec vertices succ depth) {v : V}
    {s : Search V} (hroom : vertices.length ≤ s.pending.length + (depth + 1)) (rest : List V) :
    ∀ (done : List V) (seen : Nat × Search V), (∀ w ∈ rest, Edge succ v w ∧ w ∈ vertices) →
      Following vertices succ v s done seen.1 seen.2 →
      Following vertices succ v s (done ++ rest)
          (rest.foldl (Search.follow (Search.visit succ depth)) seen).1
          (rest.foldl (Search.follow (Search.visit succ depth)) seen).2 ∧
        ∀ d, depth ≤ d → rest.foldl (Search.follow (Search.visit succ d)) seen =
          rest.foldl (Search.follow (Search.visit succ depth)) seen := by
  induction rest with
  | nil =>
    intro done seen _ h
    exact ⟨by simpa using h, fun _ _ => rfl⟩
  | cons w rest ih =>
    intro done seen hrest h
    obtain ⟨hw, hmem⟩ := hrest w List.mem_cons_self
    obtain ⟨hstep, heq⟩ := hspec.follow h hw hmem hroom
    obtain ⟨hall, heqs⟩ := ih _ _ (fun z hz => hrest z (List.mem_cons_of_mem _ hz)) hstep
    refine ⟨by simpa using hall, fun d hd => ?_⟩
    rw [List.foldl_cons, List.foldl_cons, heq d hd, heqs d hd]

/-- **A visit** of a new vertex keeps the invariant, leaves only vertices behind that reach further
down, and does not depend on the bound for the depth. -/
theorem visit_spec (hsucc : ∀ v ∈ vertices, ∀ w, Edge succ v w → w ∈ vertices) (depth : Nat) :
    VisitSpec vertices succ depth := by
  induction depth with
  | zero =>
    intro v s hs hv hnp _ hroom
    have := hs.length_lt hv hnp
    omega
  | succ depth ih =>
    intro v s hs hv hnp hnc hroom
    have hedges : ∀ w ∈ succ v, Edge succ v w ∧ w ∈ vertices := fun w hw => ⟨hw, hsucc v hv w hw⟩
    obtain ⟨hall, heq⟩ := ih.followAll hroom (succ v) [] (s.pending.length, s.enter v)
      hedges (.enter hs hv hnp hnc)
    rw [List.nil_append] at hall
    refine ⟨?_, fun d hd => ?_⟩
    · simp only [Search.visit]
      generalize (succ v).foldl (Search.follow (Search.visit succ depth))
        (s.pending.length, s.enter v) = seen at hall
      by_cases hlow : seen.1 < s.pending.length
      · simp only [hlow, if_true]
        exact hall.suspend hlow
      · simp only [hlow, if_false]
        have hlow' : seen.1 = s.pending.length := Nat.le_antisymm hall.low_le (Nat.le_of_not_lt hlow)
        exact (hlow' ▸ hall).close
    · obtain ⟨d, rfl⟩ : ∃ n, d = n + 1 := ⟨d - 1, by omega⟩
      simp only [Search.visit, heq d (by omega)]

end

end

end Letrec.Graph
