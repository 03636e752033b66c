import Letrec.Proofs.Term.Path
import Letrec.Proofs.Term.Place

/-!
# Free names in pre-order

A variable is unbound if no step on the path to it binds its name. `Term.unbound` picks these
variables out of the nodes of a term, each with its path; it looks at a term from the root down.
`Term.free` finds their names on the way back from the leaves (`map_snd_unbound`).

The names can be collected in one list, to which every part of the term adds its own.
`Term.collectFree` does so: what the scope of a binder has added stands at the end of the list, from
a known position on, and is thinned out there. The names collected before are not touched
(`collectFree_eq`).
-/

namespace Letrec

variable {α : Type}

/-- The variable at the end of the path, with the names that are bound on the way. -/
def Path.place? (path : Path) : Term α → Option (Place α)
  | .var a m x => some ⟨a, m, x, path.flatMap Step.binds⟩
  | _ => none

theorem Path.place?_eq_some_iff {path : Path} {t : Term α} {v : Place α} :
    path.place? t = some v ↔
      ∃ a m x, t = .var a m x ∧ ⟨a, m, x, path.flatMap Step.binds⟩ = v := by
  cases t <;> simp [Path.place?, and_assoc]

theorem Path.place?_cons (s : Step) (path : Path) (t : Term α) :
    Path.place? (s :: path) t = (Path.place? path t).map (.inside s.binds) := by
  cases t <;> rfl

namespace Term

variable {t : Term α} {path : Path} {x : Name}

/-! ## Unbound variables -/

theorem places_parts (t : Term α) :
    t.places = (Path.place? [] t).toList ++
      t.parts.flatMap fun p => p.2.places.map (.inside p.1.binds) := by
  -- a step that binds nothing changes nothing
  have hnil : ∀ vs : List (Place α), vs.map (.inside []) = vs := fun vs => List.map_id vs
  cases t with
  | lit | var | builtin => rfl
  | app | fix => simp [places, parts, Path.place?, Step.binds, hnil]
  | lam | letIn => simp [places, parts, Path.place?, Step.binds]
  | caseOf a s alts =>
    rw [places, placesAlts_eq, parts, List.flatMap_cons, Step.binds, hnil]
    exact congrArg (s.places ++ ·) (flatMap_alts (fun _ _ => rfl) alts).symm

/-- The variables among the nodes. -/
theorem places_eq_filterMap_nodes (t : Term α) :
    t.places = t.nodes.filterMap fun n => Path.place? n.1 n.2 := by
  induction t using ind_parts with
  | node t ih =>
    have hroot : t.nodes.filterMap (fun n => Path.place? n.1 n.2) =
        (Path.place? [] t).toList ++ (t.parts.flatMap fun p =>
          p.2.nodes.map fun n => (p.1 :: n.1, n.2)).filterMap fun n => Path.place? n.1 n.2 := by
      rw [nodes_eq, List.filterMap_cons]
      cases Path.place? [] t <;> rfl
    rw [places_parts, hroot, List.filterMap_flatMap]
    refine congrArg (_ ++ ·) (List.flatMap_congr fun p hp => ?_)
    rw [ih p hp, List.map_filterMap, List.filterMap_map]
    exact List.filterMap_congr fun n _ => (Path.place?_cons p.1 n.1 n.2).symm

/-- The variables that no step on their paths binds, in pre-order. -/
def unbound (t : Term α) : List (Path × Name) :=
  t.nodes.filterMap fun n =>
    ((Path.place? n.1 n.2).filter (·.Free)).map fun v => (n.1, v.name)

theorem map_snd_unbound (t : Term α) : t.unbound.map Prod.snd = t.free := by
  rw [free_eq_name_filter_places, places_eq_filterMap_nodes, List.filter_filterMap,
    List.map_filterMap, unbound, List.map_filterMap]
  simp only [Option.map_map, Function.comp_def]

theorem mem_unbound_iff :
    (path, x) ∈ t.unbound ↔
      (∃ a m, t.At path (.var a m x)) ∧ ∀ step ∈ path, x ∉ step.binds := by
  have hfree : x ∉ path.flatMap Step.binds ↔ ∀ step ∈ path, x ∉ step.binds := by
    simp [List.mem_flatMap]
  rw [← hfree, unbound, List.mem_filterMap]
  constructor
  · rintro ⟨⟨path', u⟩, hn, hx⟩
    obtain ⟨v, hv, heq⟩ := Option.map_eq_some_iff.1 hx
    obtain ⟨hv, hnot⟩ := Option.filter_eq_some_iff.1 hv
    obtain ⟨a, m, y, rfl, rfl⟩ := Path.place?_eq_some_iff.1 hv
    obtain ⟨rfl, rfl⟩ := Prod.mk.inj heq
    exact ⟨⟨a, m, mem_nodes_iff.1 hn⟩, of_decide_eq_true hnot⟩
  · rintro ⟨⟨a, m, hat⟩, hnot⟩
    refine ⟨_, mem_nodes_iff.2 hat, ?_⟩
    simp [Path.place?, Place.Free, hnot]

theorem pairwise_unbound (t : Term α) :
    t.unbound.Pairwise fun v w => Path.Before v.1 w.1 := by
  refine List.pairwise_filterMap.2 (t.pairwise_nodes.imp fun hlt v hv w hw => ?_)
  obtain ⟨_, -, rfl⟩ := Option.map_eq_some_iff.1 hv
  obtain ⟨_, -, rfl⟩ := Option.map_eq_some_iff.1 hw
  exact hlt

/-! ## Collecting in one list -/

/-- Thins out the names from position `start` on. -/
def dropBound (bound : List Name) (start : Nat) (refs : List Name) : List Name :=
  refs.take start ++ (refs.drop start).filter (· ∉ bound)

theorem dropBound_append (bound refs new : List Name) :
    dropBound bound refs.length (refs ++ new) = refs ++ new.filter (· ∉ bound) := by
  rw [dropBound, List.take_left, List.drop_left]

mutual

/-- Adds the free names of a term to the names collected so far. -/
def collectFree (refs : List Name) : Term α → List Name
  | lit .. | builtin .. => refs
  | var _ _ x => refs ++ [x]
  | app _ f s => s.collectFree (f.collectFree refs)
  | lam _ x b => dropBound [x] refs.length (b.collectFree refs)
  | letIn _ x e b => dropBound [x] refs.length (b.collectFree (e.collectFree refs))
  | caseOf _ s alts => collectFreeAlts (s.collectFree refs) alts
  | fix _ b => b.collectFree refs

def collectFreeAlts (refs : List Name) : List (Alternative α) → List Name
  | [] => refs
  | (p, t) :: alts => collectFreeAlts (dropBound p.bound refs.length (t.collectFree refs)) alts

end

/-- The list grows at its end, and by the free names only. -/
theorem collectFree_eq (t : Term α) (refs : List Name) : t.collectFree refs = refs ++ t.free := by
  induction t generalizing refs with
  | lit | builtin => simp [collectFree]
  | var a m x => rfl
  | app a f s ihf ihs => rw [collectFree, ihf, ihs, free, List.append_assoc]
  | lam a x b ih => simp [collectFree, ih, dropBound_append, free]
  | letIn a x e b ihe ihb =>
    rw [collectFree, ihe, ihb, List.append_assoc, dropBound_append, free]
    simp
  | caseOf a s alts ihs ih =>
    rw [collectFree, ihs, free, ← List.append_assoc]
    generalize refs ++ s.free = refs
    induction alts generalizing refs with
    | nil => simp [collectFreeAlts, freeAlts]
    | cons alt alts ihalts =>
      rw [collectFreeAlts, ih alt List.mem_cons_self, dropBound_append, freeAlts,
        ihalts fun alt' halt' => ih alt' (List.mem_cons_of_mem alt halt'), List.append_assoc]
  | fix a b ih => exact ih refs

/-- **The free names are those of the unbound variables, in pre-order.** A name is listed once for
every variable of that name on whose path no step binds it: an abstraction binds its parameter in
the body, a let its name in both parts, and a pattern its variables in its own alternative.
Collecting them leaves names that have been collected before as they are. -/
theorem free_in_preorder (t : Term α) :
    (∀ refs, t.collectFree refs = refs ++ t.free) ∧
      ∃ vs : List (Path × Name), t.free = vs.map Prod.snd ∧
        vs.Pairwise (fun v w => Path.Before v.1 w.1) ∧
        ∀ path x, (path, x) ∈ vs ↔
          (∃ a m, t.At path (.var a m x)) ∧ ∀ step ∈ path, x ∉ step.binds :=
  ⟨t.collectFree_eq, t.unbound, t.map_snd_unbound.symm, t.pairwise_unbound,
    fun _ _ => mem_unbound_iff⟩

end Term

end Letrec
