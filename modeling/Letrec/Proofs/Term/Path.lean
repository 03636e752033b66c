import Letrec.Term.Basic
import Mathlib.Data.List.Basic

/-!
# Paths

A `Step` leads from a node of a term down to one of its direct subterms. It carries what the node
binds on the way, so that the path from the root to a node shows the binders that the node lies
under. `t.At path u` says where a path leads.

`Term.parts` lists the direct subterms of a term with the steps to them. What a function on terms
does at each constructor is said by one equation on the parts; what follows for all nodes is then
proved once, by `Term.ind_parts`.

`Term.nodes` lists the nodes with their paths. Each is listed (`mem_nodes_iff`), and the list is in
pre-order, a node before what lies below it and the left before the right (`pairwise_nodes`).
-/

namespace Letrec

/-- The way from a node to one of its direct subterms. -/
inductive Step where
  | func
  | arg
  | lam (param : Name)
  /-- To the bound term of a let. -/
  | bound (name : Name)
  /-- To the body of a let. -/
  | body (name : Name)
  | scrutinee
  | alt (index : Nat) (pattern : Pattern)
  | fix
  deriving DecidableEq, Repr

/-- The names that the node binds in that subterm. -/
def Step.binds : Step → List Name
  | lam x | bound x | body x => [x]
  | alt _ p => p.bound
  | func | arg | scrutinee | fix => []

/-- The number of subterms to the left of that one. -/
def Step.index : Step → Nat
  | func | lam _ | bound _ | scrutinee | fix => 0
  | arg | body _ => 1
  | alt i _ => i + 1

/-- The steps from the root of a term to one of its nodes, the first one first. -/
abbrev Path := List Step

/-- Whether a node comes before another one in pre-order. -/
def Path.Before : Path → Path → Prop := List.Lex fun s s' => s.index < s'.index

namespace Term

variable {α : Type} {t u : Term α} {path : Path}

/-- The direct subterms from left to right, each with the step to it. -/
def parts : Term α → List (Step × Term α)
  | lit .. | var .. | builtin .. => []
  | app _ f s => [(.func, f), (.arg, s)]
  | lam _ x b => [(.lam x, b)]
  | letIn _ x e b => [(.bound x, e), (.body x, b)]
  | caseOf _ s alts => (.scrutinee, s) :: alts.mapIdx fun i alt => (.alt i alt.1, alt.2)
  | fix _ b => [(.fix, b)]

theorem map_snd_parts (t : Term α) : t.parts.map Prod.snd = t.children := by
  cases t with
  | caseOf a s alts => exact congrArg (s :: ·) (List.ext_getElem (by simp) (by simp))
  | _ => rfl

/-- The alternatives among the parts, taken one by one. -/
theorem flatMap_alts {β : Type} {f : Step × Term α → List β} {g : Alternative α → List β}
    (h : ∀ i alt, f (.alt i alt.1, alt.2) = g alt) (alts : List (Alternative α)) :
    (alts.mapIdx fun i alt => (Step.alt i alt.1, alt.2)).flatMap f = alts.flatMap g := by
  have hfst := List.zipIdx_map_fst 0 alts
  rw [List.mapIdx_eq_zipIdx_map, List.flatMap_map]
  simp only [h]
  rw [← List.flatMap_map Prod.fst g, hfst]

theorem size_lt_of_mem_parts {p : Step × Term α} (h : p ∈ t.parts) : p.2.size < t.size := by
  cases t with
  | lit | var | builtin => cases h
  | app a f s =>
    rcases List.mem_pair.1 h with rfl | rfl <;> simp only [size] <;> omega
  | lam | fix =>
    obtain rfl := List.mem_singleton.1 h
    exact Nat.lt_succ_self _
  | letIn a x e b =>
    rcases List.mem_pair.1 h with rfl | rfl <;> simp only [size] <;> omega
  | caseOf a s alts =>
    rcases List.mem_cons.1 h with rfl | h
    · simp only [size]
      omega
    · obtain ⟨i, hi, rfl⟩ := List.mem_mapIdx.1 h
      exact size_lt_caseOf a s (List.getElem_mem hi)

/-- Induction over terms: what holds of a term if it holds of its parts holds of every term. -/
theorem ind_parts {motive : Term α → Prop}
    (node : ∀ t, (∀ p ∈ t.parts, motive p.2) → motive t) (t : Term α) : motive t := by
  induction hn : t.size using Nat.strongRecOn generalizing t with
  | ind n ih => exact node t fun p hp => ih _ (hn ▸ size_lt_of_mem_parts hp) p.2 rfl

/-- The parts are numbered from left to right. -/
theorem pairwise_parts (t : Term α) : t.parts.Pairwise fun p q => p.1.index < q.1.index := by
  cases t with
  | lit | var | builtin => exact .nil
  | app | letIn => simp [parts, Step.index]
  | lam | fix => exact List.pairwise_singleton _ _
  | caseOf a s alts =>
    refine List.pairwise_cons.2 ⟨fun p hp => ?_, ?_⟩
    · obtain ⟨i, hi, rfl⟩ := List.mem_mapIdx.1 hp
      exact Nat.succ_pos i
    · refine List.pairwise_iff_getElem.2 fun i j hi hj hij => ?_
      simpa [Step.index] using hij

/-! ## Nodes -/

/-- The steps of `path` lead from the root of the first term to the second one. -/
inductive At : Term α → Path → Term α → Prop where
  | root {t : Term α} : At t [] t
  | step {t u v : Term α} {s : Step} {path : Path} :
      (s, v) ∈ t.parts → At v path u → At t (s :: path) u

/-- All nodes in pre-order, each with the path to it and the subterm that it is the root of. -/
def nodes (t : Term α) : List (Path × Term α) :=
  ([], t) :: t.parts.attach.flatMap fun p => p.1.2.nodes.map fun n => (p.1.1 :: n.1, n.2)
termination_by t.size
decreasing_by exact size_lt_of_mem_parts p.2

theorem nodes_eq (t : Term α) :
    t.nodes = ([], t) :: t.parts.flatMap fun p => p.2.nodes.map fun n => (p.1 :: n.1, n.2) := by
  have hval := List.attach_map_val (l := t.parts)
    (f := fun p => p.2.nodes.map fun n => (p.1 :: n.1, n.2))
  rw [nodes, List.flatMap_def, List.flatMap_def, hval]

theorem mem_nodes_iff : (path, u) ∈ t.nodes ↔ t.At path u := by
  refine ⟨fun h => ?_, fun h => ?_⟩
  · induction t using ind_parts generalizing path with
    | node t ih =>
      rw [nodes_eq] at h
      rcases List.mem_cons.1 h with h | h
      · obtain ⟨rfl, rfl⟩ := Prod.mk.inj h
        exact .root
      · obtain ⟨p, hp, h⟩ := List.mem_flatMap.1 h
        obtain ⟨n, hn, heq⟩ := List.mem_map.1 h
        obtain ⟨rfl, rfl⟩ := Prod.mk.inj heq
        exact .step hp (ih p hp hn)
  · induction h with
    | root =>
      rw [nodes_eq]
      exact List.mem_cons_self
    | step hp _ ih =>
      rw [nodes_eq]
      exact List.mem_cons_of_mem _ (List.mem_flatMap.2 ⟨_, hp, List.mem_map_of_mem ih⟩)

/-- **The nodes are listed in pre-order.** -/
theorem pairwise_nodes (t : Term α) :
    t.nodes.Pairwise fun n n' => Path.Before n.1 n'.1 := by
  induction t using ind_parts with
  | node t ih =>
    rw [nodes_eq, List.pairwise_cons, List.pairwise_flatMap]
    refine ⟨fun n hn => ?root, fun p hp => ?inside, ?between⟩
    case root =>
      obtain ⟨p, -, hn⟩ := List.mem_flatMap.1 hn
      obtain ⟨n, -, rfl⟩ := List.mem_map.1 hn
      exact .nil
    case inside =>
      exact List.pairwise_map.2 ((ih p hp).imp fun h => .cons h)
    case between =>
      refine t.pairwise_parts.imp fun hlt n hn n' hn' => ?_
      obtain ⟨m, -, rfl⟩ := List.mem_map.1 hn
      obtain ⟨m', -, rfl⟩ := List.mem_map.1 hn'
      exact .rel hlt

end Term

end Letrec
