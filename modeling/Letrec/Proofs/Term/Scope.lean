import Letrec.Term.Scope
import Letrec.Proofs.Term.Path

/-!
# Scopes and paths

`Term.adorn` hands the scope down from node to node, deeper at every step, and sets it anew where a
step leads to the bound term of a let. The scope of a node is therefore read off its path
(`Path.scope`, `At.adorn_iff`), and what counts on the path is the last let whose bound term it
leads through (`Path.Within`): the node is the root of that bound term or lies further inside
(`Path.scope_eq_shallow_iff`, `Path.scope_eq_deep_iff`), or there is no such let
(`Path.scope_eq_unscoped_iff`). Nothing but the annotations is changed (`map_snd_adornIn`).
-/

namespace Letrec

/-- The scope of a subterm if that of the node above it is `s`. -/
def Step.scope (s : Scope) : Step → Scope
  | bound f => .shallow f
  | func | arg | lam _ | body _ | scrutinee | alt .. | fix => s.deepen

namespace Path

variable {path below : Path} {f : Name} {s : Scope}

/-- The scope of the node at the end of the path. -/
def scope (path : Path) : Scope := path.foldl Step.scope .unscoped

/-- The innermost let whose bound term contains the end of the path is one of `f`, and `below` leads
there from the root of the bound term. -/
def Within (path : Path) (f : Name) (below : Path) : Prop :=
  ∃ above, path = above ++ .bound f :: below ∧ ∀ g, .bound g ∉ below

/-- Outside of bound terms the scope is deepened, once or more often. -/
theorem foldl_scope_of_not_mem (h : ∀ f, .bound f ∉ path) :
    path.foldl Step.scope s = if path = [] then s else s.deepen := by
  induction path generalizing s with
  | nil => rfl
  | cons st path ih =>
    have hstep : Step.scope s st = s.deepen := by
      cases st with
      | bound f => exact absurd List.mem_cons_self (h f)
      | _ => rfl
    rw [List.foldl_cons, hstep, ih fun f hf => h f (List.mem_cons_of_mem st hf)]
    simp

theorem scope_of_not_mem (h : ∀ f, .bound f ∉ path) : path.scope = .unscoped := by
  rw [scope, foldl_scope_of_not_mem h]
  split <;> rfl

theorem Within.scope_eq (h : path.Within f below) :
    path.scope = if below = [] then .shallow f else .deep f := by
  obtain ⟨above, rfl, hbelow⟩ := h
  rw [Path.scope, List.foldl_append, List.foldl_cons, foldl_scope_of_not_mem hbelow]
  rfl

theorem not_mem_or_within (path : Path) :
    (∀ f, .bound f ∉ path) ∨ ∃ f below, path.Within f below := by
  induction path with
  | nil => exact .inl fun f => List.not_mem_nil
  | cons st path ih =>
    rcases ih with hnot | ⟨f, below, above, rfl, hbelow⟩
    · by_cases hst : ∃ f, st = .bound f
      · obtain ⟨f, rfl⟩ := hst
        exact .inr ⟨f, path, [], rfl, hnot⟩
      · refine .inl fun f hf => ?_
        rcases List.mem_cons.1 hf with h | h
        · exact hst ⟨f, h.symm⟩
        · exact hnot f h
    · exact .inr ⟨f, below, st :: above, rfl, hbelow⟩

theorem scope_eq_shallow_iff : path.scope = .shallow f ↔ path.Within f [] := by
  refine ⟨fun h => ?_, fun h => h.scope_eq⟩
  rcases path.not_mem_or_within with hnot | ⟨g, below, hwithin⟩
  · rw [scope_of_not_mem hnot] at h
    cases h
  · rw [hwithin.scope_eq] at h
    split at h
    · next hroot => exact Scope.shallow.inj h ▸ hroot ▸ hwithin
    · cases h

theorem scope_eq_deep_iff :
    path.scope = .deep f ↔ ∃ below, below ≠ [] ∧ path.Within f below := by
  constructor
  · intro h
    rcases path.not_mem_or_within with hnot | ⟨g, below, hwithin⟩
    · rw [scope_of_not_mem hnot] at h
      cases h
    · rw [hwithin.scope_eq] at h
      split at h
      · cases h
      · next hinside => exact ⟨below, hinside, Scope.deep.inj h ▸ hwithin⟩
  · rintro ⟨below, hinside, hwithin⟩
    rw [hwithin.scope_eq, if_neg hinside]

theorem scope_eq_unscoped_iff : path.scope = .unscoped ↔ ∀ f, .bound f ∉ path := by
  refine ⟨fun h => ?_, scope_of_not_mem⟩
  rcases path.not_mem_or_within with hnot | ⟨g, below, hwithin⟩
  · exact hnot
  · rw [hwithin.scope_eq] at h
    split at h <;> cases h

end Path

namespace Term

variable {α : Type} {t : Term α} {u : Term (Scope × α)} {s : Scope} {path : Path}

theorem ann_adornIn (s : Scope) (t : Term α) : (t.adornIn s).ann = (s, t.ann) := by
  cases t <;> rfl

/-- Without the scopes the term is what it was. -/
theorem map_snd_adornIn (t : Term α) (s : Scope) : (t.adornIn s).map Prod.snd = t := by
  induction t generalizing s with
  | lit | var | builtin => rfl
  | app a f t ihf iht => rw [adornIn, map, ihf, iht]
  | lam a x b ih => rw [adornIn, map, ih]
  | letIn a x e b ihe ihb => rw [adornIn, map, ihe, ihb]
  | caseOf a t alts iht ih =>
    rw [adornIn, map, iht, adornAlts_eq, mapAlts_eq, List.map_map]
    refine congrArg (caseOf a t) ((List.map_congr_left fun alt halt => ?_).trans (List.map_id alts))
    exact Prod.ext rfl (ih alt halt s.deepen)
  | fix a b ih => rw [adornIn, map, ih]

/-- Every part gets the scope that the step to it leads to. -/
theorem parts_adornIn (s : Scope) (t : Term α) :
    (t.adornIn s).parts = t.parts.map fun p => (p.1, p.2.adornIn (p.1.scope s)) := by
  cases t with
  | caseOf a t alts =>
    rw [adornIn, adornAlts_eq]
    exact congrArg (_ :: ·) (List.ext_getElem (by simp) fun i _ _ => by simp [Step.scope])
  | _ => rfl

/-- What a path leads to is adorned with the scope that it leads to. -/
theorem At.adornIn_iff :
    (t.adornIn s).At path u ↔ ∃ v, t.At path v ∧ v.adornIn (path.foldl Step.scope s) = u := by
  constructor
  · intro h
    induction path generalizing t s with
    | nil =>
      cases h
      exact ⟨t, .root, rfl⟩
    | cons st path ih =>
      cases h with
      | step hp h =>
        rw [parts_adornIn] at hp
        obtain ⟨⟨st', t'⟩, hmem, heq⟩ := List.mem_map.1 hp
        obtain ⟨rfl, rfl⟩ := Prod.mk.inj heq
        obtain ⟨v, hv, hu⟩ := ih h
        exact ⟨v, .step hmem hv, hu⟩
  · rintro ⟨v, h, rfl⟩
    induction h generalizing s with
    | root => exact .root
    | @step t u v st path hp _ ih =>
      have hmem : (st, v.adornIn (st.scope s)) ∈ (t.adornIn s).parts := by
        rw [parts_adornIn]
        exact List.mem_map_of_mem hp
      exact .step hmem ih

/-- **A node belongs to the innermost let whose bound term contains it.** Its scope is `shallow` if
it is the root of that bound term, `deep` if it lies further inside, and `unscoped` if it lies in no
bound term. So a scope starts with a step to a bound term and with no other. The nodes are those of
the term, and apart from the scopes the term is as before. -/
theorem adorn_scope (t : Term α) :
    t.adorn.map Prod.snd = t ∧
      (∀ path v, t.At path v ↔ ∃ u, t.adorn.At path u ∧ u.map Prod.snd = v) ∧
      ∀ path u, t.adorn.At path u →
        (∀ f, u.ann.1 = .shallow f ↔ path.Within f []) ∧
        (∀ f, u.ann.1 = .deep f ↔ ∃ below, below ≠ [] ∧ path.Within f below) ∧
        (u.ann.1 = .unscoped ↔ ∀ f, .bound f ∉ path) := by
  refine ⟨t.map_snd_adornIn .unscoped, fun path v => ⟨fun h => ?_, ?_⟩, fun path u h => ?_⟩
  · exact ⟨_, At.adornIn_iff.2 ⟨v, h, rfl⟩, v.map_snd_adornIn _⟩
  · rintro ⟨u, h, rfl⟩
    obtain ⟨v, hv, rfl⟩ := At.adornIn_iff.1 h
    rwa [v.map_snd_adornIn]
  · obtain ⟨v, -, rfl⟩ := At.adornIn_iff.1 h
    have hscope : (v.adornIn (path.foldl Step.scope .unscoped)).ann.1 = path.scope := by
      rw [ann_adornIn, Path.scope]
    rw [hscope]
    exact ⟨fun f => Path.scope_eq_shallow_iff, fun f => Path.scope_eq_deep_iff,
      Path.scope_eq_unscoped_iff⟩

/-- `let f = \x -> let g = x in g x in 0` -/
def nestedLet : Term Unit :=
  .letIn () ⟨"f"⟩
    (.lam () ⟨"x"⟩ (.letIn () ⟨"g"⟩ (.var () false ⟨"x"⟩)
      (.app () (.var () false ⟨"g"⟩) (.var () false ⟨"x"⟩))))
    (.lit () (.integer 0))

/-- The bound term of the inner let belongs to `g`, its body to `f`. -/
theorem adorn_scope_nestedLet :
    ∃ u v, nestedLet.adorn.At [.bound ⟨"f"⟩, .lam ⟨"x"⟩, .bound ⟨"g"⟩] u ∧
      u.ann.1 = .shallow ⟨"g"⟩ ∧
      nestedLet.adorn.At [.bound ⟨"f"⟩, .lam ⟨"x"⟩, .body ⟨"g"⟩] v ∧
      v.ann.1 = .deep ⟨"f"⟩ := by
  obtain ⟨-, hnodes, hscope⟩ := adorn_scope nestedLet
  obtain ⟨u, hu, -⟩ := (hnodes [.bound ⟨"f"⟩, .lam ⟨"x"⟩, .bound ⟨"g"⟩] _).1
    (.step (.head _) (.step (.head _) (.step (.head _) .root)))
  obtain ⟨v, hv, -⟩ := (hnodes [.bound ⟨"f"⟩, .lam ⟨"x"⟩, .body ⟨"g"⟩] _).1
    (.step (.head _) (.step (.head _) (.step (.tail _ (.head _)) .root)))
  refine ⟨u, v, hu, ((hscope _ u hu).1 _).2 ?shallow, hv, ((hscope _ v hv).2.1 _).2 ?deep⟩
  case shallow => exact ⟨[.bound ⟨"f"⟩, .lam ⟨"x"⟩], rfl, by simp⟩
  case deep => exact ⟨[.lam ⟨"x"⟩, .body ⟨"g"⟩], by simp, [], rfl, by simp⟩

end Term

end Letrec
