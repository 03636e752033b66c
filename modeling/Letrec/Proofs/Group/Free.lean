import Letrec.Proofs.Group.Linear

/-!
# What a nested group leaves unbound

`Group.nest` puts lets around a body, each in the scope of the ones before it. The bindings of a
knot refer to members and to helpers, but always to such as are bound further out: nested around a
term, they leave no more unbound than the term and the lifted bodies do
(`Knot.Closed.mem_free_nest`). So a group around a body leaves no more unbound than its terms and
the body (`Group.mem_free_letIn`).
-/

namespace Letrec

variable {α : Type} {x : Name} {t : Term α}

namespace Group

theorem nest_append (g h : Group α) (t : Term α) : (g ++ h).nest t = g.nest (h.nest t) :=
  List.foldr_append

theorem mem_free_nest {g : Group α} (h : x ∈ (g.nest t).free) :
    x ∈ t.free ∨ ∃ b ∈ g, x ∈ b.term.free := by
  induction g with
  | nil => exact .inl h
  | cons b g ih =>
    obtain ⟨h | h, -⟩ := Term.mem_free_letIn.1 h
    · exact .inr ⟨b, List.mem_cons_self, h⟩
    · rcases ih h with h | ⟨b', hb', h⟩
      · exact .inl h
      · exact .inr ⟨b', List.mem_cons_of_mem b hb', h⟩

end Group

namespace Knot

variable {k pre : Knot α}

/-- The bindings of the members from some point on: the members before it are left unbound. -/
theorem Closed.mem_free_nest_bindingsOf (h : k.Closed) {ms : List (Member α)} (hk : k = pre ++ ms)
    (hx : x ∈ (Group.nest (k.bindingsOf ms) t).free) :
    x ∈ pre.map Member.name ∨ (x ∈ t.free ∧ x ∉ ms.map Member.name) ∨ ∃ m ∈ ms, x ∈ m.body.free := by
  induction ms generalizing pre with
  | nil => exact .inr (.inl ⟨hx, List.not_mem_nil⟩)
  | cons m ms ih =>
    obtain ⟨hbody | hx, hhelper⟩ := Term.mem_free_letIn.1 hx
    · exact .inr (.inr ⟨m, List.mem_cons_self, hbody⟩)
    obtain ⟨hsolution | hx, hm⟩ := Term.mem_free_letIn.1 hx
    · rcases h.mem_free_solution hk hsolution with hx | hx | ⟨n, hn, hx⟩
      · exact absurd hx hhelper
      · exact .inl hx
      · exact .inr (.inr ⟨n, List.mem_cons_of_mem m hn, hx⟩)
    · have hk' : k = (pre ++ [m]) ++ ms := by simp [hk]
      rcases ih hk' hx with hx | ⟨hx, hms⟩ | ⟨n, hn, hx⟩
      · rw [List.map_append, List.mem_append] at hx
        exact .inl (hx.resolve_right fun hx => hm (List.mem_singleton.1 hx))
      · exact .inr (.inl ⟨hx, List.not_mem_cons_of_ne_of_not_mem hm hms⟩)
      · exact .inr (.inr ⟨n, List.mem_cons_of_mem m hn, hx⟩)

/-- Helpers and members are bound where the bindings of a knot refer to them. -/
theorem Closed.mem_free_nest (h : k.Closed) (hx : x ∈ (k.bindings.nest t).free) :
    (x ∈ t.free ∧ x ∉ k.map Member.name) ∨ ∃ m ∈ k, x ∈ m.body.free :=
  (h.mem_free_nest_bindingsOf (List.nil_append k).symm hx).resolve_left List.not_mem_nil

end Knot

namespace Group

variable {g : Group α} (hnodup : (g.map Binding.name).Nodup) (hname : ∀ b ∈ g, b.name.Plain)
  (hfree : ∀ b ∈ g, ∀ y ∈ b.term.free, y.Plain)

include hnodup hname hfree

theorem mem_free_nest_emit {c : Component} (hc : c.members.Nodup)
    (hx : x ∈ ((g.emit c).value.nest t).free) :
    x ∈ t.free ∨ ∃ b ∈ g, x ∈ b.term.free := by
  unfold emit at hx
  split at hx
  · rcases (closed_select hnodup hname hfree hc).mem_free_nest hx with ⟨hx, -⟩ | ⟨m, hm, hx⟩
    · exact .inl hx
    · obtain ⟨b, hb, -, -, hbody⟩ := Knot.mem_ofGroup hm
      rw [hbody] at hx
      exact .inr ⟨b, mem_of_mem_select hb, (Binding.mem_free_lift hx).1⟩
  · rcases mem_free_nest hx with hx | ⟨b, hb, hx⟩
    · exact .inl hx
    · exact .inr ⟨b, mem_of_mem_select hb, hx⟩

/-- A group leaves nothing unbound that its terms and the body do not. -/
theorem mem_free_letIn (hx : x ∈ (g.letIn t).value.free) :
    x ∈ t.free ∨ ∃ b ∈ g, x ∈ b.term.free := by
  have hdec := g.decomposition_components
  have hparts : ∀ cs : List Component, (∀ c ∈ cs, c.members.Nodup) →
      x ∈ (nest (cs.flatMap fun c => (g.emit c).value) t).free →
        x ∈ t.free ∨ ∃ b ∈ g, x ∈ b.term.free := by
    intro cs hcs hx
    induction cs with
    | nil => exact .inl hx
    | cons c cs ih =>
      rw [List.forall_mem_cons] at hcs
      rw [List.flatMap_cons, nest_append] at hx
      exact (mem_free_nest_emit hnodup hname hfree hcs.1 hx).elim (ih hcs.2) .inr
  refine hparts g.components (fun c hc => hdec.members_nodup hc) ?_
  rwa [← value_linearize]

end Group

end Letrec
