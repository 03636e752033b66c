import Letrec.Proofs.Group.Hygiene
import Letrec.Proofs.Term.Simultaneous
import Letrec.Term.Text

/-!
# Lifting is one renaming

A term is lifted over the members of its component by renaming one member after another
(`Binding.lift`). The parameters that are put in on the way are reserved names, so with plain members
no renaming touches what another has put in, and all of them are one renaming in a single pass
(`Binding.lift_eq_renameAll`). This needs nothing of the term, whose binders and free names may be
reserved too. `Group.emit_helper` says so of the helpers that a recursive component gives rise to.
-/

namespace Letrec

variable {α : Type}

/-- Lifting is one pass over the term. -/
theorem Binding.lift_eq_renameAll (b : Binding α) {members : List Name}
    (h : ∀ m ∈ members, m.Plain) :
    b.lift members = .lamAll b.term.ann (members.map (Name.lifted · b.name))
      (b.term.renameAll fun x => if x ∈ members then x.lifted b.name else x) := by
  have hparam : ∀ m ∈ members, ∀ n ∈ members, m.lifted b.name ≠ n :=
    fun m _ n hn he => m.not_plain_lifted b.name (he ▸ h n hn)
  rw [Binding.lift, ← Term.foldl_rename_eq_renameAll hparam]

/-- Helpers and solutions alternate. -/
theorem Knot.getElem?_bindingsOf_helper (k : Knot α) (ms : List (Member α)) (i : Nat) :
    (k.bindingsOf ms)[2 * i]? = ms[i]?.map fun m => ⟨m.name.helper, m.body⟩ := by
  induction ms generalizing i with
  | nil => rfl
  | cons m ms ih =>
    cases i with
    | zero => rfl
    | succ i =>
      rw [bindingsOf_cons, Nat.mul_succ, List.getElem?_cons_succ, List.getElem?_cons_succ, ih,
        List.getElem?_cons_succ]

namespace Group

variable {g : Group α} {c : Component}

/-- **A helper is a function of its component.** With plain members, the helper of the `i`-th member
`o` takes a parameter for each member in order, all annotated like the root of the term of `o`, and
gives this term, in which a single pass has renamed the free occurrences of the members to their
parameters. Apart from the names of variables the term is unchanged. -/
theorem emit_helper (hcyclic : c.cyclic = true) (hplain : ∀ m ∈ g.namesOf c, m.Plain) {i : Nat}
    {o : Binding α} (ho : (g.select c.members)[i]? = some o) :
    ∃ body, (g.emit c).value[2 * i]? = some ⟨o.name.helper,
        .lamAll o.term.ann ((g.namesOf c).map (Name.lifted · o.name)) body⟩ ∧
      body = (o.term.renameAll fun x => if x ∈ g.namesOf c then x.lifted o.name else x) ∧
      body.blank = o.term.blank := by
  refine ⟨_, ?_, rfl, Term.blank_renameAll _ _⟩
  have hm : (Knot.ofGroup (g.select c.members))[i]? =
      some ⟨i, o.name, o.term.ann, o.lift (g.namesOf c)⟩ :=
    Knot.getElem?_ofGroup.2 ⟨o, ho, rfl⟩
  have hvalue : (g.emit c).value = (Knot.ofGroup (g.select c.members)).bindings := by
    rw [emit, if_pos hcyclic]
  rw [hvalue, ← o.lift_eq_renameAll hplain]
  exact (Knot.getElem?_bindingsOf_helper _ _ i).trans (congrArg _ hm)

/-- `ping = \pong@ping -> ping! (let pong = pong in pong) pong; pong = ping`, annotated with
numbers. -/
def markedPing : Group Nat :=
  [⟨⟨"ping"⟩, .lam 1 ⟨"pong@ping"⟩ (.app 2 (.app 3 (.var 4 true ⟨"ping"⟩)
      (.letIn 5 ⟨"pong"⟩ (.var 6 false ⟨"pong"⟩) (.var 7 false ⟨"pong"⟩)))
      (.var 8 true ⟨"pong"⟩))⟩,
   ⟨⟨"pong"⟩, .var 9 false ⟨"ping"⟩⟩]

/-- The bound occurrences of `pong` stay, and the free one is renamed to a name that is taken. -/
theorem emit_helper_markedPing :
    ⟨[0, 1], true⟩ ∈ markedPing.components ∧ (∀ m ∈ markedPing.namesOf ⟨[0, 1], true⟩, m.Plain) ∧
      ∃ o body, (markedPing.select [0, 1])[0]? = some o ∧
        (markedPing.emit ⟨[0, 1], true⟩).value[0]? = some ⟨⟨"@ping@"⟩,
          .lamAll 1 [⟨"ping@ping"⟩, ⟨"pong@ping"⟩] body⟩ ∧
        body.text = "\\pong@ping -> ping@ping (let pong = pong in pong) pong@ping" ∧
        body.blank = o.term.blank := by
  have hplain : ∀ m ∈ markedPing.namesOf ⟨[0, 1], true⟩, m.Plain := by decide
  obtain ⟨body, hemit, hbody, hblank⟩ := emit_helper (i := 0) rfl hplain rfl
  exact ⟨by decide +kernel, hplain, _, body, rfl, hemit, by rw [hbody]; decide +kernel, hblank⟩

end Group

end Letrec
