import Letrec.Proofs.Group.Hygiene
import Letrec.Proofs.Group.Position
import Letrec.Proofs.Name.Role
import Letrec.Term.Text

/-!
# Captured helpers

The solution of a member applies its helper below binders that are made for the knot: the values of
the member and of later ones, and the solvers of later ones (`Knot.mem_binds_headPath`). One of them
captures the helper if it has the same name, which it has if its member has an empty name and the
first member is called like its tag (`Knot.helper_mem_binds_iff`). In such a knot the names are
ambiguous, and in no other (`Group.emit_captures_iff`).
-/

namespace Letrec

variable {α : Type}

namespace Knot

variable {k : Knot α} {m : Member α} {x : Name}

/-- What is bound on the way to the helper. -/
theorem mem_binds_headPath : x ∈ (k.headPath m).flatMap Step.binds ↔
    x = m.value ∨ ∃ n ∈ k.later m, x = n.solver ∨ x = n.value := by
  have hsolvers : x ∈ (solverSteps (k.later m)).flatMap Step.binds ↔
      ∃ n ∈ k.later m, x = n.solver := by
    simp [solverSteps, Step.binds]
  have hvalues : x ∈ (Member.valueSteps (k.later m)).flatMap Step.binds ↔
      ∃ n ∈ k.later m, x = n.value := by
    simp [Member.valueSteps, Step.binds]
  have hfunc : (List.replicate k.length Step.func).flatMap Step.binds = [] := by
    simp [Step.binds]
  rw [headPath, List.flatMap_cons, List.flatMap_cons, List.flatMap_append, List.flatMap_append,
    hfunc, List.append_nil, List.mem_append, List.mem_append, List.mem_append, hsolvers, hvalues,
    Step.binds, Step.binds, List.mem_singleton]
  simp only [List.not_mem_nil, false_or, ← exists_or, ← and_or_left]

/-- A binder captures the helper if its member is the empty name and the member of the helper is its
tag. -/
theorem helper_mem_binds_iff (hm : m.name.Plain) :
    m.name.helper ∈ (k.headPath m).flatMap Step.binds ↔
      ∃ n ∈ k.later m, m.name.IsTag n.index ∧ n.name = ⟨""⟩ := by
  have hself : m.name.helper ≠ m.value := by
    intro h
    obtain ⟨htag, hempty⟩ := (Name.helper_eq_value_iff hm).1 h
    have htext : "" = "F" ++ toString m.index := congrArg Name.text (hempty.symm.trans htag)
    simpa using congrArg String.toList htext
  rw [mem_binds_headPath, or_iff_right hself]
  refine exists_congr fun n => and_congr_right fun _ => ?_
  rw [Name.IsTag, or_and_right, or_comm]
  exact or_congr (Name.helper_eq_value_iff hm) (Name.helper_eq_solver_iff hm)

end Knot

namespace Group

/-- **Which names of a knot clash.** The members of a recursive component being distinct and plain,
all its names are distinct, those of members, helpers, parameters, values and solvers, unless a
member has an empty name and another one is called like the tag of its value or solver. In the
emitted term of the `i`-th member, a binder captures the helper exactly if such a pair is there: the
`i`-th member is called like the tag of a later member with an empty name. -/
theorem emit_captures_iff {g : Group α} {c : Component} (hcyclic : c.cyclic = true)
    (hnodup : (g.namesOf c).Nodup) (hplain : ∀ m ∈ g.namesOf c, m.Plain) :
    let names := g.namesOf c
    let k := Knot.ofGroup (g.select c.members)
    (Function.Injective (Role.name names) ↔ ¬ Role.Ambiguous names) ∧
      ∀ (i : Nat) (m : Member α), k[i]? = some m → ∃ t : Term α,
        (g.emit c).value[2 * i + 1]? = some ⟨m.name, t⟩ ∧
        t.At (k.headPath m) (m.occurrence m.name.helper) ∧
        (m.name.helper ∈ (k.headPath m).flatMap Step.binds ↔
          ∃ j, i < j ∧ names[j]? = some ⟨""⟩ ∧ m.name.IsTag j) := by
  intro names k
  have hnames : k.map Member.name = names := Knot.map_name_ofGroup _
  have hnumbered : k.Numbered := Knot.numbered_ofGroup _
  refine ⟨Role.name_injective_iff hnodup hplain, fun i m hm => ⟨k.solution m,
    getElem?_emit_solution hcyclic hm, hnumbered.at_solution_head (hnumbered.eq_append hm), ?_⟩⟩
  have hmember : m.name ∈ names := by
    rw [← hnames]
    exact List.mem_map_of_mem (List.mem_of_getElem? hm)
  have hname : ∀ j : Nat, names[j]? = some (Name.mk "") ↔
      ∃ n : Member α, k[j]? = some n ∧ n.name = ⟨""⟩ := by
    intro j
    rw [← hnames, List.getElem?_map, Option.map_eq_some_iff]
  rw [Knot.helper_mem_binds_iff (hplain _ hmember)]
  constructor
  · rintro ⟨n, hn, htag, hempty⟩
    obtain ⟨j, hij, hj⟩ := (hnumbered.mem_later_iff hm).1 hn
    exact ⟨j, hij, (hname j).2 ⟨n, hj, hempty⟩, hnumbered j n hj ▸ htag⟩
  · rintro ⟨j, hij, hj, htag⟩
    obtain ⟨n, hn, hempty⟩ := (hname j).1 hj
    exact ⟨n, (hnumbered.mem_later_iff hm).2 ⟨j, hij, hn⟩, (hnumbered j n hn).symm ▸ htag, hempty⟩

/-- `F1` and the empty name, each bound to the other. -/
def emptyPartner : Group Unit :=
  [⟨⟨"F1"⟩, .var () false ⟨""⟩⟩, ⟨⟨""⟩, .var () false ⟨"F1"⟩⟩]

/-- The helper of `F1` is captured in the first solution, that of the empty name is not in the
second one. -/
theorem emit_captures_iff_emptyPartner :
    ⟨[0, 1], true⟩ ∈ emptyPartner.components ∧
      (emptyPartner.namesOf ⟨[0, 1], true⟩).Nodup ∧
      (∀ m ∈ emptyPartner.namesOf ⟨[0, 1], true⟩, m.Plain) ∧
      ¬ Function.Injective (Role.name (emptyPartner.namesOf ⟨[0, 1], true⟩)) ∧
      ∃ m n : Member Unit, (Knot.ofGroup emptyPartner)[0]? = some m ∧
        (Knot.ofGroup emptyPartner)[1]? = some n ∧
        m.name.helper ∈ ((Knot.ofGroup emptyPartner).headPath m).flatMap Step.binds ∧
        n.name.helper ∉ ((Knot.ofGroup emptyPartner).headPath n).flatMap Step.binds := by
  have hnodup : (emptyPartner.namesOf ⟨[0, 1], true⟩).Nodup := by decide
  have hplain : ∀ m ∈ emptyPartner.namesOf ⟨[0, 1], true⟩, m.Plain := by decide
  obtain ⟨hinj, hcapture⟩ := emit_captures_iff (g := emptyPartner) rfl hnodup hplain
  obtain ⟨-, -, -, hfirst⟩ := hcapture 0 _ rfl
  obtain ⟨-, -, -, hsecond⟩ := hcapture 1 _ rfl
  refine ⟨by decide +kernel, hnodup, hplain, fun h => hinj.1 h (by decide), _, _, rfl, rfl,
    hfirst.2 ⟨1, by decide, rfl, by decide⟩, fun h => ?_⟩
  obtain ⟨j, hj, hempty, -⟩ := hsecond.1 h
  have hlt : j < 2 := (List.getElem?_eq_some_iff.1 hempty).1
  omega

/-- The names of this group clash although its members are distinct and plain, and the helper of `F1`
is not free in the emitted term of `F1`: it stands for the value of the other member. -/
theorem not_distinct_emptyPartner :
    ⟨[0, 1], true⟩ ∈ emptyPartner.components ∧
      (emptyPartner.namesOf ⟨[0, 1], true⟩).Nodup ∧
      (∀ m ∈ emptyPartner.namesOf ⟨[0, 1], true⟩, m.Plain) ∧
      Name.helper ⟨"F1"⟩ = Name.value 1 ⟨""⟩ ∧
      ∃ t, (emptyPartner.emit ⟨[0, 1], true⟩).value[1]? = some ⟨⟨"F1"⟩, t⟩ ∧ t.free = [] ∧
        t.text = "fix (\\@F0@F1 -> let @S1@ = \\@F0@F1 -> fix (\\@F1@ -> " ++
          "(\\F1@ -> \\@ -> F1@) @F0@F1 @F1@) in let @F1@ = @S1@ @F0@F1 in @F1@ @F0@F1 @F1@)" :=
  ⟨by decide +kernel, by decide, by decide, by decide, _, rfl, by decide +kernel,
    by decide +kernel⟩

end Group

end Letrec
