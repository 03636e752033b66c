import Letrec.Proofs.Name.Reserved
import Mathlib.Data.Fin.Basic
import Mathlib.Data.List.Nodup

/-!
# The names of a knot

A knot has a name for each of its members, and each member has a helper, a value and a solver, and a
parameter in every helper. `Role` lists what a name can stand for, and `Role.name` says how it is
called.

The members being plain, two roles have one name in one way only: the helper of a member is called
like the value or the solver of a member whose name is empty (`Role.eq_or_helper`). This happens if
there is a member with an empty name and another one that is called like the tag of its value, such
as `F1`, or of its solver, such as `S1` (`Role.name_injective_iff`).
-/

namespace Letrec

namespace Name

variable {i : Nat} {m n owner : Name}

/-- What the names of the value and the solver of member number `i` have in front of the member. -/
def IsTag (i : Nat) (x : Name) : Prop := x = ⟨"F" ++ toString i⟩ ∨ x = ⟨"S" ++ toString i⟩

instance (i : Nat) (x : Name) : Decidable (x.IsTag i) := inferInstanceAs (Decidable (_ ∨ _))

/-! ## Names of different kinds -/

/-- A helper is called like a numbered name if its member is the tag and the other one is empty. -/
theorem helper_text_eq_iff (tag : String) (hm : m.Plain) (htag : '@' ∉ tag.toList) :
    "@" ++ m.text ++ "@" = "@" ++ tag ++ toString i ++ "@" ++ n.text ↔
      m.text = tag ++ toString i ∧ n.text = "" := by
  refine ⟨fun h => ?_, fun ⟨hmember, hempty⟩ => ?_⟩
  · have hempty := text_eq_empty_of_helper tag hm htag h
    rw [hempty, String.append_empty, String.append_left_inj, String.append_assoc,
      String.append_right_inj] at h
    exact ⟨h, hempty⟩
  · rw [hmember, hempty, String.append_empty, ← String.append_assoc]

theorem helper_eq_value_iff (hm : m.Plain) :
    m.helper = n.value i ↔ m = ⟨"F" ++ toString i⟩ ∧ n = ⟨""⟩ := by
  rw [Name.ext_iff, Name.ext_iff, Name.ext_iff]
  exact helper_text_eq_iff "F" hm (by decide)

theorem helper_eq_solver_iff (hm : m.Plain) :
    m.helper = n.solver i ↔ m = ⟨"S" ++ toString i⟩ ∧ n = ⟨""⟩ := by
  rw [Name.ext_iff, Name.ext_iff, Name.ext_iff]
  exact helper_text_eq_iff "S" hm (by decide)

/-- A parameter has one `@`, names of other kinds have two. -/
theorem text_lifted_ne (rest : String) (hm : m.Plain) (ho : owner.Plain)
    (hrest : '@' ∈ rest.toList) : (m.lifted owner).text ≠ "@" ++ rest := by
  intro h
  have hsplit : m.text ++ "@" ++ owner.text = "" ++ "@" ++ rest := by
    rw [String.empty_append]
    exact h
  obtain ⟨-, rfl⟩ := text_split_inj hm (by simp) hsplit
  exact ho hrest

theorem lifted_ne_helper (hm : m.Plain) (ho : owner.Plain) : m.lifted owner ≠ n.helper := by
  intro h
  refine text_lifted_ne (n.text ++ "@") hm ho (by simp) ?_
  rw [h, helper, String.append_assoc]

theorem lifted_ne_value (hm : m.Plain) (ho : owner.Plain) : m.lifted owner ≠ n.value i := by
  intro h
  refine text_lifted_ne ("F" ++ toString i ++ "@" ++ n.text) hm ho (by simp) ?_
  rw [h]
  simp [value, ← String.append_assoc]

theorem lifted_ne_solver (hm : m.Plain) (ho : owner.Plain) : m.lifted owner ≠ n.solver i := by
  intro h
  refine text_lifted_ne ("S" ++ toString i ++ "@" ++ n.text) hm ho (by simp) ?_
  rw [h]
  simp [solver, ← String.append_assoc]

end Name

/-! ## Roles -/

/-- What a name of a knot with `k` members stands for. Members go by their numbers. -/
inductive Role (k : Nat) where
  | member (i : Fin k)
  | helper (i : Fin k)
  /-- Member `i` inside of the helper of member `owner`. -/
  | param (i owner : Fin k)
  | value (i : Fin k)
  | solver (i : Fin k)
  deriving DecidableEq

namespace Role

variable {names : List Name} {r r' : Role names.length}

/-- The name of a role if the members are called `names`. -/
def name (names : List Name) : Role names.length → Name
  | member i => names[i]
  | helper i => names[i].helper
  | param i owner => names[i].lifted names[owner]
  | value i => names[i].value i
  | solver i => names[i].solver i

/-- The first role is the helper of a member, the second one the value or the solver of a member
with an empty name, and the first member is called like the tag of that. -/
def Clashes (names : List Name) : Role names.length → Role names.length → Prop
  | helper i, value j => names[i] = ⟨"F" ++ toString j⟩ ∧ names[j] = ⟨""⟩
  | helper i, solver j => names[i] = ⟨"S" ++ toString j⟩ ∧ names[j] = ⟨""⟩
  | _, _ => False

/-- Some member has an empty name, and some other is called like the tag of its value or solver. -/
def Ambiguous (names : List Name) : Prop :=
  ∃ i j : Fin names.length, names[i].IsTag j ∧ names[j] = ⟨""⟩

instance (names : List Name) : Decidable (Ambiguous names) :=
  inferInstanceAs (Decidable (∃ _ _, _))

theorem ambiguous_iff : Ambiguous names ↔ ∃ r r' : Role names.length, Clashes names r r' := by
  constructor
  · rintro ⟨i, j, hvalue | hsolver, hempty⟩
    · exact ⟨helper i, value j, hvalue, hempty⟩
    · exact ⟨helper i, solver j, hsolver, hempty⟩
  · rintro ⟨r, r', h⟩
    cases r with
    | helper i =>
      cases r' with
      | value j => exact ⟨i, j, .inl h.1, h.2⟩
      | solver j => exact ⟨i, j, .inr h.1, h.2⟩
      | _ => exact h.elim
    | _ => exact h.elim

theorem Clashes.ne (h : Clashes names r r') : r ≠ r' := by
  rintro rfl
  cases r <;> exact h

theorem Clashes.name_eq (hplain : ∀ m ∈ names, m.Plain) (h : Clashes names r r') :
    r.name names = r'.name names := by
  cases r with
  | helper i =>
    have hi : names[i].Plain := hplain _ (List.getElem_mem _)
    cases r' with
    | value j => exact (Name.helper_eq_value_iff hi).2 h
    | solver j => exact (Name.helper_eq_solver_iff hi).2 h
    | _ => exact h.elim
  | _ => exact h.elim

section
variable (hnodup : names.Nodup) (hplain : ∀ m ∈ names, m.Plain)
include hnodup hplain

/-- **Two roles have one name if they clash**, and never else. -/
theorem name_eq_iff :
    r.name names = r'.name names ↔ r = r' ∨ Clashes names r r' ∨ Clashes names r' r := by
  have hmember : ∀ i : Fin names.length, names[i].Plain := fun i => hplain _ (List.getElem_mem _)
  have hinj : ∀ {i j : Fin names.length}, names[i] = names[j] → i = j :=
    fun h => List.nodup_iff_injective_get.1 hnodup h
  refine ⟨fun h => ?_, ?_⟩
  · -- only the names of members are plain
    have hkind : (r.name names).Plain ↔ (r'.name names).Plain := by rw [h]
    cases r with
    | member i =>
      cases r' with
      | member j => exact .inl (congrArg member (hinj h))
      | helper j => exact absurd (hkind.1 (hmember i)) (Name.not_plain_helper _)
      | param j o => exact absurd (hkind.1 (hmember i)) (Name.not_plain_lifted _ _)
      | value j => exact absurd (hkind.1 (hmember i)) (Name.not_plain_value _ _)
      | solver j => exact absurd (hkind.1 (hmember i)) (Name.not_plain_solver _ _)
    | helper i =>
      cases r' with
      | member j => exact absurd (hkind.2 (hmember j)) (Name.not_plain_helper _)
      | helper j => exact .inl (congrArg helper (hinj (Name.helper_injective h)))
      | param j o => exact absurd h.symm (Name.lifted_ne_helper (hmember j) (hmember o))
      | value j => exact .inr (.inl ((Name.helper_eq_value_iff (hmember i)).1 h))
      | solver j => exact .inr (.inl ((Name.helper_eq_solver_iff (hmember i)).1 h))
    | param i owner =>
      cases r' with
      | member j => exact absurd (hkind.2 (hmember j)) (Name.not_plain_lifted _ _)
      | helper j => exact absurd h (Name.lifted_ne_helper (hmember i) (hmember owner))
      | param j o =>
        obtain ⟨hi, ho⟩ := (Name.lifted_inj (hmember i) (hmember j)).1 h
        exact .inl (congrArg₂ param (hinj hi) (hinj ho))
      | value j => exact absurd h (Name.lifted_ne_value (hmember i) (hmember owner))
      | solver j => exact absurd h (Name.lifted_ne_solver (hmember i) (hmember owner))
    | value i =>
      cases r' with
      | member j => exact absurd (hkind.2 (hmember j)) (Name.not_plain_value _ _)
      | helper j => exact .inr (.inr ((Name.helper_eq_value_iff (hmember j)).1 h.symm))
      | param j o => exact absurd h.symm (Name.lifted_ne_value (hmember j) (hmember o))
      | value j => exact .inl (congrArg value (hinj (Name.value_inj.1 h).2))
      | solver j => exact absurd h.symm Name.solver_ne_value
    | solver i =>
      cases r' with
      | member j => exact absurd (hkind.2 (hmember j)) (Name.not_plain_solver _ _)
      | helper j => exact .inr (.inr ((Name.helper_eq_solver_iff (hmember j)).1 h.symm))
      | param j o => exact absurd h.symm (Name.lifted_ne_solver (hmember j) (hmember o))
      | value j => exact absurd h Name.solver_ne_value
      | solver j => exact .inl (congrArg solver (hinj (Name.solver_inj.1 h).2))
  · rintro (rfl | hclash | hclash)
    · rfl
    · exact hclash.name_eq hplain
    · exact (hclash.name_eq hplain).symm

/-- The names are distinct unless some are ambiguous. -/
theorem name_injective_iff : Function.Injective (name names) ↔ ¬ Ambiguous names := by
  rw [ambiguous_iff]
  refine ⟨fun h ⟨r, r', hclash⟩ => ?_, fun h r r' hname => ?_⟩
  · exact hclash.ne (h ((name_eq_iff hnodup hplain).2 (.inr (.inl hclash))))
  · rcases (name_eq_iff hnodup hplain).1 hname with heq | hclash | hclash
    · exact heq
    · exact absurd ⟨r, r', hclash⟩ h
    · exact absurd ⟨r', r, hclash⟩ h

end

end Role

end Letrec
