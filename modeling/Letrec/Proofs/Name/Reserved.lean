import Letrec.Group.Knot
import Std.Data.String.ToNat

/-!
# Reserved names

A name is plain if no `@` occurs in it. The names that are made for a knot are not plain, so a plain
name is never one of them. Nor are they mistaken for each other: a helper gives back its member
(`helper_injective`), values and solvers give back the number and the member (`value_inj`,
`solver_inj`), and the kinds differ (`solver_ne_value`; `helper_ne_value` and `helper_ne_solver`
need a member whose name is not empty).
-/

namespace Letrec.Name

/-- No `@` occurs in the name. -/
def Plain (x : Name) : Prop := '@' ∉ x.text.toList

instance (x : Name) : Decidable x.Plain := inferInstanceAs (Decidable ('@' ∉ x.text.toList))

variable {i j : Nat} {m n : Name}

/-! ## Reserved names are not plain -/

theorem not_plain_helper (m : Name) : ¬ m.helper.Plain := by
  simp [Plain, helper]

theorem not_plain_lifted (m owner : Name) : ¬ (m.lifted owner).Plain := by
  simp [Plain, lifted]

theorem not_plain_value (i : Nat) (m : Name) : ¬ (m.value i).Plain := by
  simp [Plain, value]

theorem not_plain_solver (i : Nat) (m : Name) : ¬ (m.solver i).Plain := by
  simp [Plain, solver]

/-! ## Reserved names differ -/

theorem helper_injective : Function.Injective helper := by
  intro m n h
  have htext : "@" ++ m.text ++ "@" = "@" ++ n.text ++ "@" := congrArg text h
  rw [String.append_left_inj, String.append_right_inj] at htext
  exact Name.ext htext

theorem lifted_left_injective (owner : Name) : Function.Injective (lifted · owner) := by
  intro m n h
  have htext : m.text ++ "@" ++ owner.text = n.text ++ "@" ++ owner.text := congrArg text h
  rw [String.append_left_inj, String.append_left_inj] at htext
  exact Name.ext htext

/-- The parts of a text before and after its first `@` are determined. -/
theorem text_split_inj {x y u v : String} (hx : '@' ∉ x.toList) (hy : '@' ∉ y.toList)
    (h : x ++ "@" ++ u = y ++ "@" ++ v) : x = y ∧ u = v := by
  have hchars : x.toList ++ '@' :: u.toList = y.toList ++ '@' :: v.toList := by
    simpa using congrArg String.toList h
  rcases List.append_eq_append_iff.1 hchars with ⟨c, hc, htail⟩ | ⟨c, hc, htail⟩
  · cases c with
    | nil => simp_all [String.toList_inj]
    | cons d c =>
      obtain ⟨rfl, -⟩ := List.cons.inj htail
      exact absurd (by simp [hc]) hy
  · cases c with
    | nil => simp_all [String.toList_inj]
    | cons d c =>
      obtain ⟨rfl, -⟩ := List.cons.inj htail
      exact absurd (by simp [hc]) hx

/-- A parameter gives back the member that it stands for. -/
theorem lifted_inj {o o' : Name} (hm : m.Plain) (hn : n.Plain) :
    m.lifted o = n.lifted o' ↔ m = n ∧ o = o' := by
  refine ⟨fun h => ?_, fun ⟨hmn, ho⟩ => by rw [hmn, ho]⟩
  obtain ⟨htext, howner⟩ := text_split_inj hm hn (congrArg text h)
  exact ⟨Name.ext htext, Name.ext howner⟩

/-- A number is written with digits. -/
theorem at_not_mem_toString (i : Nat) : '@' ∉ (toString i).toList := by
  intro h
  rw [Nat.toString_eq_ofList_toDigits, String.toList_ofList] at h
  exact absurd (Nat.isDigit_of_mem_toDigits (by decide) (by decide) h) (by decide)

/-- A tag, a number and a member are read off the name they make. -/
theorem numbered_inj {tag : String} :
    tag ++ toString i ++ "@" ++ m.text = tag ++ toString j ++ "@" ++ n.text ↔ i = j ∧ m = n := by
  refine ⟨fun h => ?_, fun h => ?_⟩
  · rw [String.append_assoc, String.append_assoc, String.append_assoc, String.append_assoc,
      String.append_right_inj, ← String.append_assoc, ← String.append_assoc] at h
    obtain ⟨hnum, htext⟩ := text_split_inj (at_not_mem_toString i) (at_not_mem_toString j) h
    exact ⟨Nat.repr_injective hnum, Name.ext htext⟩
  · obtain ⟨rfl, rfl⟩ := h
    rfl

theorem value_inj : m.value i = n.value j ↔ i = j ∧ m = n := by
  rw [Name.ext_iff]
  exact numbered_inj

theorem solver_inj : m.solver i = n.solver j ↔ i = j ∧ m = n := by
  rw [Name.ext_iff]
  exact numbered_inj

theorem solver_ne_value : m.solver i ≠ n.value j := by
  intro h
  have hchars := congrArg (fun x : Name => x.text.toList) h
  simp [solver, value] at hchars

/-- What a helper and a numbered name would have in common: the member of the second is empty. -/
theorem text_eq_empty_of_helper (tag : String) (hm : m.Plain) (htag : '@' ∉ tag.toList)
    (h : "@" ++ m.text ++ "@" = "@" ++ tag ++ toString i ++ "@" ++ n.text) : n.text = "" := by
  have hempty : "@" ++ (m.text ++ "@" ++ "") = "@" ++ (tag ++ toString i ++ "@" ++ n.text) := by
    simpa only [String.append_assoc, String.append_empty] using h
  have hnum : '@' ∉ (tag ++ toString i).toList := by
    rw [String.toList_append, List.mem_append]
    exact fun h => h.elim htag (at_not_mem_toString i)
  exact (text_split_inj hm hnum ((String.append_right_inj _).1 hempty)).2.symm

/-- What a parameter and a name that starts with `@` would have in common: the member of the first is
empty. -/
theorem text_eq_empty_of_lifted {owner : Name} {rest : String} (hm : m.Plain)
    (h : m.text ++ "@" ++ owner.text = "@" ++ rest) : m.text = "" := by
  rw [← String.empty_append (s := "@" ++ rest), ← String.append_assoc] at h
  exact (text_split_inj hm (by simp) h).1

theorem helper_ne_value (hm : m.Plain) (hn : n.text ≠ "") : m.helper ≠ n.value i :=
  fun h => hn (text_eq_empty_of_helper "F" hm (by decide) (congrArg text h))

theorem helper_ne_solver (hm : m.Plain) (hn : n.text ≠ "") : m.helper ≠ n.solver i :=
  fun h => hn (text_eq_empty_of_helper "S" hm (by decide) (congrArg text h))

end Letrec.Name
