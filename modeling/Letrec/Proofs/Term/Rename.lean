import Letrec.Term.Subst

/-!
# Names under renaming

A renaming of `x` to `new` takes `x` out of the free names and may put `new` in its place
(`mem_free_rename`); the other free names stay (`mem_free_rename_of_ne`). The only name that it can
bring into a term is `new` (`mem_names_rename`).
-/

namespace Letrec.Term

variable {α : Type} {x new z : Name}

/-- A free name of the renamed term was free before, or is the new name in the place of `x`. -/
theorem mem_free_rename {t : Term α} (h : z ∈ (t.rename x new).free) :
    (z ∈ t.free ∧ z ≠ x) ∨ (z = new ∧ x ∈ t.free) := by
  induction t with
  | lit | builtin => simp at h
  | var a m y =>
    rw [rename_var, mem_free_var] at h
    by_cases hy : y = x
    · rw [if_pos hy] at h
      exact .inr ⟨h, mem_free_var.2 hy.symm⟩
    · rw [if_neg hy] at h
      exact .inl ⟨mem_free_var.2 h, h ▸ hy⟩
  | app a f s ihf ihs =>
    rw [rename_app, mem_free_app] at h
    simp only [mem_free_app]
    rcases h with h | h
    · exact (ihf h).imp (And.imp_left .inl) (And.imp_right .inl)
    · exact (ihs h).imp (And.imp_left .inr) (And.imp_right .inr)
  | lam a y b ih =>
    by_cases hy : y = x
    · subst hy
      rw [rename_lam_self] at h
      exact .inl ⟨h, (mem_free_lam.1 h).2⟩
    · rw [rename_lam_of_ne a new hy, mem_free_lam] at h
      simp only [mem_free_lam]
      exact (ih h.1).imp (And.imp_left fun hb => ⟨hb, h.2⟩) (And.imp_right fun hb => ⟨hb, Ne.symm hy⟩)
  | letIn a y e b ihe ihb =>
    by_cases hy : y = x
    · subst hy
      rw [rename_letIn_self] at h
      exact .inl ⟨h, (mem_free_letIn.1 h).2⟩
    · rw [rename_letIn_of_ne a new hy, mem_free_letIn] at h
      simp only [mem_free_letIn]
      rcases h with ⟨h | h, hz⟩
      · exact (ihe h).imp (And.imp_left fun he => ⟨.inl he, hz⟩)
          (And.imp_right fun he => ⟨.inl he, Ne.symm hy⟩)
      · exact (ihb h).imp (And.imp_left fun hb => ⟨.inr hb, hz⟩)
          (And.imp_right fun hb => ⟨.inr hb, Ne.symm hy⟩)
  | caseOf a s alts ihs ih =>
    rw [rename_caseOf, mem_free_caseOf] at h
    simp only [mem_free_caseOf]
    rcases h with h | ⟨alt, halt, h, hz⟩
    · exact (ihs h).imp (And.imp_left .inl) (And.imp_right .inl)
    · obtain ⟨alt, hmem, rfl⟩ := List.mem_map.1 halt
      by_cases hx : x ∈ alt.1.bound
      · rw [if_pos hx] at h
        exact .inl ⟨.inr ⟨alt, hmem, h, hz⟩, fun he => hz (he ▸ hx)⟩
      · rw [if_neg hx] at h
        exact (ih alt hmem h).imp (And.imp_left fun hb => .inr ⟨alt, hmem, hb, hz⟩)
          (And.imp_right fun hb => .inr ⟨alt, hmem, hb, hx⟩)
  | fix a b ih =>
    rw [rename_fix, mem_free_fix] at h
    simpa only [mem_free_fix] using ih h

theorem not_mem_free_rename {t : Term α} (h : x ≠ new) : x ∉ (t.rename x new).free := by
  intro hx
  rcases mem_free_rename hx with hx | hx
  · exact hx.2 rfl
  · exact h hx.1

/-- Occurrences of other names stay free. -/
theorem mem_free_rename_of_ne {t : Term α} (hz : z ≠ x) (h : z ∈ t.free) :
    z ∈ (t.rename x new).free := by
  induction t with
  | lit | builtin => simp at h
  | var a m y =>
    rw [mem_free_var] at h
    rw [rename_var, mem_free_var, if_neg (h ▸ hz), h]
  | app a f s ihf ihs =>
    rw [mem_free_app] at h
    rw [rename_app, mem_free_app]
    exact h.imp ihf ihs
  | lam a y b ih =>
    by_cases hy : y = x
    · subst hy
      rwa [rename_lam_self]
    · rw [mem_free_lam] at h
      rw [rename_lam_of_ne a new hy, mem_free_lam]
      exact h.imp_left ih
  | letIn a y e b ihe ihb =>
    by_cases hy : y = x
    · subst hy
      rwa [rename_letIn_self]
    · rw [mem_free_letIn] at h
      rw [rename_letIn_of_ne a new hy, mem_free_letIn]
      exact h.imp_left (Or.imp ihe ihb)
  | caseOf a s alts ihs ih =>
    rw [mem_free_caseOf] at h
    rw [rename_caseOf, mem_free_caseOf]
    refine h.imp ihs ?_
    rintro ⟨alt, halt, h, hb⟩
    refine ⟨_, List.mem_map_of_mem halt, ?_, hb⟩
    by_cases hx : x ∈ alt.1.bound
    · rwa [if_pos hx]
    · rw [if_neg hx]
      exact ih alt halt h
  | fix a b ih =>
    rw [mem_free_fix] at h
    rw [rename_fix, mem_free_fix]
    exact ih h

/-- The new name is the only one that a renaming brings in. -/
theorem mem_names_rename {t : Term α} (h : z ∈ (t.rename x new).names) : z ∈ t.names ∨ z = new := by
  induction t with
  | lit | builtin => exact .inl (by simpa using h)
  | var a m y =>
    rw [rename_var, mem_names_var] at h
    by_cases hy : y = x
    · rw [if_pos hy] at h
      exact .inr h
    · rw [if_neg hy] at h
      exact .inl (mem_names_var.2 h)
  | app a f s ihf ihs =>
    rw [rename_app, mem_names_app] at h
    rcases h with h | h
    · exact (ihf h).imp_left fun h => mem_names_app.2 (.inl h)
    · exact (ihs h).imp_left fun h => mem_names_app.2 (.inr h)
  | lam a y b ih =>
    by_cases hy : y = x
    · subst hy
      rw [rename_lam_self] at h
      exact .inl h
    · rw [rename_lam_of_ne a new hy, mem_names_lam] at h
      rcases h with h | h
      · exact .inl (mem_names_lam.2 (.inl h))
      · exact (ih h).imp_left fun h => mem_names_lam.2 (.inr h)
  | letIn a y e b ihe ihb =>
    by_cases hy : y = x
    · subst hy
      rw [rename_letIn_self] at h
      exact .inl h
    · rw [rename_letIn_of_ne a new hy, mem_names_letIn] at h
      rcases h with h | h | h
      · exact .inl (mem_names_letIn.2 (.inl h))
      · exact (ihe h).imp_left fun h => mem_names_letIn.2 (.inr (.inl h))
      · exact (ihb h).imp_left fun h => mem_names_letIn.2 (.inr (.inr h))
  | caseOf a s alts ihs ih =>
    rw [rename_caseOf, mem_names_caseOf] at h
    rcases h with h | ⟨alt, halt, h⟩
    · exact (ihs h).imp_left fun h => mem_names_caseOf.2 (.inl h)
    · obtain ⟨alt, hmem, rfl⟩ := List.mem_map.1 halt
      rcases h with h | h
      · exact .inl (mem_names_caseOf.2 (.inr ⟨alt, hmem, .inl h⟩))
      · by_cases hx : x ∈ alt.1.bound
        · rw [if_pos hx] at h
          exact .inl (mem_names_caseOf.2 (.inr ⟨alt, hmem, .inr h⟩))
        · rw [if_neg hx] at h
          exact (ih alt hmem h).imp_left fun h => mem_names_caseOf.2 (.inr ⟨alt, hmem, .inr h⟩)
  | fix a b ih =>
    rw [rename_fix, mem_names_fix] at h
    exact (ih h).imp_left fun h => mem_names_fix.2 h

end Letrec.Term
