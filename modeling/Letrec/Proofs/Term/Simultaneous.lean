import Letrec.Term.Subst

/-!
# Renaming many names at once

`Term.renameAll f` renames every free occurrence by `f` in one pass over the term. Nothing but the
names of variables changes on the way: without these, the term stays as it is (`blank_renameAll`).

Renaming one name is a special case (`rename_eq_renameAll`). Two passes are one pass if the second
leaves alone what the first has put in (`renameAll_renameAll`). So names that are renamed one after
another, to names that are none of them, are renamed at once (`foldl_rename_eq_renameAll`).
-/

namespace Letrec

/-- A renaming inside of a binder: the names that it binds stay. -/
def Name.under (f : Name → Name) (names : List Name) (x : Name) : Name :=
  if x ∈ names then x else f x

theorem Name.under_nil (f : Name → Name) : Name.under f [] = f :=
  funext fun _ => if_neg List.not_mem_nil

namespace Term

variable {α : Type}

mutual

/-- Renames every free occurrence of every name. Each keeps its annotation and its mark. -/
def renameAll (f : Name → Name) : Term α → Term α
  | lit a v => lit a v
  | var a m x => var a m (f x)
  | builtin a v => builtin a v
  | app a t s => app a (t.renameAll f) (s.renameAll f)
  | lam a x b => lam a x (b.renameAll (Name.under f [x]))
  | letIn a x e b => letIn a x (e.renameAll (Name.under f [x])) (b.renameAll (Name.under f [x]))
  | caseOf a s alts => caseOf a (s.renameAll f) (renameAllAlts f alts)
  | fix a b => fix a (b.renameAll f)

def renameAllAlts (f : Name → Name) : List (Alternative α) → List (Alternative α)
  | [] => []
  | (p, t) :: alts => (p, t.renameAll (Name.under f p.bound)) :: renameAllAlts f alts

end

mutual

/-- The term without the names of its variables. Binders keep their names. -/
def blank : Term α → Term α
  | lit a v => lit a v
  | var a m _ => var a m default
  | builtin a v => builtin a v
  | app a t s => app a t.blank s.blank
  | lam a x b => lam a x b.blank
  | letIn a x e b => letIn a x e.blank b.blank
  | caseOf a s alts => caseOf a s.blank (blankAlts alts)
  | fix a b => fix a b.blank

def blankAlts : List (Alternative α) → List (Alternative α)
  | [] => []
  | (p, t) :: alts => (p, t.blank) :: blankAlts alts

end

theorem renameAllAlts_eq (f : Name → Name) (alts : List (Alternative α)) :
    renameAllAlts f alts =
      alts.map fun alt => (alt.1, alt.2.renameAll (Name.under f alt.1.bound)) := by
  induction alts with
  | nil => rfl
  | cons alt alts ih => simp [renameAllAlts, ih]

theorem blankAlts_eq (alts : List (Alternative α)) :
    blankAlts alts = alts.map fun alt => (alt.1, alt.2.blank) := by
  induction alts with
  | nil => rfl
  | cons alt alts ih => simp [blankAlts, ih]

/-- A renaming changes the names of variables and nothing else. -/
theorem blank_renameAll (t : Term α) : ∀ f : Name → Name, (t.renameAll f).blank = t.blank := by
  induction t with
  | lit | var | builtin => exact fun _ => rfl
  | app a t s iht ihs => exact fun f => by rw [renameAll, blank, blank, iht, ihs]
  | lam a x b ih => exact fun f => by rw [renameAll, blank, blank, ih]
  | letIn a x e b ihe ihb => exact fun f => by rw [renameAll, blank, blank, ihe, ihb]
  | caseOf a s alts ihs ih =>
    intro f
    rw [renameAll, blank, blank, ihs, blankAlts_eq, blankAlts_eq, renameAllAlts_eq, List.map_map]
    congr 1
    exact List.map_congr_left fun alt halt => congrArg (Prod.mk alt.1) (ih alt halt _)
  | fix a b ih => exact fun f => by rw [renameAll, blank, blank, ih]

/-! ## Passes in a row -/

/-- Without a name to rename nothing changes. -/
theorem renameAll_of_id {f : Name → Name} (t : Term α) (h : ∀ x, f x = x) : t.renameAll f = t := by
  have hunder : ∀ {f : Name → Name}, (∀ x, f x = x) → ∀ names x, Name.under f names x = x := by
    intro f h names x
    rw [Name.under, h, ite_self]
  induction t generalizing f with
  | lit | builtin => rfl
  | var a m x => rw [renameAll, h]
  | app a t s iht ihs => rw [renameAll, iht h, ihs h]
  | lam a x b ih => rw [renameAll, ih (hunder h [x])]
  | letIn a x e b ihe ihb => rw [renameAll, ihe (hunder h [x]), ihb (hunder h [x])]
  | caseOf a s alts ihs ih =>
    rw [renameAll, ihs h, renameAllAlts_eq]
    congr 1
    refine (List.map_congr_left fun alt halt => ?_).trans (List.map_id alts)
    rw [ih alt halt (hunder h alt.1.bound)]
    rfl
  | fix a b ih => rw [renameAll, ih h]

/-- One name after another is renamed by one pass each. -/
theorem rename_eq_renameAll (t : Term α) (x new : Name) :
    t.rename x new = t.renameAll fun y => if y = x then new else y := by
  have hself : ∀ names : List Name, x ∈ names →
      ∀ y, Name.under (fun y => if y = x then new else y) names y = y := by
    intro names hx y
    by_cases hy : y ∈ names
    · rw [Name.under, if_pos hy]
    · rw [Name.under, if_neg hy, if_neg fun he : y = x => hy (he ▸ hx)]
  have hother : ∀ names : List Name, x ∉ names →
      Name.under (fun y => if y = x then new else y) names = fun y => if y = x then new else y := by
    intro names hx
    funext y
    by_cases hy : y ∈ names
    · rw [Name.under, if_pos hy, if_neg fun he : y = x => hx (he ▸ hy)]
    · rw [Name.under, if_neg hy]
  induction t with
  | lit | builtin => rfl
  | var a m y => exact rename_var a x new m y
  | app a t s iht ihs => rw [rename_app, renameAll, iht, ihs]
  | lam a y b ih =>
    by_cases hy : y = x
    · subst hy
      rw [rename_lam_self, renameAll, renameAll_of_id b (hself [y] List.mem_cons_self)]
    · rw [rename_lam_of_ne a new hy, renameAll, hother [y] (by simpa using Ne.symm hy), ih]
  | letIn a y e b ihe ihb =>
    by_cases hy : y = x
    · subst hy
      rw [rename_letIn_self, renameAll, renameAll_of_id e (hself [y] List.mem_cons_self),
        renameAll_of_id b (hself [y] List.mem_cons_self)]
    · rw [rename_letIn_of_ne a new hy, renameAll, hother [y] (by simpa using Ne.symm hy), ihe, ihb]
  | caseOf a s alts ihs ih =>
    rw [rename_caseOf, renameAll, ihs, renameAllAlts_eq]
    congr 1
    refine List.map_congr_left fun alt halt => congrArg (Prod.mk alt.1) ?_
    by_cases hx : x ∈ alt.1.bound
    · rw [if_pos hx, renameAll_of_id alt.2 (hself _ hx)]
    · rw [if_neg hx, hother _ hx, ih alt halt]
  | fix a b ih => rw [rename_fix, renameAll, ih]

/-- **Two passes are one** if the second does not touch the names that the first has put in. It does
not matter whether these are captured. -/
theorem renameAll_renameAll (t : Term α) : ∀ {f f' : Name → Name}, (∀ x, f x ≠ x → f' (f x) = f x) →
    (t.renameAll f).renameAll f' = t.renameAll fun x => f' (f x) := by
  have hunder : ∀ {f f' : Name → Name} (names : List Name), (∀ x, f x ≠ x → f' (f x) = f x) →
      (∀ x, Name.under f names x ≠ x →
          Name.under f' names (Name.under f names x) = Name.under f names x) ∧
        (fun x => Name.under f' names (Name.under f names x)) =
          Name.under (fun x => f' (f x)) names := by
    intro f f' names h
    have hcomp : ∀ x, Name.under f' names (Name.under f names x) =
        Name.under (fun x => f' (f x)) names x := by
      intro x
      by_cases hx : x ∈ names
      · simp only [Name.under, if_pos hx]
      · simp only [Name.under, if_neg hx]
        by_cases hfx : f x ∈ names
        · -- the new name is captured, and the second pass would have kept it anyway
          rw [if_pos hfx, h x fun he => hx (he ▸ hfx)]
        · rw [if_neg hfx]
    refine ⟨fun x hx => ?_, funext hcomp⟩
    have hmem : x ∉ names := fun hmem => hx (if_pos hmem)
    rw [hcomp, Name.under, Name.under, if_neg hmem, if_neg hmem]
    exact h x (by rwa [Name.under, if_neg hmem] at hx)
  induction t with
  | lit | var | builtin => intros; rfl
  | app a t s iht ihs =>
    intro f f' h
    rw [renameAll, renameAll, renameAll, iht h, ihs h]
  | lam a x b ih =>
    intro f f' h
    obtain ⟨hin, hcomp⟩ := hunder [x] h
    rw [renameAll, renameAll, renameAll, ih hin, hcomp]
  | letIn a x e b ihe ihb =>
    intro f f' h
    obtain ⟨hin, hcomp⟩ := hunder [x] h
    rw [renameAll, renameAll, renameAll, ihe hin, ihb hin, hcomp]
  | caseOf a s alts ihs ih =>
    intro f f' h
    rw [renameAll, renameAll, renameAll, ihs h, renameAllAlts_eq, renameAllAlts_eq,
      renameAllAlts_eq, List.map_map]
    congr 1
    refine List.map_congr_left fun alt halt => congrArg (Prod.mk alt.1) ?_
    obtain ⟨hin, hcomp⟩ := hunder alt.1.bound h
    exact (ih alt halt hin).trans (congrArg alt.2.renameAll hcomp)
  | fix a b ih =>
    intro f f' h
    rw [renameAll, renameAll, renameAll, ih h]

/-- **Names that are renamed one after another are renamed at once**, if none of them is among the
new names. -/
theorem foldl_rename_eq_renameAll {names : List Name} {new : Name → Name}
    (h : ∀ x ∈ names, ∀ y ∈ names, new x ≠ y) (t : Term α) :
    names.foldl (fun t x => t.rename x (new x)) t =
      t.renameAll fun y => if y ∈ names then new y else y := by
  induction names generalizing t with
  | nil => exact (renameAll_of_id t fun y => if_neg List.not_mem_nil).symm
  | cons x names ih =>
    have hrest : ∀ y ∈ names, ∀ z ∈ names, new y ≠ z := fun y hy z hz =>
      h y (List.mem_cons_of_mem x hy) z (List.mem_cons_of_mem x hz)
    have hnew : new x ∉ names := fun hmem =>
      h x List.mem_cons_self (new x) (List.mem_cons_of_mem x hmem) rfl
    rw [List.foldl_cons, ih hrest, rename_eq_renameAll, renameAll_renameAll]
    · congr 1
      funext y
      by_cases hy : y = x
      · rw [if_pos hy, if_neg hnew, if_pos (List.mem_cons.2 (.inl hy)), hy]
      · rw [if_neg hy]
        simp only [List.mem_cons, hy, false_or]
    · intro y hy
      have hyx : y = x := Decidable.of_not_not fun hne => hy (if_neg hne)
      rw [if_pos hyx, if_neg hnew]

end Term

end Letrec
