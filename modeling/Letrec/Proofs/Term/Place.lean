import Letrec.Proofs.Term.Occurrence
import Letrec.Proofs.Term.Simultaneous
import Mathlib.Data.List.Basic

/-!
# Places of variables

`Term.places` lists the variables of a term in pre-order, each with the names that are bound around
it. A variable is free if its own name is not among these. This reads scoping from the root of a
term, where `free` collects names from the leaves on and drops what a binder binds. Both find the
same names in the same order (`free_eq_name_filter_places`).

A renaming acts on each place by itself (`places_renameAll`). It loses a free name only by putting
the new name where that is bound. So the free names are renamed along with the term if this happens
nowhere, and only then (`free_renameAll_eq_iff`). `rename_changes_free` collects what follows for
renaming one name.
-/

namespace Letrec

/-- A variable at its place in a term. -/
structure Place (α : Type) where
  ann : α
  marked : Bool
  name : Name
  /-- The names that the binders around it bind, the outermost first. -/
  around : List Name

variable {α : Type}

namespace Place

/-- No binder around the variable binds its name. -/
def Free (v : Place α) : Prop := v.name ∉ v.around

instance (v : Place α) : Decidable v.Free := inferInstanceAs (Decidable (¬ _))

/-- The same variable seen from outside of one more binder. -/
def inside (names : List Name) (v : Place α) : Place α :=
  { v with around := names ++ v.around }

/-- Renames the variable if it is free. -/
def rename (f : Name → Name) (v : Place α) : Place α :=
  { v with name := Name.under f v.around v.name }

theorem rename_of_free {v : Place α} (h : v.Free) (f : Name → Name) :
    v.rename f = { v with name := f v.name } := by
  rw [rename, Name.under, if_neg h]

theorem rename_of_not_free {v : Place α} (h : ¬ v.Free) (f : Name → Name) : v.rename f = v := by
  rw [rename, Name.under, if_pos (Decidable.not_not.1 h)]

theorem free_inside {names : List Name} {v : Place α} :
    (v.inside names).Free ↔ v.name ∉ names ∧ v.Free := by
  rw [Free, inside, List.mem_append, not_or, Free]

/-- A renaming passes by the names of a binder. -/
theorem rename_inside (f : Name → Name) (names : List Name) (v : Place α) :
    (v.inside names).rename f = (v.rename (Name.under f names)).inside names := by
  unfold rename inside Name.under
  by_cases hin : v.name ∈ v.around
  · simp [hin]
  · simp [hin]

theorem map_inside_rename (f : Name → Name) (names : List Name) (vs : List (Place α)) :
    (vs.map (rename (Name.under f names))).map (inside names) =
      (vs.map (inside names)).map (rename f) := by
  rw [List.map_map, List.map_map]
  exact List.map_congr_left fun v _ => (v.rename_inside f names).symm

/-- The variable stays free unless the new name is bound there. -/
theorem free_rename_iff {v : Place α} (h : v.Free) (f : Name → Name) :
    (v.rename f).Free ↔ f v.name ∉ v.around := by
  rw [rename_of_free h, Free]

/-- A variable that is not free stays as it is. -/
theorem Free.of_rename {v : Place α} {f : Name → Name} (h : (v.rename f).Free) : v.Free := by
  by_contra hn
  rw [rename_of_not_free hn] at h
  exact hn h

end Place

namespace Term

mutual

/-- The variables of a term in pre-order. -/
def places : Term α → List (Place α)
  | lit .. | builtin .. => []
  | var a m x => [⟨a, m, x, []⟩]
  | app _ f s => f.places ++ s.places
  | lam _ x b => b.places.map (.inside [x])
  | letIn _ x e b => (e.places ++ b.places).map (.inside [x])
  | caseOf _ s alts => s.places ++ placesAlts alts
  | fix _ b => b.places

def placesAlts : List (Alternative α) → List (Place α)
  | [] => []
  | (p, t) :: alts => t.places.map (.inside p.bound) ++ placesAlts alts

end

theorem placesAlts_eq (alts : List (Alternative α)) :
    placesAlts alts = alts.flatMap fun alt => alt.2.places.map (.inside alt.1.bound) := by
  induction alts with
  | nil => rfl
  | cons alt alts ih => simp [placesAlts, ih]

/-! ## Free variables -/

/-- What is free around a binder is free inside of it and not bound by it. -/
theorem name_filter_map_inside (names : List Name) {p : Name → Bool}
    (hp : ∀ y, p y = true ↔ y ∉ names) (vs : List (Place α)) :
    ((vs.map (.inside names)).filter (·.Free)).map Place.name =
      ((vs.filter (·.Free)).map Place.name).filter p := by
  rw [List.filter_map, List.filter_map, List.filter_filter, List.map_map]
  refine congrArg (List.map Place.name) (List.filter_congr fun v _ => ?_)
  rw [Bool.eq_iff_iff, Bool.and_eq_true, Function.comp_apply, Function.comp_apply,
    decide_eq_true_iff, decide_eq_true_iff, Place.free_inside, hp]

/-- **The free names are those of the free variables**, in the same order. -/
theorem free_eq_name_filter_places (t : Term α) :
    t.free = (t.places.filter (·.Free)).map Place.name := by
  induction t with
  | lit | builtin => rfl
  | var a m x => simp [places, free, Place.Free]
  | app a f s ihf ihs => rw [places, List.filter_append, List.map_append, free, ihf, ihs]
  | lam a x b ih =>
    rw [places, free, ih]
    exact (name_filter_map_inside [x] (by simp) _).symm
  | letIn a x e b ihe ihb =>
    rw [places, free, ihe, ihb, ← List.map_append, ← List.filter_append]
    exact (name_filter_map_inside [x] (by simp) _).symm
  | caseOf a s alts ihs ih =>
    rw [places, List.filter_append, List.map_append, free, ihs, placesAlts_eq, freeAlts_eq,
      List.filter_flatMap, List.map_flatMap]
    congr 1
    refine List.flatMap_congr fun alt halt => ?_
    rw [ih alt halt]
    exact (name_filter_map_inside alt.1.bound (by simp) _).symm
  | fix a b ih => exact ih

/-! ## Occurrences -/

theorem OccursUnder.exists_place {x : Name} {around : List Name} {t : Term α}
    (h : OccursUnder x around t) :
    ∃ v ∈ t.places, v.Free ∧ v.name = x ∧ v.around = around := by
  -- a variable inside of one more binder, which does not bind it
  have hinside : ∀ {names : List Name} {vs : List (Place α)} {around : List Name}, x ∉ names →
      (∃ v ∈ vs, v.Free ∧ v.name = x ∧ v.around = around) →
        ∃ v ∈ vs.map (Place.inside names), v.Free ∧ v.name = x ∧ v.around = names ++ around := by
    rintro names vs _ hx ⟨v, hv, hfree, rfl, rfl⟩
    exact ⟨_, List.mem_map_of_mem hv, Place.free_inside.2 ⟨hx, hfree⟩, rfl, rfl⟩
  induction h with
  | var => exact ⟨_, List.mem_singleton_self _, List.not_mem_nil, rfl, rfl⟩
  | func _ ih => exact ih.imp fun v => And.imp_left (List.mem_append_left _)
  | arg _ ih => exact ih.imp fun v => And.imp_left (List.mem_append_right _)
  | lam hx _ ih => exact hinside (by simpa using hx) ih
  | bound hx _ ih =>
    exact hinside (by simpa using hx) (ih.imp fun v => And.imp_left (List.mem_append_left _))
  | body hx _ ih =>
    exact hinside (by simpa using hx) (ih.imp fun v => And.imp_left (List.mem_append_right _))
  | scrutinee _ ih => exact ih.imp fun v => And.imp_left (List.mem_append_left _)
  | alt halt hx _ ih =>
    refine (hinside hx ih).imp fun v => And.imp_left fun hv => List.mem_append_right _ ?_
    rw [placesAlts_eq]
    exact List.mem_flatMap.2 ⟨_, halt, hv⟩
  | fix _ ih => exact ih

theorem occursUnder_of_mem_places {t : Term α} {v : Place α} (hv : v ∈ t.places) (hfree : v.Free) :
    OccursUnder v.name v.around t := by
  induction t generalizing v with
  | lit | builtin => exact absurd hv List.not_mem_nil
  | var a m x =>
    obtain rfl := List.mem_singleton.1 hv
    exact .var
  | app a f s ihf ihs =>
    rcases List.mem_append.1 hv with hv | hv
    · exact .func (ihf hv hfree)
    · exact .arg (ihs hv hfree)
  | lam a x b ih =>
    obtain ⟨w, hw, rfl⟩ := List.mem_map.1 hv
    obtain ⟨hx, hfree⟩ := Place.free_inside.1 hfree
    exact .lam (fun he => hx (List.mem_singleton.2 he)) (ih hw hfree)
  | letIn a x e b ihe ihb =>
    obtain ⟨w, hw, rfl⟩ := List.mem_map.1 hv
    obtain ⟨hx, hfree⟩ := Place.free_inside.1 hfree
    rcases List.mem_append.1 hw with hw | hw
    · exact .bound (fun he => hx (List.mem_singleton.2 he)) (ihe hw hfree)
    · exact .body (fun he => hx (List.mem_singleton.2 he)) (ihb hw hfree)
  | caseOf a s alts ihs ih =>
    rcases List.mem_append.1 hv with hv | hv
    · exact .scrutinee (ihs hv hfree)
    · rw [placesAlts_eq] at hv
      obtain ⟨alt, halt, hv⟩ := List.mem_flatMap.1 hv
      obtain ⟨w, hw, rfl⟩ := List.mem_map.1 hv
      obtain ⟨hx, hfree⟩ := Place.free_inside.1 hfree
      exact .alt halt hx (ih alt halt hw hfree)
  | fix a b ih => exact .fix (ih hv hfree)

/-- The binders around a free occurrence, read off the variable. -/
theorem apart_iff {x new : Name} {t : Term α} :
    t.Apart x new ↔ ∀ v ∈ t.places, v.Free → v.name = x → new ∉ v.around := by
  refine ⟨fun h v hv hfree hx => ?_, fun h around hocc => ?_⟩
  · exact h v.around (hx ▸ occursUnder_of_mem_places hv hfree)
  · obtain ⟨v, hv, hfree, hx, rfl⟩ := hocc.exists_place
    exact h v hv hfree hx

/-! ## Renaming -/

/-- A renaming in a single pass renames the free places, each at its place. -/
theorem places_renameAll (t : Term α) : ∀ f : Name → Name,
    (t.renameAll f).places = t.places.map (.rename f) := by
  induction t with
  | lit | builtin => exact fun _ => rfl
  | var a m x =>
    intro f
    rw [renameAll, places, places, List.map_singleton, Place.rename, Name.under_nil]
  | app a s t ihs iht => exact fun f => by rw [renameAll, places, places, ihs, iht, List.map_append]
  | lam a x b ih => exact fun f => by rw [renameAll, places, places, ih, Place.map_inside_rename]
  | letIn a x e b ihe ihb =>
    intro f
    rw [renameAll, places, places, ihe, ihb, ← List.map_append, Place.map_inside_rename]
  | caseOf a s alts ihs ih =>
    intro f
    rw [renameAll, places, places, ihs, List.map_append, placesAlts_eq, placesAlts_eq,
      renameAllAlts_eq, List.flatMap_map, List.map_flatMap]
    congr 1
    refine List.flatMap_congr fun alt halt => ?_
    rw [ih alt halt, Place.map_inside_rename]
  | fix a b ih => exact ih

/-- A part of a list that is picked out of another part is all of it if it is as long. -/
theorem map_filter_eq_iff {β γ : Type} {p q : β → Bool} (h : ∀ v, q v = true → p v = true)
    (k : β → γ) (l : List β) :
    (l.filter q).map k = (l.filter p).map k ↔ ∀ v ∈ l, p v = true → q v = true := by
  refine ⟨fun heq v hv hp => ?_, fun hall => congrArg _ (List.filter_congr fun v hv => ?_)⟩
  · have hlen : (l.filter q).length = (l.filter p).length := by
      simpa using congrArg List.length heq
    have hsub : (l.filter q).Sublist (l.filter p) := List.monotone_filter_right l h
    have hmem : v ∈ l.filter q := by
      rw [hsub.eq_of_length hlen]
      exact List.mem_filter.2 ⟨hv, hp⟩
    exact (List.mem_filter.1 hmem).2
  · exact Bool.eq_iff_iff.2 ⟨h v, hall v hv⟩

/-- The free names are renamed along with the term, unless a new name gets bound. -/
theorem free_renameAll_eq_iff (t : Term α) (f : Name → Name) :
    (t.renameAll f).free = t.free.map f ↔ ∀ v ∈ t.places, v.Free → f v.name ∉ v.around := by
  have hkept : ∀ v : Place α, decide (v.rename f).Free = true → decide v.Free = true :=
    fun v hv => decide_eq_true (Place.Free.of_rename (of_decide_eq_true hv))
  have hname : (t.places.filter (·.Free)).map (f ∘ Place.name) =
      (t.places.filter (·.Free)).map (Place.name ∘ Place.rename f) := by
    refine List.map_congr_left fun v hv => ?_
    have hv : v.Free := of_decide_eq_true (List.mem_filter.1 hv).2
    rw [Function.comp_apply, Function.comp_apply, Place.rename_of_free hv]
  rw [free_eq_name_filter_places, free_eq_name_filter_places t, places_renameAll, List.filter_map,
    List.map_map, List.map_map, hname]
  refine (map_filter_eq_iff hkept _ _).trans (forall₂_congr fun v _ => ?_)
  rw [decide_eq_true_eq, decide_eq_true_eq]
  exact forall_congr' fun hv => Place.free_rename_iff hv f

/-! ## Renaming one name -/

section
variable (t : Term α) (x new : Name)

/-- Renaming one name changes the places where it is free, and nothing but the name there. -/
theorem places_rename : (t.rename x new).places =
    t.places.map fun v => if v.Free ∧ v.name = x then { v with name := new } else v := by
  rw [rename_eq_renameAll, places_renameAll]
  refine List.map_congr_left fun v _ => ?_
  by_cases hfree : v.Free
  · rw [Place.rename_of_free hfree]
    by_cases hx : v.name = x
    · rw [if_pos hx, if_pos ⟨hfree, hx⟩]
    · rw [if_neg hx, if_neg fun h => hx h.2]
  · rw [Place.rename_of_not_free hfree, if_neg fun h => hfree h.1]

theorem free_rename_eq_iff :
    (t.rename x new).free = (t.free.map fun y => if y = x then new else y) ↔ t.Apart x new := by
  rw [rename_eq_renameAll, free_renameAll_eq_iff, apart_iff]
  refine forall₂_congr fun v _ => forall_congr' fun hfree => ?_
  by_cases hx : v.name = x
  · rw [if_pos hx]
    exact ⟨fun hnew _ => hnew, fun hnew => hnew hx⟩
  · rw [if_neg hx]
    exact iff_of_true hfree fun h => absurd h hx

variable {x new}

/-- The name changes as often as `x` is free. -/
theorem countP_zip_places_rename (h : x ≠ new) :
    (t.places.zip (t.rename x new).places).countP (fun vw => vw.1.name ≠ vw.2.name) =
      t.free.count x := by
  rw [places_rename, ← List.map_prod_left_eq_zip, List.countP_map, free_eq_name_filter_places,
    List.count, List.countP_map, List.countP_filter]
  refine List.countP_congr fun v _ => ?_
  by_cases hx : v.Free ∧ v.name = x
  · simp [hx, h]
  · have hrest : ¬ (v.name = x ∧ v.Free) := fun hv => hx ⟨hv.2, hv.1⟩
    simp [hx, hrest]

end

/-- **A renaming changes the free occurrences and nothing else.** Without the names of variables the
term stays as it is. These change where `x` is free, which is as often as `free` lists it, and each
such place keeps its annotation and its mark. In the free names of the term, `x` is renamed in place
exactly if no free occurrence of it lies in the scope of a binder of the new name. -/
theorem rename_changes_free {x new : Name} (h : x ≠ new) (t : Term α) :
    (t.rename x new).blank = t.blank ∧
      (t.rename x new).places =
        (t.places.map fun v => if v.Free ∧ v.name = x then { v with name := new } else v) ∧
      (t.places.zip (t.rename x new).places).countP (fun vw => vw.1.name ≠ vw.2.name) =
        t.free.count x ∧
      ((t.rename x new).free = (t.free.map fun y => if y = x then new else y) ↔
        t.Apart x new) := by
  refine ⟨?_, t.places_rename x new, t.countP_zip_places_rename h, t.free_rename_eq_iff x new⟩
  rw [rename_eq_renameAll, blank_renameAll]

/-- `\b -> a! (let a = a in a) (\c -> a)`, annotated with numbers. -/
def twiceFree : Term Nat :=
  .lam 1 ⟨"b"⟩ (.app 2 (.app 3 (.var 4 true ⟨"a"⟩)
    (.letIn 5 ⟨"a"⟩ (.var 6 false ⟨"a"⟩) (.var 7 false ⟨"a"⟩)))
    (.lam 8 ⟨"c"⟩ (.var 9 false ⟨"a"⟩)))

/-- Two of the four occurrences of `a` are free, and `b` is bound around them. -/
theorem rename_changes_free_twiceFree :
    (⟨"a"⟩ : Name) ≠ ⟨"b"⟩ ∧
      (twiceFree.places.zip (twiceFree.rename ⟨"a"⟩ ⟨"b"⟩).places).countP
        (fun vw => vw.1.name ≠ vw.2.name) = 2 ∧
      (twiceFree.rename ⟨"a"⟩ ⟨"b"⟩).blank = twiceFree.blank ∧
      ¬ twiceFree.Apart ⟨"a"⟩ ⟨"b"⟩ := by
  have hne : (⟨"a"⟩ : Name) ≠ ⟨"b"⟩ := by decide
  obtain ⟨hblank, -, hcount, hfree⟩ := rename_changes_free hne twiceFree
  refine ⟨hne, hcount.trans (by decide), hblank, fun hapart => ?_⟩
  exact absurd (hfree.2 hapart) (by decide)

end Term

end Letrec
