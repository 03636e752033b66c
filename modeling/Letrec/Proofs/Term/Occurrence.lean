import Letrec.Proofs.Term.Nameless

/-!
# Free occurrences and the binders around them

`OccursUnder x around t`: at some place of `t` that lies in the scope of the binders `around`, the
outermost first, `x` occurs free. What is free in a term occurs somewhere (`mem_free_iff`).

`rename` puts the new name in the place of the free occurrences without a look at the binders around
them. If none of these binds the new name, nothing is captured: without the names of binders, the
free leaves are renamed and nothing else changes (`nameless_rename_of_apart`).
-/

namespace Letrec

/-- The reference to another free name; bound ones stay. -/
def Ref.mapFree (f : Name → Name) : Ref → Ref
  | bound d i => bound d i
  | free x => free (f x)

variable {α : Type}

namespace Nameless

mutual

/-- Renames the free leaves. -/
def mapFree (f : Name → Name) : Nameless α → Nameless α
  | lit a v => lit a v
  | var a m ref => var a m (ref.mapFree f)
  | builtin a v => builtin a v
  | app a t s => app a (mapFree f t) (mapFree f s)
  | lam a b => lam a (mapFree f b)
  | letIn a e b => letIn a (mapFree f e) (mapFree f b)
  | caseOf a s alts => caseOf a (mapFree f s) (mapFreeAlts f alts)
  | fix a b => fix a (mapFree f b)

def mapFreeAlts (f : Name → Name) :
    List (Pattern.Shape × Nameless α) → List (Pattern.Shape × Nameless α)
  | [] => []
  | (p, t) :: alts => (p, mapFree f t) :: mapFreeAlts f alts

end

theorem mapFreeAlts_eq (f : Name → Name) (alts : List (Pattern.Shape × Nameless α)) :
    mapFreeAlts f alts = alts.map fun alt => (alt.1, mapFree f alt.2) := by
  induction alts with
  | nil => rfl
  | cons alt alts ih => simp [mapFreeAlts, ih]

mutual

theorem mapFree_mapFree (f g : Name → Name) :
    ∀ t : Nameless α, (t.mapFree f).mapFree g = t.mapFree fun x => g (f x)
  | lit .. | var _ _ (.bound ..) | var _ _ (.free _) | builtin .. => rfl
  | app _ t s => by simp only [mapFree, mapFree_mapFree f g t, mapFree_mapFree f g s]
  | lam _ b | fix _ b => by simp only [mapFree, mapFree_mapFree f g b]
  | letIn _ e b => by simp only [mapFree, mapFree_mapFree f g e, mapFree_mapFree f g b]
  | caseOf _ s alts => by
    simp only [mapFree, mapFree_mapFree f g s, mapFreeAlts_mapFreeAlts f g alts]

theorem mapFreeAlts_mapFreeAlts (f g : Name → Name) :
    ∀ alts : List (Pattern.Shape × Nameless α),
      mapFreeAlts g (mapFreeAlts f alts) = mapFreeAlts (fun x => g (f x)) alts
  | [] => rfl
  | (_, t) :: alts => by
    simp only [mapFreeAlts, mapFree_mapFree f g t, mapFreeAlts_mapFreeAlts f g alts]

end

end Nameless

namespace Term

open Binders

/-- `x` occurs free at a place in the scope of the binders `around`, the outermost first. -/
inductive OccursUnder (x : Name) : List Name → Term α → Prop where
  | var {a : α} {m : Bool} : OccursUnder x [] (var a m x)
  | func {a : α} {f s : Term α} {around : List Name} :
      OccursUnder x around f → OccursUnder x around (app a f s)
  | arg {a : α} {f s : Term α} {around : List Name} :
      OccursUnder x around s → OccursUnder x around (app a f s)
  | lam {a : α} {y : Name} {b : Term α} {around : List Name} :
      x ≠ y → OccursUnder x around b → OccursUnder x (y :: around) (lam a y b)
  | bound {a : α} {y : Name} {e b : Term α} {around : List Name} :
      x ≠ y → OccursUnder x around e → OccursUnder x (y :: around) (letIn a y e b)
  | body {a : α} {y : Name} {e b : Term α} {around : List Name} :
      x ≠ y → OccursUnder x around b → OccursUnder x (y :: around) (letIn a y e b)
  | scrutinee {a : α} {s : Term α} {alts : List (Alternative α)} {around : List Name} :
      OccursUnder x around s → OccursUnder x around (caseOf a s alts)
  | alt {a : α} {s t : Term α} {alts : List (Alternative α)} {p : Pattern} {around : List Name} :
      (p, t) ∈ alts → x ∉ p.bound → OccursUnder x around t →
      OccursUnder x (p.bound ++ around) (caseOf a s alts)
  | fix {a : α} {b : Term α} {around : List Name} :
      OccursUnder x around b → OccursUnder x around (fix a b)

variable {x new z : Name} {around : List Name}

theorem OccursUnder.mem_free {t : Term α} (h : OccursUnder x around t) : x ∈ t.free := by
  induction h with
  | var => exact mem_free_var.2 rfl
  | func _ ih => exact mem_free_app.2 (.inl ih)
  | arg _ ih => exact mem_free_app.2 (.inr ih)
  | lam hx _ ih => exact mem_free_lam.2 ⟨ih, hx⟩
  | bound hx _ ih => exact mem_free_letIn.2 ⟨.inl ih, hx⟩
  | body hx _ ih => exact mem_free_letIn.2 ⟨.inr ih, hx⟩
  | scrutinee _ ih => exact mem_free_caseOf.2 (.inl ih)
  | alt halt hx _ ih => exact mem_free_caseOf.2 (.inr ⟨_, halt, ih, hx⟩)
  | fix _ ih => exact mem_free_fix.2 ih

/-- What is free occurs somewhere. -/
theorem mem_free_iff {t : Term α} : x ∈ t.free ↔ ∃ around, OccursUnder x around t := by
  refine ⟨fun h => ?_, fun ⟨_, h⟩ => h.mem_free⟩
  induction t with
  | lit | builtin => simp at h
  | var a m y =>
    obtain rfl := mem_free_var.1 h
    exact ⟨[], .var⟩
  | app a f s ihf ihs =>
    rcases mem_free_app.1 h with h | h
    · exact (ihf h).imp fun _ => .func
    · exact (ihs h).imp fun _ => .arg
  | lam a y b ih =>
    obtain ⟨hb, hx⟩ := mem_free_lam.1 h
    obtain ⟨around, hocc⟩ := ih hb
    exact ⟨_, .lam hx hocc⟩
  | letIn a y e b ihe ihb =>
    obtain ⟨h | h, hx⟩ := mem_free_letIn.1 h
    · obtain ⟨around, hocc⟩ := ihe h
      exact ⟨_, .bound hx hocc⟩
    · obtain ⟨around, hocc⟩ := ihb h
      exact ⟨_, .body hx hocc⟩
  | caseOf a s alts ihs ih =>
    rcases mem_free_caseOf.1 h with h | ⟨alt, halt, h, hx⟩
    · exact (ihs h).imp fun _ => .scrutinee
    · obtain ⟨around, hocc⟩ := ih alt halt h
      exact ⟨_, .alt halt hx hocc⟩
  | fix a b ih => exact (ih (mem_free_fix.1 h)).imp fun _ => .fix

theorem OccursUnder.of_lamAll {a : α} {params : List Name} {b : Term α}
    (h : OccursUnder x around (lamAll a params b)) :
    ∃ inner, around = params ++ inner ∧ x ∉ params ∧ OccursUnder x inner b := by
  induction params generalizing around with
  | nil => exact ⟨around, rfl, List.not_mem_nil, h⟩
  | cons y params ih =>
    rw [lamAll, List.foldr_cons] at h
    cases h with
    | lam hxy h =>
      obtain ⟨inner, rfl, hx, h⟩ := ih h
      exact ⟨inner, rfl, by simp [hxy, hx], h⟩

/-! ## Occurrences in a renamed term -/

/-- Occurrences of other names than the new one were there before, under the same binders. -/
theorem OccursUnder.of_rename {t : Term α} (hz : z ≠ new)
    (h : OccursUnder z around (t.rename x new)) :
    OccursUnder z around t ∧ z ≠ x := by
  induction t generalizing around with
  | lit | builtin => cases h
  | var a m y =>
    rw [rename_var] at h
    by_cases hy : y = x
    · rw [if_pos hy] at h
      cases h
      exact absurd rfl hz
    · rw [if_neg hy] at h
      cases h
      exact ⟨.var, hy⟩
  | app a f s ihf ihs =>
    rw [rename_app] at h
    cases h with
    | func h => exact (ihf h).imp_left .func
    | arg h => exact (ihs h).imp_left .arg
  | lam a y b ih =>
    by_cases hy : y = x
    · subst hy
      rw [rename_lam_self] at h
      exact ⟨h, (mem_free_lam.1 h.mem_free).2⟩
    · rw [rename_lam_of_ne a new hy] at h
      cases h with
      | lam hzy h => exact (ih h).imp_left (.lam hzy)
  | letIn a y e b ihe ihb =>
    by_cases hy : y = x
    · subst hy
      rw [rename_letIn_self] at h
      exact ⟨h, (mem_free_letIn.1 h.mem_free).2⟩
    · rw [rename_letIn_of_ne a new hy] at h
      cases h with
      | bound hzy h => exact (ihe h).imp_left (.bound hzy)
      | body hzy h => exact (ihb h).imp_left (.body hzy)
  | caseOf a s alts ihs ih =>
    rw [rename_caseOf] at h
    cases h with
    | scrutinee h => exact (ihs h).imp_left .scrutinee
    | alt halt hzb h =>
      obtain ⟨⟨p, t⟩, hmem, heq⟩ := List.mem_map.1 halt
      obtain ⟨rfl, rfl⟩ := Prod.mk.inj heq
      by_cases hx : x ∈ p.bound
      · rw [if_pos hx] at h
        exact ⟨.alt hmem hzb h, fun he => hzb (he ▸ hx)⟩
      · rw [if_neg hx] at h
        exact (ih (p, t) hmem h).imp_left (.alt hmem hzb)
  | fix a b ih =>
    rw [rename_fix] at h
    cases h with
    | fix h => exact (ih h).imp_left .fix

/-! ## Renaming without capture -/

/-- No binder of `new` has a free occurrence of `x` in its scope. -/
def Apart (x new : Name) (t : Term α) : Prop := ∀ around, OccursUnder x around t → new ∉ around

section
variable {a : α} {y : Name} {f s e b t : Term α} {alts : List (Alternative α)}

theorem apart_of_not_mem_free (h : x ∉ t.free) : t.Apart x new :=
  fun _ hx => absurd hx.mem_free h

/-- In the scope of one more binder. -/
theorem forall_not_mem_append_iff {names : List Name} :
    (∀ around, OccursUnder x around t → new ∉ names ++ around) ↔
      (x ∈ t.free → new ∉ names) ∧ t.Apart x new := by
  simp only [List.mem_append, not_or, mem_free_iff, forall_exists_index, Apart, ← forall_and]

theorem apart_app : (app a f s).Apart x new ↔ f.Apart x new ∧ s.Apart x new := by
  refine ⟨fun h => ⟨fun _ hx => h _ (.func hx), fun _ hx => h _ (.arg hx)⟩, fun h around hx => ?_⟩
  cases hx with
  | func hx => exact h.1 _ hx
  | arg hx => exact h.2 _ hx

theorem apart_lam (hy : y ≠ x) :
    (lam a y b).Apart x new ↔ (x ∈ b.free → new ∉ [y]) ∧ b.Apart x new := by
  rw [← forall_not_mem_append_iff]
  refine ⟨fun h around hx => h _ (.lam (Ne.symm hy) hx), fun h around hx => ?_⟩
  cases hx with
  | lam _ hx => exact h _ hx

theorem apart_letIn (hy : y ≠ x) :
    (letIn a y e b).Apart x new ↔ (x ∈ e.free ∨ x ∈ b.free → new ∉ [y]) ∧
      e.Apart x new ∧ b.Apart x new := by
  rw [or_imp, and_and_and_comm, ← forall_not_mem_append_iff, ← forall_not_mem_append_iff]
  refine ⟨fun h => ⟨fun _ hx => h _ (.bound (Ne.symm hy) hx),
    fun _ hx => h _ (.body (Ne.symm hy) hx)⟩, fun h around hx => ?_⟩
  cases hx with
  | bound _ hx => exact h.1 _ hx
  | body _ hx => exact h.2 _ hx

theorem apart_caseOf : (caseOf a s alts).Apart x new ↔ s.Apart x new ∧
    ∀ alt ∈ alts, x ∉ alt.1.bound → (x ∈ alt.2.free → new ∉ alt.1.bound) ∧ alt.2.Apart x new := by
  simp only [← forall_not_mem_append_iff]
  refine ⟨fun h => ⟨fun _ hx => h _ (.scrutinee hx),
    fun _ halt hb _ hx => h _ (.alt halt hb hx)⟩, fun h around hx => ?_⟩
  cases hx with
  | scrutinee hx => exact h.1 _ hx
  | alt halt hb hx => exact h.2 _ halt hb _ hx

theorem apart_fix : (fix a b).Apart x new ↔ b.Apart x new := by
  refine ⟨fun h _ hx => h _ (.fix hx), fun h around hx => ?_⟩
  cases hx with
  | fix hx => exact h _ hx

end

/-- Nothing is captured if `x` is renamed to `new` in `t`, inside the binders `Γ`: neither the
binders in the term nor those around it stand in the way. -/
structure Renamable (x new : Name) (t : Term α) (Γ : Binders) : Prop where
  apart : t.Apart x new
  visible : x ∈ t.free → Γ.resolve x = .free x ∧ Γ.resolve new = .free new

/-- A part of the term that is in the scope of no further binder. -/
theorem Renamable.part {t t' : Term α} {Γ : Binders} (h : Renamable x new t Γ)
    (hocc : ∀ around, OccursUnder x around t' → OccursUnder x around t) : Renamable x new t' Γ where
  apart around hx := h.apart around (hocc around hx)
  visible hx := by
    obtain ⟨around, hx⟩ := mem_free_iff.1 hx
    exact h.visible (hocc around hx).mem_free

/-- A part of the term that is in the scope of one more binder. -/
theorem Renamable.cons {t t' : Term α} {Γ : Binders} {names : List Name}
    (h : Renamable x new t Γ) (hnames : x ∉ names)
    (hocc : ∀ around, OccursUnder x around t' → OccursUnder x (names ++ around) t) :
    Renamable x new t' (names :: Γ) where
  apart around hx hnew := h.apart _ (hocc around hx) (List.mem_append_right names hnew)
  visible hx := by
    obtain ⟨around, hx⟩ := mem_free_iff.1 hx
    have hx := hocc around hx
    have hnew : new ∉ names := fun hnew => h.apart _ hx (List.mem_append_left around hnew)
    obtain ⟨hΓ, hΓnew⟩ := h.visible hx.mem_free
    exact ⟨resolve_cons_free hnames hΓ, resolve_cons_free hnew hΓnew⟩

/-- Where the names that stay free are kept, nothing changes. -/
theorem mapFree_nameless {t : Term α} {f : Name → Name} :
    ∀ {Γ : Binders}, (∀ y ∈ t.free, Γ.resolve y = .free y → f y = y) →
      (t.nameless Γ).mapFree f = t.nameless Γ := by
  -- a name that stays free inside of a binder is none of its names and free outside
  have hcons : ∀ {Γ : Binders} {names : List Name} {y : Name},
      resolve (names :: Γ) y = .free y → y ∉ names ∧ Γ.resolve y = .free y := by
    intro Γ names y h
    have hout : ¬ (y ∉ names → Γ.resolve y ≠ .free y) := fun hne => resolve_cons_ne_free hne h
    simpa using hout
  induction t with
  | lit | builtin => intros; rfl
  | var a m y =>
    intro Γ h
    rw [nameless, Nameless.mapFree]
    cases hr : Γ.resolve y with
    | bound d i => rfl
    | free z =>
      obtain rfl := eq_of_resolve_eq_free hr
      rw [Ref.mapFree, h y (mem_free_var.2 rfl) hr]
  | app a f s ihf ihs =>
    intro Γ h
    rw [nameless, Nameless.mapFree, ihf fun y hy => h y (mem_free_app.2 (.inl hy)),
      ihs fun y hy => h y (mem_free_app.2 (.inr hy))]
  | lam a x b ih =>
    intro Γ h
    rw [nameless, Nameless.mapFree, ih fun y hy hr => ?_]
    obtain ⟨hx, hr⟩ := hcons hr
    exact h y (mem_free_lam.2 ⟨hy, by simpa using hx⟩) hr
  | letIn a x e b ihe ihb =>
    intro Γ h
    have hin : ∀ y, y ∈ e.free ∨ y ∈ b.free → resolve ([x] :: Γ) y = .free y → f y = y := by
      intro y hy hr
      obtain ⟨hx, hr⟩ := hcons hr
      exact h y (mem_free_letIn.2 ⟨hy, by simpa using hx⟩) hr
    rw [nameless, Nameless.mapFree, ihe fun y hy => hin y (.inl hy), ihb fun y hy => hin y (.inr hy)]
  | caseOf a s alts ihs ih =>
    intro Γ h
    rw [nameless, Nameless.mapFree, ihs fun y hy => h y (mem_free_caseOf.2 (.inl hy)),
      Nameless.mapFreeAlts_eq, namelessAlts_eq, List.map_map]
    congr 1
    refine List.map_congr_left fun alt halt => ?_
    rw [Function.comp_apply, ih alt halt fun y hy hr => ?_]
    obtain ⟨hb, hr⟩ := hcons hr
    exact h y (mem_free_caseOf.2 (.inr ⟨alt, halt, hy, hb⟩)) hr
  | fix a b ih =>
    intro Γ h
    rw [nameless, Nameless.mapFree, ih fun y hy => h y (mem_free_fix.2 hy)]

theorem nameless_rename_of_renamable {t : Term α} :
    ∀ {Γ : Binders}, Renamable x new t Γ →
      (t.rename x new).nameless Γ =
        (t.nameless Γ).mapFree fun y => if y = x then new else y := by
  induction t with
  | lit | builtin => intros; rfl
  | var a m y =>
    intro Γ h
    rw [rename_var, nameless, nameless, Nameless.mapFree]
    by_cases hy : y = x
    · obtain ⟨hx, hnew⟩ := h.visible (mem_free_var.2 hy.symm)
      rw [if_pos hy, hnew, hy, hx, Ref.mapFree, if_pos rfl]
    · rw [if_neg hy]
      cases hr : Γ.resolve y with
      | bound d i => rfl
      | free z =>
        obtain rfl := eq_of_resolve_eq_free hr
        rw [Ref.mapFree, if_neg hy]
  | app a f s ihf ihs =>
    intro Γ h
    rw [rename_app, nameless, nameless, Nameless.mapFree, ihf (h.part fun _ => .func),
      ihs (h.part fun _ => .arg)]
  | lam a y b ih =>
    intro Γ h
    by_cases hy : y = x
    · subst hy
      rw [rename_lam_self]
      exact (mapFree_nameless fun z hz _ => if_neg (mem_free_lam.1 hz).2).symm
    · have hin : Renamable x new b ([y] :: Γ) :=
        h.cons (by simpa using Ne.symm hy) fun _ => .lam (Ne.symm hy)
      rw [rename_lam_of_ne a new hy, nameless, nameless, Nameless.mapFree, ih hin]
  | letIn a y e b ihe ihb =>
    intro Γ h
    by_cases hy : y = x
    · subst hy
      rw [rename_letIn_self]
      exact (mapFree_nameless fun z hz _ => if_neg (mem_free_letIn.1 hz).2).symm
    · have hx : x ∉ [y] := by simpa using Ne.symm hy
      rw [rename_letIn_of_ne a new hy, nameless, nameless, Nameless.mapFree,
        ihe (h.cons hx fun _ => .bound (Ne.symm hy)), ihb (h.cons hx fun _ => .body (Ne.symm hy))]
  | caseOf a s alts ihs ih =>
    intro Γ h
    rw [rename_caseOf, nameless, nameless, Nameless.mapFree, ihs (h.part fun _ => .scrutinee),
      Nameless.mapFreeAlts_eq, namelessAlts_eq, namelessAlts_eq, List.map_map, List.map_map]
    congr 1
    refine List.map_congr_left fun alt halt => ?_
    simp only [Function.comp_apply, Prod.mk.injEq, true_and]
    by_cases hx : x ∈ alt.1.bound
    · obtain ⟨i, hi⟩ := resolve_cons_of_mem (Γ := Γ) hx
      rw [if_pos hx]
      refine (mapFree_nameless fun z _ hz => if_neg fun he => ?_).symm
      rw [he, hi] at hz
      cases hz
    · rw [if_neg hx, ih alt halt (h.cons hx fun _ => .alt halt hx)]
  | fix a b ih =>
    intro Γ h
    rw [rename_fix, nameless, nameless, Nameless.mapFree, ih (h.part fun _ => .fix)]

/-- **A renaming of free leaves**: without a binder of the new name around the occurrences of the
old one, nothing is captured. -/
theorem nameless_rename_of_apart {t : Term α} (h : t.Apart x new) :
    (t.rename x new).nameless [] = (t.nameless []).mapFree fun y => if y = x then new else y :=
  nameless_rename_of_renamable ⟨h, fun _ => ⟨rfl, rfl⟩⟩

end Term

end Letrec
