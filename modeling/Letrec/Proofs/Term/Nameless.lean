import Letrec.Proofs.Term.Rename

/-!
# Terms without binder names

The nameless form of a term (`Term.nameless`) forgets how its binders are called: a bound variable
is a reference to its binder, by the number of binders in between and the position in the pattern,
and only free variables keep their names. `Nameless.replace` puts a nameless term in the place of
the free leaves of a name; nothing can be captured there.

The form depends only on what the free names resolve to (`nameless_congr`), and renaming a binder
together with its occurrences does not change it if the new name is not in use (`nameless_rename`).
-/

namespace Letrec

/-- A pattern without the names that it binds. -/
inductive Pattern.Shape where
  | var
  | con (constructor : Name) (arity : Nat)
  deriving DecidableEq, Repr

def Pattern.shape : Pattern → Shape
  | var _ => .var
  | con c xs => .con c xs.length

@[simp] theorem Pattern.shape_renameBinder (p : Pattern) (old new : Name) :
    (p.renameBinder old new).shape = p.shape := by
  cases p <;> simp [renameBinder, shape]

/-- What a variable stands for. -/
inductive Ref where
  /-- The name at `position` in the binder that `depth` other binders lie in front of. -/
  | bound (depth position : Nat)
  | free (name : Name)
  deriving DecidableEq, Repr

/-- The same reference from inside one more binder. -/
def Ref.lift : Ref → Ref
  | bound d i => bound (d + 1) i
  | free x => free x

/-- A term whose binders have no names. -/
inductive Nameless (α : Type) where
  | lit (ann : α) (value : Literal)
  | var (ann : α) (marked : Bool) (ref : Ref)
  | builtin (ann : α) (value : Builtin)
  | app (ann : α) (func arg : Nameless α)
  | lam (ann : α) (body : Nameless α)
  | letIn (ann : α) (bound body : Nameless α)
  | caseOf (ann : α) (scrutinee : Nameless α) (alts : List (Pattern.Shape × Nameless α))
  | fix (ann : α) (body : Nameless α)

variable {α : Type}

namespace Nameless

mutual

/-- Puts `r` in the place of every free leaf `x`. -/
def replace (x : Name) (r : Nameless α) : Nameless α → Nameless α
  | lit a v => lit a v
  | var a m ref => if ref = .free x then r else var a m ref
  | builtin a v => builtin a v
  | app a f s => app a (replace x r f) (replace x r s)
  | lam a b => lam a (replace x r b)
  | letIn a e b => letIn a (replace x r e) (replace x r b)
  | caseOf a s alts => caseOf a (replace x r s) (replaceAlts x r alts)
  | fix a b => fix a (replace x r b)

def replaceAlts (x : Name) (r : Nameless α) :
    List (Pattern.Shape × Nameless α) → List (Pattern.Shape × Nameless α)
  | [] => []
  | (p, t) :: alts => (p, replace x r t) :: replaceAlts x r alts

end

theorem replaceAlts_eq (x : Name) (r : Nameless α) (alts : List (Pattern.Shape × Nameless α)) :
    replaceAlts x r alts = alts.map fun alt => (alt.1, replace x r alt.2) := by
  induction alts with
  | nil => rfl
  | cons alt alts ih => simp [replaceAlts, ih]

end Nameless

/-! ## Resolution -/

/-- The names of the binders around a place, the innermost binder first. -/
abbrev Binders := List (List Name)

/-- What `x` stands for inside the binders: the innermost one that binds it decides, and there its
first position. -/
def Binders.resolve : Binders → Name → Ref
  | [], x => .free x
  | names :: binders, x =>
    match names.idxOf? x with
    | some i => .bound 0 i
    | none => (Binders.resolve binders x).lift

namespace Binders

variable {Γ Δ : Binders} {names : List Name} {x y : Name}

theorem resolve_cons_of_not_mem (h : x ∉ names) : resolve (names :: Γ) x = (resolve Γ x).lift := by
  rw [resolve, List.idxOf?_eq_none_iff.2 h]

theorem resolve_cons_of_mem (h : x ∈ names) : ∃ i, resolve (names :: Γ) x = .bound 0 i := by
  rw [resolve]
  cases hi : names.idxOf? x with
  | none => exact absurd h (List.idxOf?_eq_none_iff.1 hi)
  | some i => exact ⟨i, rfl⟩

/-- Binders agree on a name under one more binder if it binds the name or they agree before. -/
theorem resolve_cons_congr (h : x ∉ names → resolve Γ x = resolve Δ x) :
    resolve (names :: Γ) x = resolve (names :: Δ) x := by
  by_cases hx : x ∈ names
  · rw [resolve, resolve]
    cases hi : names.idxOf? x with
    | none => exact absurd hx (List.idxOf?_eq_none_iff.1 hi)
    | some i => rfl
  · rw [resolve_cons_of_not_mem hx, resolve_cons_of_not_mem hx, h hx]

/-- A name that stays free stands for itself. -/
theorem eq_of_resolve_eq_free : ∀ {Γ : Binders} {y : Name}, resolve Γ x = .free y → x = y
  | [], _, h => Ref.free.inj h
  | names :: Γ, y, h => by
    by_cases hx : x ∈ names
    · obtain ⟨i, hi⟩ := resolve_cons_of_mem (Γ := Γ) hx
      rw [hi] at h
      cases h
    · rw [resolve_cons_of_not_mem hx] at h
      cases hr : resolve Γ x with
      | bound d i => rw [hr] at h; cases h
      | free z =>
        rw [hr, Ref.lift] at h
        exact (eq_of_resolve_eq_free hr).trans (Ref.free.inj h)

theorem resolve_cons_free (h : x ∉ names) (hx : resolve Γ x = .free x) :
    resolve (names :: Γ) x = .free x := by
  rw [resolve_cons_of_not_mem h, hx, Ref.lift]

theorem resolve_cons_ne_free (h : x ∉ names → resolve Γ x ≠ .free x) :
    resolve (names :: Γ) x ≠ .free x := by
  by_cases hx : x ∈ names
  · obtain ⟨i, hi⟩ := resolve_cons_of_mem (Γ := Γ) hx
    rw [hi]
    exact Ref.noConfusion
  · rw [resolve_cons_of_not_mem hx]
    intro hl
    cases hr : resolve Γ x with
    | bound d i => rw [hr] at hl; cases hl
    | free y =>
      rw [hr, Ref.lift] at hl
      exact h hx (hr.trans hl)

theorem idxOf?_map {f : Name → Name} {w z : Name} :
    ∀ {l : List Name}, (∀ u ∈ l, f u = w ↔ u = z) → (l.map f).idxOf? w = l.idxOf? z
  | [], _ => rfl
  | u :: l, h => by
    have hu : (f u == w) = (u == z) := by
      rw [Bool.eq_iff_iff, beq_iff_eq, beq_iff_eq]
      exact h u List.mem_cons_self
    rw [List.map_cons, List.idxOf?_cons, List.idxOf?_cons, hu,
      idxOf?_map fun v hv => h v (List.mem_cons_of_mem _ hv)]

/-- A renamed binder has the new name in the place of the old one, if it did not bind the new name
before. -/
theorem resolve_cons_map (hx : x ∈ names) (hy : y ∉ names) :
    resolve (names.map (fun u => if u = x then y else u) :: Δ) y = resolve (names :: Γ) x := by
  have hidx : (names.map fun u => if u = x then y else u).idxOf? y = names.idxOf? x := by
    refine idxOf?_map fun u hu => ?_
    by_cases hux : u = x
    · simp [hux]
    · simp only [hux, if_false, iff_false]
      exact fun he => hy (he ▸ hu)
  rw [resolve, resolve, hidx]
  cases hi : names.idxOf? x with
  | none => exact absurd hx (List.idxOf?_eq_none_iff.1 hi)
  | some i => rfl

/-- The other names keep their places in it. -/
theorem resolve_cons_map_of_ne {z : Name} (hx : z ≠ x) (hy : z ≠ y) :
    resolve (names.map (fun u => if u = x then y else u) :: Γ) z = resolve (names :: Γ) z := by
  have hidx : (names.map fun u => if u = x then y else u).idxOf? z = names.idxOf? z := by
    refine idxOf?_map fun u _ => ?_
    by_cases hux : u = x
    · simp [hux, Ne.symm hx, Ne.symm hy]
    · simp [hux]
  rw [resolve, resolve, hidx]

/-- `new` stands in `Δ` for what `x` stands for in `Γ`, and the others of the names `free` stand for
the same in both. -/
structure Carries (x new : Name) (free : List Name) (Γ Δ : Binders) : Prop where
  moved : x ∈ free → resolve Δ new = resolve Γ x
  kept : ∀ z ∈ free, z ≠ x → resolve Δ z = resolve Γ z

/-- One more binder, which binds neither of the two names. -/
theorem Carries.cons {x new : Name} {free free' : List Name} (h : Carries x new free Γ Δ)
    (hx : x ∉ names) (hnew : new ∉ names) (hfree : ∀ z ∈ free', z ∉ names → z ∈ free) :
    Carries x new free' (names :: Γ) (names :: Δ) where
  moved := fun hm => by
    rw [resolve_cons_of_not_mem hx, resolve_cons_of_not_mem hnew, h.moved (hfree x hm hx)]
  kept := fun z hz hzx => resolve_cons_congr fun hzn => h.kept z (hfree z hz hzn) hzx

theorem Carries.subset {x new : Name} {free free' : List Name} (h : Carries x new free Γ Δ)
    (hfree : ∀ z ∈ free', z ∈ free) : Carries x new free' Γ Δ :=
  ⟨fun hm => h.moved (hfree x hm), fun z hz => h.kept z (hfree z hz)⟩

/-- A binder of one name is renamed. -/
theorem Carries.binder {x new : Name} {free : List Name} (hnew : new ∉ free) :
    Carries x new free ([x] :: Γ) ([new] :: Γ) where
  moved := fun _ => by simp [resolve, List.idxOf?_cons]
  kept := fun z hz hzx => by
    have hznew : z ≠ new := fun he => hnew (he ▸ hz)
    rw [resolve_cons_of_not_mem (by simpa using hznew), resolve_cons_of_not_mem (by simpa using hzx)]

end Binders

/-! ## The nameless form -/

namespace Term

open Binders

mutual

/-- The term inside the binders `Γ`, without the names of its own binders. -/
def nameless (Γ : Binders) : Term α → Nameless α
  | lit a v => .lit a v
  | var a m x => .var a m (Γ.resolve x)
  | builtin a v => .builtin a v
  | app a f s => .app a (f.nameless Γ) (s.nameless Γ)
  | lam a x b => .lam a (b.nameless ([x] :: Γ))
  | letIn a x e b => .letIn a (e.nameless ([x] :: Γ)) (b.nameless ([x] :: Γ))
  | caseOf a s alts => .caseOf a (s.nameless Γ) (namelessAlts Γ alts)
  | fix a b => .fix a (b.nameless Γ)

def namelessAlts (Γ : Binders) : List (Alternative α) → List (Pattern.Shape × Nameless α)
  | [] => []
  | (p, t) :: alts => (p.shape, t.nameless (p.bound :: Γ)) :: namelessAlts Γ alts

end

theorem namelessAlts_eq (Γ : Binders) (alts : List (Alternative α)) :
    namelessAlts Γ alts = alts.map fun alt => (alt.1.shape, alt.2.nameless (alt.1.bound :: Γ)) := by
  induction alts with
  | nil => rfl
  | cons alt alts ih => simp [namelessAlts, ih]

/-- Only what the free names stand for matters. -/
theorem nameless_congr {t : Term α} :
    ∀ {Γ Δ : Binders}, (∀ x ∈ t.free, Γ.resolve x = Δ.resolve x) → t.nameless Γ = t.nameless Δ := by
  induction t with
  | lit | builtin => intros; rfl
  | var a m x =>
    intro Γ Δ h
    rw [nameless, nameless, h x (mem_free_var.2 rfl)]
  | app a f s ihf ihs =>
    intro Γ Δ h
    rw [nameless, nameless, ihf fun x hx => h x (mem_free_app.2 (.inl hx)),
      ihs fun x hx => h x (mem_free_app.2 (.inr hx))]
  | lam a x b ih =>
    intro Γ Δ h
    rw [nameless, nameless, ih fun y hy => resolve_cons_congr fun hyx =>
      h y (mem_free_lam.2 ⟨hy, fun he => hyx (List.mem_singleton.2 he)⟩)]
  | letIn a x e b ihe ihb =>
    intro Γ Δ h
    have hne : ∀ y, y ∉ [x] → y ≠ x := fun y hy he => hy (List.mem_singleton.2 he)
    rw [nameless, nameless,
      ihe fun y hy => resolve_cons_congr fun hyx => h y (mem_free_letIn.2 ⟨.inl hy, hne y hyx⟩),
      ihb fun y hy => resolve_cons_congr fun hyx => h y (mem_free_letIn.2 ⟨.inr hy, hne y hyx⟩)]
  | caseOf a s alts ihs ih =>
    intro Γ Δ h
    have halts : namelessAlts Γ alts = namelessAlts Δ alts := by
      rw [namelessAlts_eq, namelessAlts_eq]
      refine List.map_congr_left fun alt halt => ?_
      rw [ih alt halt fun y hy => resolve_cons_congr fun hyb =>
        h y (mem_free_caseOf.2 (.inr ⟨alt, halt, hy, hyb⟩))]
    rw [nameless, nameless, ihs fun y hy => h y (mem_free_caseOf.2 (.inl hy)), halts]
  | fix a b ih =>
    intro Γ Δ h
    rw [nameless, nameless, ih fun x hx => h x (mem_free_fix.2 hx)]

/-- A renaming to a name that is not in use is undone by binders in which the new name stands for
what the old one stood for. -/
theorem nameless_rename {t : Term α} {x new : Name} :
    ∀ {Γ Δ : Binders}, new ∉ t.names → Carries x new t.free Γ Δ →
      (t.rename x new).nameless Δ = t.nameless Γ := by
  induction t with
  | lit | builtin => intros; simp [nameless]
  | var a m y =>
    intro Γ Δ _ h
    rw [rename_var, nameless, nameless]
    by_cases hy : y = x
    · rw [if_pos hy, hy, h.moved (mem_free_var.2 hy.symm)]
    · rw [if_neg hy, h.kept y (mem_free_var.2 rfl) hy]
  | app a f s ihf ihs =>
    intro Γ Δ hnew h
    rw [mem_names_app, not_or] at hnew
    rw [rename_app, nameless, nameless,
      ihf hnew.1 (h.subset fun z hz => mem_free_app.2 (.inl hz)),
      ihs hnew.2 (h.subset fun z hz => mem_free_app.2 (.inr hz))]
  | lam a y b ih =>
    intro Γ Δ hnew h
    rw [mem_names_lam, not_or] at hnew
    by_cases hy : y = x
    · subst hy
      rw [rename_lam_self]
      exact nameless_congr fun z hz => h.kept z hz (mem_free_lam.1 hz).2
    · have hcarries : Carries x new b.free ([y] :: Γ) ([y] :: Δ) :=
        h.cons (by simpa using Ne.symm hy) (by simpa using hnew.1)
          fun z hz hzy => mem_free_lam.2 ⟨hz, by simpa using hzy⟩
      rw [rename_lam_of_ne a new hy, nameless, nameless, ih hnew.2 hcarries]
  | letIn a y e b ihe ihb =>
    intro Γ Δ hnew h
    rw [mem_names_letIn, not_or, not_or] at hnew
    by_cases hy : y = x
    · subst hy
      rw [rename_letIn_self]
      exact nameless_congr fun z hz => h.kept z hz (mem_free_letIn.1 hz).2
    · have hcarries : Carries x new (e.free ++ b.free) ([y] :: Γ) ([y] :: Δ) :=
        h.cons (by simpa using Ne.symm hy) (by simpa using hnew.1)
          fun z hz hzy => mem_free_letIn.2 ⟨List.mem_append.1 hz, by simpa using hzy⟩
      rw [rename_letIn_of_ne a new hy, nameless, nameless,
        ihe hnew.2.1 (hcarries.subset fun z hz => List.mem_append_left _ hz),
        ihb hnew.2.2 (hcarries.subset fun z hz => List.mem_append_right _ hz)]
  | caseOf a s alts ihs ih =>
    intro Γ Δ hnew h
    rw [mem_names_caseOf, not_or] at hnew
    rw [rename_caseOf, nameless, nameless, namelessAlts_eq, namelessAlts_eq, List.map_map,
      ihs hnew.1 (h.subset fun z hz => mem_free_caseOf.2 (.inl hz))]
    congr 1
    refine List.map_congr_left fun alt halt => ?_
    have hfresh : new ∉ alt.1.bound ∧ new ∉ alt.2.names :=
      ⟨fun hb => hnew.2 ⟨alt, halt, .inl hb⟩, fun hn => hnew.2 ⟨alt, halt, .inr hn⟩⟩
    have hfree : ∀ z ∈ alt.2.free, z ∉ alt.1.bound → z ∈ (caseOf a s alts).free :=
      fun z hz hzb => mem_free_caseOf.2 (.inr ⟨alt, halt, hz, hzb⟩)
    simp only [Function.comp_apply, Prod.mk.injEq, true_and]
    by_cases hx : x ∈ alt.1.bound
    · rw [if_pos hx]
      exact nameless_congr fun z hz => resolve_cons_congr fun hzb =>
        h.kept z (hfree z hz hzb) fun he => hzb (he ▸ hx)
    · rw [if_neg hx]
      exact ih alt halt hfresh.2 (h.cons hx hfresh.1 hfree)
  | fix a b ih =>
    intro Γ Δ hnew h
    rw [mem_names_fix] at hnew
    rw [rename_fix, nameless, nameless, ih hnew (h.subset fun z hz => mem_free_fix.2 hz)]

/-- Where `x` is not free or stands for a binder, there is no free leaf `x`. -/
theorem replace_nameless {t : Term α} {x : Name} {r : Nameless α} :
    ∀ {Γ : Binders}, (x ∈ t.free → Γ.resolve x ≠ .free x) →
      Nameless.replace x r (t.nameless Γ) = t.nameless Γ := by
  induction t with
  | lit | builtin => intros; rfl
  | var a m y =>
    intro Γ h
    rw [nameless, Nameless.replace, if_neg fun he => ?_]
    have hyx := eq_of_resolve_eq_free he
    exact h (mem_free_var.2 hyx.symm) (hyx ▸ he)
  | app a f s ihf ihs =>
    intro Γ h
    rw [nameless, Nameless.replace, ihf fun hx => h (mem_free_app.2 (.inl hx)),
      ihs fun hx => h (mem_free_app.2 (.inr hx))]
  | lam a y b ih =>
    intro Γ h
    rw [nameless, Nameless.replace, ih fun hx => ?_]
    exact resolve_cons_ne_free fun hy => h (mem_free_lam.2 ⟨hx, by simpa using hy⟩)
  | letIn a y e b ihe ihb =>
    intro Γ h
    have hcons : x ∈ e.free ∨ x ∈ b.free → resolve ([y] :: Γ) x ≠ .free x := fun hx =>
      resolve_cons_ne_free fun hy => h (mem_free_letIn.2 ⟨hx, by simpa using hy⟩)
    rw [nameless, Nameless.replace, ihe fun hx => hcons (.inl hx), ihb fun hx => hcons (.inr hx)]
  | caseOf a s alts ihs ih =>
    intro Γ h
    rw [nameless, Nameless.replace, ihs fun hx => h (mem_free_caseOf.2 (.inl hx)),
      Nameless.replaceAlts_eq, namelessAlts_eq, List.map_map]
    congr 1
    refine List.map_congr_left fun alt halt => ?_
    rw [Function.comp_apply, ih alt halt fun hx => ?_]
    exact resolve_cons_ne_free fun hb => h (mem_free_caseOf.2 (.inr ⟨alt, halt, hx, hb⟩))
  | fix a b ih =>
    intro Γ h
    rw [nameless, Nameless.replace, ih fun hx => h (mem_free_fix.2 hx)]

end Term

end Letrec
