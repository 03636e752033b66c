import Letrec.Group.Basic
import Letrec.Proofs.Meaning.Model
import Letrec.Proofs.Name.Reserved

/-!
# Least solutions

The equations of a recursive group are solved in two forms. `LeastPrefixed fs ds xs` is about values
by position: of the tuples that every `f ∈ fs`, applied to `ds` and the tuple, keeps below its own
component, `xs` is the least. `LeastPrefixedAt ρ g σ` says the same of the values that `σ` gives to
the names of a group, whose other names stand for what they are in `ρ`. Such values are the least
solution of the equations `b.name = b.term` (`LeastPrefixedAt.leastSolution`).

The laws are those of elimination: the first component of a tuple may be solved last, with the others
as functions of it (`LeastPrefixed.cons`), the rest of a least tuple may be found on its own
(`LeastPrefixed.replace_tail`), and a group is solved by solving first a part that does not refer to
the rest (`LeastPrefixedAt.append`).
-/

universe u

namespace Letrec.Model

variable {α : Type} {D : Type u} [PartialOrder D] (M : Model α D)

/-! ## By position -/

/-- Every function of `fs`, applied to `ds` and `xs`, stays below its component of `xs`. -/
def Prefixed (fs ds xs : List D) : Prop :=
  List.Forall₂ (fun f x => M.applyValues f (ds ++ xs) ≤ x) fs xs

structure LeastPrefixed (fs ds xs : List D) : Prop where
  prefixed : M.Prefixed fs ds xs
  least : ∀ ys, M.Prefixed fs ds ys → List.Forall₂ (· ≤ ·) xs ys

variable {M} {f x : D} {fs ds xs ys : List D}

theorem prefixed_cons :
    M.Prefixed (f :: fs) ds (x :: xs) ↔
      M.applyValues f (ds ++ x :: xs) ≤ x ∧ M.Prefixed fs (ds ++ [x]) xs := by
  simp [Prefixed, List.append_assoc]

theorem Prefixed.exists_cons (h : M.Prefixed (f :: fs) ds ys) :
    ∃ z zs, ys = z :: zs ∧ M.applyValues f (ds ++ z :: zs) ≤ z ∧ M.Prefixed fs (ds ++ [z]) zs := by
  cases ys with
  | nil => cases h
  | cons z zs => exact ⟨z, zs, rfl, prefixed_cons.1 h⟩

theorem leastPrefixed_nil : M.LeastPrefixed [] ds [] := by
  refine ⟨List.Forall₂.nil, fun ys h => ?_⟩
  cases h
  exact List.Forall₂.nil

theorem forall₂_le_trans {zs : List D} (h : List.Forall₂ (· ≤ ·) xs ys)
    (h' : List.Forall₂ (· ≤ ·) ys zs) : List.Forall₂ (· ≤ ·) xs zs := by
  induction h generalizing zs with
  | nil => exact h'
  | cons hxy _ ih =>
    cases h' with
    | cons hyz htail => exact .cons (le_trans hxy hyz) (ih htail)

theorem applyValues_append_mono {es : List D} (h : List.Forall₂ (· ≤ ·) xs ys) :
    M.applyValues f (es ++ xs) ≤ M.applyValues f (es ++ ys) :=
  M.applyValues_mono (List.rel_append (List.forall₂_refl es) h) le_rfl

/-- What is prefixed after a larger value is prefixed after a smaller one. -/
theorem Prefixed.of_le {y : D} (h : M.Prefixed fs (ds ++ [y]) xs) (hxy : x ≤ y) :
    M.Prefixed fs (ds ++ [x]) xs := by
  refine List.Forall₂.imp (fun f z hz => le_trans ?_ hz) h
  have hds : List.Forall₂ (· ≤ ·) (ds ++ [x]) (ds ++ [y]) :=
    List.rel_append (List.forall₂_refl ds) (.cons hxy .nil)
  exact M.applyValues_mono (List.rel_append hds (List.forall₂_refl xs)) le_rfl

/-- **The first component may be solved last**: the others are solved for each value of it, and it
is the least value that its own equation keeps with them. -/
theorem LeastPrefixed.cons {F : D → D}
    (hF : ∀ d, ∃ ys, M.LeastPrefixed fs (ds ++ [d]) ys ∧ F d = M.applyValues f (ds ++ d :: ys))
    (hx : IsLeast {d | F d ≤ d} x) : ∃ ys, M.LeastPrefixed (f :: fs) ds (x :: ys) := by
  obtain ⟨ys, hys, hFx⟩ := hF x
  refine ⟨ys, prefixed_cons.2 ⟨?_, hys.prefixed⟩, fun zs hzs => ?_⟩
  · rw [← hFx]
    exact hx.1
  · obtain ⟨z, zs, rfl, hz, hzs⟩ := hzs.exists_cons
    have hxz : x ≤ z := by
      obtain ⟨vs, hvs, hFz⟩ := hF z
      refine hx.2 (le_trans ?_ hz)
      rw [hFz]
      exact applyValues_append_mono (.cons le_rfl (hvs.least zs hzs))
    exact .cons hxz (hys.least zs (hzs.of_le hxz))

/-- The rest of a least tuple is a least tuple, whichever way it was found. -/
theorem LeastPrefixed.replace_tail (h : M.LeastPrefixed (f :: fs) ds (x :: ys))
    (hxs : M.LeastPrefixed fs (ds ++ [x]) xs) : M.LeastPrefixed (f :: fs) ds (x :: xs) := by
  obtain ⟨hx, hys⟩ := prefixed_cons.1 h.prefixed
  have hle : List.Forall₂ (· ≤ ·) (x :: xs) (x :: ys) := .cons le_rfl (hxs.least ys hys)
  refine ⟨prefixed_cons.2 ⟨le_trans (applyValues_append_mono hle) hx, hxs.prefixed⟩,
    fun zs hzs => ?_⟩
  exact forall₂_le_trans hle (h.least zs hzs)

/-! ## By name -/

variable (M)

/-- The term of every binding of `g` stays below the value that `σ` gives to its name. -/
def PrefixedAt (ρ : Valuation D) (g : Group α) (σ : Valuation D) : Prop :=
  ∀ b ∈ g, M.eval b.term (ρ.override (g.map Binding.name) σ) ≤ σ b.name

structure LeastPrefixedAt (ρ : Valuation D) (g : Group α) (σ : Valuation D) : Prop where
  prefixed : M.PrefixedAt ρ g σ
  least : ∀ τ, M.PrefixedAt ρ g τ → ∀ b ∈ g, σ b.name ≤ τ b.name

/-- The values that `σ` gives to the names of `g` solve its equations, and no others that do, even
up to `≤`, are smaller. -/
structure LeastSolution (ρ : Valuation D) (g : Group α) (σ : Valuation D) : Prop where
  solves : ∀ b ∈ g, σ b.name = M.eval b.term (ρ.override (g.map Binding.name) σ)
  least : ∀ τ, M.PrefixedAt ρ g τ → ∀ b ∈ g, σ b.name ≤ τ b.name

/-- `σ` holds the least values for the names of `g` and leaves the other plain names alone. -/
structure Solved (ρ : Valuation D) (g : Group α) (σ : Valuation D) : Prop where
  least : M.LeastPrefixedAt ρ g σ
  other : ∀ x : Name, x.Plain → x ∉ g.map Binding.name → σ x = ρ x

variable {M} {ρ ρ' σ σ' : Valuation D} {g g' : Group α}

theorem LeastPrefixedAt.leastSolution (hnodup : (g.map Binding.name).Nodup)
    (h : M.LeastPrefixedAt ρ g σ) : M.LeastSolution ρ g σ := by
  refine ⟨fun b hb => le_antisymm ?_ (h.prefixed b hb), h.least⟩
  -- lowering one value to that of its term leaves the values prefixed
  have hmono : M.PrefixedAt ρ g
      (σ.set b.name (M.eval b.term (ρ.override (g.map Binding.name) σ))) := by
    intro c hc
    have hlower : ∀ x, σ.set b.name (M.eval b.term (ρ.override (g.map Binding.name) σ)) x ≤ σ x := by
      intro x
      by_cases hx : x = b.name
      · rw [hx, Valuation.set_self]
        exact h.prefixed b hb
      · rw [Valuation.set_of_ne hx]
    have hterm := M.eval_mono c.term
      (Valuation.override_mono (g.map Binding.name) (le_refl ρ) fun x _ => hlower x)
    by_cases hcb : c.name = b.name
    · obtain rfl := List.inj_on_of_nodup_map hnodup hc hb hcb
      rwa [Valuation.set_self]
    · rw [Valuation.set_of_ne hcb]
      exact le_trans hterm (h.prefixed c hc)
  have hle := h.least _ hmono b hb
  rwa [Valuation.set_self] at hle

/-- Only the values of the names of the group matter. -/
theorem LeastPrefixedAt.congr (h : M.LeastPrefixedAt ρ g σ) (hσ : ∀ b ∈ g, σ' b.name = σ b.name) :
    M.LeastPrefixedAt ρ g σ' := by
  have hsame : ρ.override (g.map Binding.name) σ' = ρ.override (g.map Binding.name) σ := by
    refine Valuation.override_congr fun x hx => ?_
    obtain ⟨b, hb, rfl⟩ := List.mem_map.1 hx
    exact hσ b hb
  refine ⟨fun b hb => ?_, fun τ hτ b hb => ?_⟩
  · rw [hsame, hσ b hb]
    exact h.prefixed b hb
  · rw [hσ b hb]
    exact h.least τ hτ b hb

/-- Of the other names only those that the terms refer to matter. -/
theorem LeastPrefixedAt.congr_base (h : M.LeastPrefixedAt ρ g σ)
    (hρ : ∀ b ∈ g, ∀ x ∈ b.term.free, x ∉ g.map Binding.name → ρ' x = ρ x) :
    M.LeastPrefixedAt ρ' g σ := by
  have hterm : ∀ τ : Valuation D, ∀ b ∈ g, M.eval b.term (ρ'.override (g.map Binding.name) τ) =
      M.eval b.term (ρ.override (g.map Binding.name) τ) := by
    refine fun τ b hb => M.eval_congr fun x hx => ?_
    by_cases hxg : x ∈ g.map Binding.name
    · rw [Valuation.override_of_mem hxg, Valuation.override_of_mem hxg]
    · rw [Valuation.override_of_not_mem hxg, Valuation.override_of_not_mem hxg, hρ b hb x hx hxg]
  refine ⟨fun b hb => ?_, fun τ hτ => h.least τ fun b hb => ?_⟩
  · rw [hterm σ b hb]
    exact h.prefixed b hb
  · rw [← hterm τ b hb]
    exact hτ b hb

/-- The order of the bindings does not matter. -/
theorem LeastPrefixedAt.perm (h : M.LeastPrefixedAt ρ g σ) (hg : g.Perm g') :
    M.LeastPrefixedAt ρ g' σ := by
  have hnames : ∀ τ : Valuation D,
      ρ.override (g'.map Binding.name) τ = ρ.override (g.map Binding.name) τ :=
    fun τ => Valuation.override_perm (hg.symm.map Binding.name)
  refine ⟨fun b hb => ?_, fun τ hτ b hb => ?_⟩
  · rw [hnames σ]
    exact h.prefixed b (hg.mem_iff.2 hb)
  · refine h.least τ (fun c hc => ?_) b (hg.mem_iff.2 hb)
    rw [← hnames τ]
    exact hτ c (hg.mem_iff.1 hc)

/-- Bindings that do not refer to each other. -/
theorem leastPrefixedAt_of_not_refers (hσ : ∀ b ∈ g, σ b.name = M.eval b.term ρ)
    (hrefs : ∀ b ∈ g, ∀ c ∈ g, c.name ∉ b.term.free) : M.LeastPrefixedAt ρ g σ := by
  have hterm : ∀ τ : Valuation D, ∀ b ∈ g,
      M.eval b.term (ρ.override (g.map Binding.name) τ) = σ b.name := by
    intro τ b hb
    rw [hσ b hb]
    refine M.eval_congr fun x hx => Valuation.override_of_not_mem fun hxg => ?_
    obtain ⟨c, hc, rfl⟩ := List.mem_map.1 hxg
    exact hrefs b hb c hc hx
  exact ⟨fun b hb => (hterm σ b hb).le, fun τ hτ b hb => hterm τ b hb ▸ hτ b hb⟩

/-- **A part that does not refer to the rest may be solved first.** -/
theorem LeastPrefixedAt.append (h : M.LeastPrefixedAt ρ g σ)
    (h' : M.LeastPrefixedAt (ρ.override (g.map Binding.name) σ) g' σ)
    (hrefs : ∀ b ∈ g, ∀ c ∈ g', c.name ∉ b.term.free) : M.LeastPrefixedAt ρ (g ++ g') σ := by
  have hfirst : ∀ τ : Valuation D, ∀ b ∈ g,
      M.eval b.term (ρ.override ((g ++ g').map Binding.name) τ) =
        M.eval b.term (ρ.override (g.map Binding.name) τ) := by
    intro τ b hb
    rw [List.map_append, ← Valuation.override_override]
    refine M.eval_congr fun x hx => Valuation.override_of_not_mem fun hxg => ?_
    obtain ⟨c, hc, rfl⟩ := List.mem_map.1 hxg
    exact hrefs b hb c hc hx
  refine ⟨fun b hb => ?_, fun τ hτ => ?_⟩
  · rcases List.mem_append.1 hb with hb | hb
    · rw [hfirst σ b hb]
      exact h.prefixed b hb
    · rw [List.map_append, ← Valuation.override_override]
      exact h'.prefixed b hb
  · have hg : ∀ b ∈ g, σ b.name ≤ τ b.name := by
      refine h.least τ fun b hb => ?_
      rw [← hfirst τ b hb]
      exact hτ b (List.mem_append_left g' hb)
    have hg' : ∀ b ∈ g', σ b.name ≤ τ b.name := by
      refine h'.least τ fun b hb =>
        le_trans (M.eval_mono b.term ?_) (hτ b (List.mem_append_right g hb))
      rw [List.map_append, ← Valuation.override_override]
      refine Valuation.override_mono _ (Valuation.override_mono _ (le_refl ρ) fun x hx => ?_)
        fun x _ => le_refl _
      obtain ⟨c, hc, rfl⟩ := List.mem_map.1 hx
      exact hg c hc
    exact fun b hb => (List.mem_append.1 hb).elim (hg b) (hg' b)

theorem solved_nil : M.Solved ρ ([] : Group α) ρ := by
  refine ⟨⟨fun b hb => ?_, fun _ _ b hb => ?_⟩, fun _ _ _ => rfl⟩
  · exact absurd hb List.not_mem_nil
  · exact absurd hb List.not_mem_nil

theorem Solved.append (h : M.Solved ρ g σ) (h' : M.Solved σ g' σ')
    (hname : ∀ b ∈ g, b.name.Plain) (hfree : ∀ b ∈ g', ∀ x ∈ b.term.free, x.Plain)
    (hapart : ∀ b ∈ g, ∀ c ∈ g', b.name ≠ c.name ∧ c.name ∉ b.term.free) :
    M.Solved ρ (g ++ g') σ' := by
  have hkept : ∀ b ∈ g, σ' b.name = σ b.name := by
    refine fun b hb => h'.other b.name (hname b hb) fun hmem => ?_
    obtain ⟨c, hc, hcb⟩ := List.mem_map.1 hmem
    exact (hapart b hb c hc).1 hcb.symm
  refine ⟨(h.least.congr hkept).append (h'.least.congr_base fun b hb x hx _ => ?_)
    fun b hb c hc => (hapart b hb c hc).2, fun x hx hxg => ?_⟩
  · by_cases hxg : x ∈ g.map Binding.name
    · rw [Valuation.override_of_mem hxg]
      obtain ⟨c, hc, rfl⟩ := List.mem_map.1 hxg
      exact hkept c hc
    · rw [Valuation.override_of_not_mem hxg, h.other x (hfree b hb x hx) hxg]
  · rw [List.map_append, List.mem_append, not_or] at hxg
    rw [h'.other x hx hxg.2, h.other x hx hxg.1]

end Letrec.Model
