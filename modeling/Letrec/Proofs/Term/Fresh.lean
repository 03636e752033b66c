import Letrec.Term.Fresh
import Letrec.Proofs.Term.Nameless
import Std.Data.String.ToNat
import Mathlib.Data.List.Nodup

/-!
# Replacement without capture is substitution

`nameless_replaceFresh`: in the nameless form, where nothing can be captured, `replaceFresh` is the
replacement of free leaves.

The induction is on the size of the term, since the search goes on in a body whose binder has just
been renamed. It runs under binders `Γ` that may hide `x` or a free name of the replacement only
where `x` does not occur (`Exposed`). A binder that would break this is renamed to a fresh name
(`fresh_not_mem`), which leaves the nameless form as it is (`nameless_freshenVar`,
`freshenAlt_spec`).
-/

namespace Letrec

namespace Name

theorem primed_injective (x : Name) : Function.Injective x.primed := by
  intro m n h
  have htext := congrArg Name.text h
  simp only [primed] at htext
  exact Nat.repr_injective ((String.append_right_inj _).1 htext)

/-- One more candidate than there are taken names is enough: the names are distinct, so that they
cannot all be taken. -/
theorem fresh_not_mem (x : Name) (taken : List Name) : x.fresh taken ∉ taken := by
  unfold fresh
  simp only
  generalize hc : (List.range (taken.length + 1)).map (fun n => x.primed (n + 1)) = candidates
  cases hf : candidates.find? (· ∉ taken) with
  | some y => simpa using List.find?_some hf
  | none =>
    have hall : candidates ⊆ taken := fun y hy => by
      simpa using List.find?_eq_none.1 hf y hy
    have hnodup : candidates.Nodup := by
      rw [← hc]
      exact List.nodup_range.map fun m n h => Nat.succ.inj (x.primed_injective h)
    have hlen : candidates.length = taken.length + 1 := by rw [← hc]; simp
    have := hnodup.length_le_of_subset hall
    omega

end Name

namespace Term

open Binders

variable {α : Type} {x y : Name} {captured : List Name} {Γ : Binders}

/-! ## Fresh pattern variables -/

/-- The new name of a pattern variable. -/
theorem freshenVar_eq (captured : List Name) (alt : Alternative α) (y : Name) :
    ∃ new, new ∉ captured ∧ new ∉ alt.1.bound ∧ new ∉ alt.2.names ∧
      freshenVar captured alt y = (alt.1.renameBinder y new, alt.2.rename y new) := by
  have hfresh := y.fresh_not_mem (captured ++ alt.1.bound ++ alt.2.names)
  simp only [List.mem_append, not_or] at hfresh
  exact ⟨_, hfresh.1.1, hfresh.1.2, hfresh.2, rfl⟩

/-- A pattern variable and its occurrences are renamed together. -/
theorem nameless_freshenVar (captured : List Name) (Γ : Binders) {alt : Alternative α}
    (h : y ∈ alt.1.bound ∨ y ∉ alt.2.free) :
    (freshenVar captured alt y).2.nameless ((freshenVar captured alt y).1.bound :: Γ) =
      alt.2.nameless (alt.1.bound :: Γ) := by
  obtain ⟨new, -, hbound, hnames, heq⟩ := freshenVar_eq captured alt y
  rw [heq, Pattern.bound_renameBinder]
  refine nameless_rename hnames ⟨fun hy => ?_, fun z hz hzy => ?_⟩
  · exact resolve_cons_map (h.resolve_right fun hn => hn hy) hbound
  · exact resolve_cons_map_of_ne hzy fun he => hnames (he ▸ alt.2.free_subset_names hz)

/-- While the pattern variables `clashes` of `alt` are renamed one after another, which has led to
`alt'`. The target `x` stays free in the alternative. -/
structure Freshening (x : Name) (captured : List Name) (Γ : Binders) (alt : Alternative α)
    (clashes : List Name) (alt' : Alternative α) : Prop where
  shape : alt'.1.shape = alt.1.shape
  nameless : alt'.2.nameless (alt'.1.bound :: Γ) = alt.2.nameless (alt.1.bound :: Γ)
  target : x ∈ alt'.2.free ∧ x ∉ alt'.1.bound
  /-- A name that was renamed before, as the second of two equal ones, does not occur any more. -/
  clash : ∀ y ∈ clashes, y ∈ captured ∧ (y ∈ alt'.1.bound ∨ y ∉ alt'.2.free)
  left : ∀ y ∈ alt'.1.bound, y ∈ captured → y ∈ clashes

theorem Freshening.step {alt alt' : Alternative α} {clashes : List Name}
    (h : Freshening x captured Γ alt (y :: clashes) alt') :
    Freshening x captured Γ alt clashes (freshenVar captured alt' y) := by
  obtain ⟨hyc, hy⟩ := h.clash y List.mem_cons_self
  have hnameless := nameless_freshenVar captured Γ hy
  obtain ⟨new, hcap, hbound, hnames, heq⟩ := freshenVar_eq captured alt' y
  have hxy : x ≠ y := by
    rintro rfl
    exact hy.elim h.target.2 fun hn => hn h.target.1
  have hxnew : x ≠ new := fun he => hnames (he ▸ alt'.2.free_subset_names h.target.1)
  -- a name is bound now if it was before and is not `y`, or if it is the new one
  have hmem : ∀ z, z ∈ (alt'.1.renameBinder y new).bound →
      (z ∈ alt'.1.bound ∧ z ≠ y) ∨ z = new := by
    intro z hz
    rw [Pattern.bound_renameBinder] at hz
    obtain ⟨w, hw, rfl⟩ := List.mem_map.1 hz
    by_cases hwy : w = y
    · simp [hwy]
    · simp [hwy, hw]
  refine ⟨?shape, hnameless.trans h.nameless, ?target, ?clash, ?left⟩
  case shape => rw [heq, Pattern.shape_renameBinder, h.shape]
  case target =>
    rw [heq]
    refine ⟨mem_free_rename_of_ne hxy h.target.1, fun hx => ?_⟩
    rcases hmem x hx with hx | hx
    · exact h.target.2 hx.1
    · exact hxnew hx
  case clash =>
    intro z hz
    obtain ⟨hzc, hzb⟩ := h.clash z (List.mem_cons_of_mem _ hz)
    have hznew : z ≠ new := fun he => hcap (he ▸ hzc)
    refine ⟨hzc, ?_⟩
    rw [heq]
    by_cases hzy : z = y
    · subst hzy
      exact .inr (not_mem_free_rename hznew)
    · refine hzb.imp (fun hb => ?_) fun hn hf => ?_
      · rw [Pattern.bound_renameBinder]
        exact List.mem_map.2 ⟨z, hb, if_neg hzy⟩
      · rcases mem_free_rename hf with hf | hf
        · exact hn hf.1
        · exact hznew hf.1
  case left =>
    intro z hz hzc
    rw [heq] at hz
    rcases hmem z hz with ⟨hz, hzy⟩ | rfl
    · exact (List.mem_cons.1 (h.left z hz hzc)).resolve_left hzy
    · exact absurd hzc hcap

theorem Freshening.foldl {alt : Alternative α} : ∀ {clashes : List Name} {alt' : Alternative α},
    Freshening x captured Γ alt clashes alt' →
      Freshening x captured Γ alt [] (clashes.foldl (freshenVar captured) alt')
  | [], _, h => h
  | _ :: _, _, h => by
    rw [List.foldl_cons]
    exact Freshening.foldl h.step

/-- **A freshened alternative** is the same without names, and binds none of the names that may be
captured, nor the target. -/
theorem freshenAlt_spec (captured : List Name) (Γ : Binders) {alt : Alternative α}
    (hx : x ∈ alt.2.free) (hb : x ∉ alt.1.bound) :
    Freshening x captured Γ alt [] (freshenAlt captured alt) := by
  refine Freshening.foldl ⟨rfl, rfl, ⟨hx, hb⟩, fun y hy => ?_, fun y hy hc => ?_⟩
  · rw [List.mem_filter, decide_eq_true_iff] at hy
    exact ⟨hy.2, .inl hy.1⟩
  · exact List.mem_filter.2 ⟨hy, decide_eq_true hc⟩

/-! ## Replacement -/

/-- Where `x` is free in `t`, the binders `Γ` hide neither it nor a free name of `r`. -/
def Exposed (x : Name) (r t : Term α) (Γ : Binders) : Prop :=
  x ∈ t.free → ∀ z, z = x ∨ z ∈ r.free → resolve Γ z = .free z

theorem Exposed.of_free {r t t' : Term α} (h : Exposed x r t Γ) (hfree : x ∈ t'.free → x ∈ t.free) :
    Exposed x r t' Γ :=
  fun hx => h (hfree hx)

/-- One more binder, which binds none of these names either. -/
theorem Exposed.cons {r t t' : Term α} {names : List Name} (h : Exposed x r t Γ)
    (hfree : x ∈ t'.free → x ∈ t.free) (hx : x ∉ names) (hr : x ∈ t'.free → ∀ z ∈ r.free, z ∉ names) :
    Exposed x r t' (names :: Γ) := by
  intro hx' z hz
  refine resolve_cons_free ?_ (h (hfree hx') z hz)
  rcases hz with rfl | hz
  · exact hx
  · exact hr hx' z hz

/-- The body of a binder whose renaming to `new` makes way for `r`. -/
theorem nameless_rename_binder {t : Term α} {new : Name} (h : new ∉ t.names) :
    (t.rename y new).nameless ([new] :: Γ) = t.nameless ([y] :: Γ) :=
  nameless_rename h (Carries.binder fun hf => h (t.free_subset_names hf))

theorem nameless_replaceAvoiding (x : Name) (r t : Term α) :
    ∀ {Γ : Binders}, Exposed x r t Γ → (replaceAvoiding x r r.free t).nameless Γ =
      Nameless.replace x (r.nameless []) (t.nameless Γ) := by
  induction hn : t.size using Nat.strongRecOn generalizing t with
  | ind n ih =>
  subst hn
  intro Γ h
  cases t with
  | lit a v => simp [replaceAvoiding, nameless, Nameless.replace]
  | builtin a v => simp [replaceAvoiding, nameless, Nameless.replace]
  | var a m y =>
    rw [replaceAvoiding, nameless, Nameless.replace]
    by_cases hy : y = x
    · subst hy
      have hexp := h (mem_free_var.2 rfl)
      rw [if_pos rfl, if_pos (hexp y (.inl rfl))]
      exact nameless_congr fun z hz => hexp z (.inr hz)
    · rw [if_neg hy, if_neg fun he => hy (eq_of_resolve_eq_free he), nameless]
  | app a f s =>
    rw [replaceAvoiding, nameless, nameless, Nameless.replace,
      ih _ (by simp only [size]; omega) f rfl (h.of_free fun hx => mem_free_app.2 (.inl hx)),
      ih _ (by simp only [size]; omega) s rfl (h.of_free fun hx => mem_free_app.2 (.inr hx))]
  | lam a y b =>
    rw [replaceAvoiding]
    by_cases hy : y = x
    · rw [if_pos hy, replace_nameless fun hx => absurd hy.symm (mem_free_lam.1 hx).2]
    rw [if_neg hy]
    by_cases hc : y ∈ r.free ∧ x ∈ b.free
    · -- `y` would capture a name of `r`
      have hfresh := y.fresh_not_mem (r.free ++ b.names)
      rw [if_pos hc]
      generalize y.fresh (r.free ++ b.names) = new at hfresh
      rw [List.mem_append, not_or] at hfresh
      have hx : x ∉ [new] := fun hm =>
        hfresh.2 (List.mem_singleton.1 hm ▸ b.free_subset_names hc.2)
      have hexp : Exposed x r (b.rename y new) ([new] :: Γ) :=
        h.cons (fun _ => mem_free_lam.2 ⟨hc.2, Ne.symm hy⟩) hx
          fun _ z hz hm => hfresh.1 (List.mem_singleton.1 hm ▸ hz)
      rw [nameless, nameless, Nameless.replace,
        ih _ (by simp only [size, size_rename]; omega) _ rfl hexp, nameless_rename_binder hfresh.2]
    · have hexp : Exposed x r b ([y] :: Γ) :=
        h.cons (fun hx => mem_free_lam.2 ⟨hx, Ne.symm hy⟩) (by simpa using Ne.symm hy)
          fun hx z hz hm => hc ⟨List.mem_singleton.1 hm ▸ hz, hx⟩
      rw [if_neg hc, nameless, nameless, Nameless.replace,
        ih _ (by simp only [size]; omega) b rfl hexp]
  | letIn a y e b =>
    rw [replaceAvoiding]
    by_cases hy : y = x
    · rw [if_pos hy, replace_nameless fun hx => absurd hy.symm (mem_free_letIn.1 hx).2]
    rw [if_neg hy]
    by_cases hc : y ∈ r.free ∧ (x ∈ e.free ∨ x ∈ b.free)
    · -- `y` would capture a name of `r` in the bound term or in the body
      have hfresh := y.fresh_not_mem (r.free ++ e.names ++ b.names)
      rw [if_pos hc]
      generalize y.fresh (r.free ++ e.names ++ b.names) = new at hfresh
      simp only [List.mem_append, not_or] at hfresh
      obtain ⟨⟨hr, he⟩, hb⟩ := hfresh
      have hx : x ∉ [new] := by
        intro hm
        rw [List.mem_singleton.1 hm] at hc
        exact hc.2.elim (fun hx => he (e.free_subset_names hx)) fun hx => hb (b.free_subset_names hx)
      have hexp : ∀ t, Exposed x r (rename t y new) ([new] :: Γ) := fun t =>
        h.cons (fun _ => mem_free_letIn.2 ⟨hc.2, Ne.symm hy⟩) hx
          fun _ z hz hm => hr (List.mem_singleton.1 hm ▸ hz)
      rw [nameless, nameless, Nameless.replace,
        ih _ (by simp only [size, size_rename]; omega) _ rfl (hexp e), nameless_rename_binder he,
        ih _ (by simp only [size, size_rename]; omega) _ rfl (hexp b), nameless_rename_binder hb]
    · have hexp : ∀ t, (x ∈ t.free → x ∈ e.free ∨ x ∈ b.free) → Exposed x r t ([y] :: Γ) :=
        fun t ht => h.cons (fun hx => mem_free_letIn.2 ⟨ht hx, Ne.symm hy⟩)
          (by simpa using Ne.symm hy) fun hx z hz hm => hc ⟨List.mem_singleton.1 hm ▸ hz, ht hx⟩
      rw [if_neg hc, nameless, nameless, Nameless.replace,
        ih _ (by simp only [size]; omega) e rfl (hexp e .inl),
        ih _ (by simp only [size]; omega) b rfl (hexp b .inr)]
  | caseOf a s alts =>
    have hs : Exposed x r s Γ := h.of_free fun hx => mem_free_caseOf.2 (.inl hx)
    rw [replaceAvoiding, nameless, nameless, Nameless.replace,
      ih _ (by simp only [size]; omega) s rfl hs, replaceAvoidingAlts_eq, namelessAlts_eq,
      namelessAlts_eq, Nameless.replaceAlts_eq, List.map_map, List.map_map]
    congr 1
    refine List.map_congr_left fun alt halt => ?_
    have hsize := size_lt_caseOf a s halt
    simp only [Function.comp_apply]
    by_cases hb : x ∈ alt.1.bound
    · obtain ⟨i, hi⟩ := resolve_cons_of_mem (Γ := Γ) hb
      rw [if_pos hb, replace_nameless fun _ he => Ref.noConfusion (hi.symm.trans he)]
    rw [if_neg hb]
    have hfree : x ∈ alt.2.free → x ∈ (caseOf a s alts).free :=
      fun hx => mem_free_caseOf.2 (.inr ⟨alt, halt, hx, hb⟩)
    by_cases hx : x ∈ alt.2.free
    · have hspec := freshenAlt_spec r.free Γ hx hb
      have hexp : Exposed x r (freshenAlt r.free alt).2 ((freshenAlt r.free alt).1.bound :: Γ) :=
        h.cons (fun _ => hfree hx) hspec.target.2
          fun _ z hz hm => List.not_mem_nil (hspec.left z hm hz)
      rw [if_pos hx, ih _ (by rwa [size_freshenAlt]) _ rfl hexp, hspec.shape, hspec.nameless]
    · have hexp : Exposed x r alt.2 (alt.1.bound :: Γ) := fun hx' => absurd hx' hx
      rw [if_neg hx, ih _ hsize _ rfl hexp]
  | fix a b =>
    rw [replaceAvoiding, nameless, nameless, Nameless.replace,
      ih _ (by simp only [size]; omega) b rfl (h.of_free fun hx => mem_free_fix.2 hx)]

/-- **Replacement without capture is substitution**: without the names of binders, `replaceFresh`
puts `r` in the place of every free leaf `x` and changes nothing else. -/
theorem nameless_replaceFresh (t : Term α) (x : Name) (r : Term α) :
    (t.replaceFresh x r).nameless [] = Nameless.replace x (r.nameless []) (t.nameless []) :=
  nameless_replaceAvoiding x r t fun _ _ _ => rfl

end Term

end Letrec
