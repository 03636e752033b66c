import Letrec.Proofs.Term.Fresh
import Letrec.Proofs.Term.Occurrence
import Letrec.Term.Text

/-!
# Replacement, with and without capture

`replace` and `replaceFresh` put a term in the place of the free occurrences of a name. The first
leaves the binders around these alone, the second renames those that would capture a free name of
the inserted term. If there are none, both do the same, and otherwise they differ in a binder
(`replaceFresh_eq_replace_iff`).

What `replace` has put in is left alone by the replacement of a name that is not free in it. So two
replacements can change places if neither brings in the name of the other, whatever they capture on
the way (`replace_comm`).
-/

namespace Letrec.Term

variable {α : Type} {x y : Name} {captured : List Name}

/-! ## Replacement without capture -/

/-- A pattern that binds one of the names is given another one. -/
theorem freshenAlt_fst_ne {alt : Alternative α} (hx : x ∈ alt.2.free) (hb : x ∉ alt.1.bound)
    (hy : y ∈ alt.1.bound) (hc : y ∈ captured) : (freshenAlt captured alt).1 ≠ alt.1 := by
  intro heq
  have hleft := (freshenAlt_spec captured [] hx hb).left
  rw [heq] at hleft
  exact List.not_mem_nil (hleft y hy hc)

theorem freshenAlt_of_forall_not_mem {alt : Alternative α} (h : ∀ y ∈ captured, y ∉ alt.1.bound) :
    freshenAlt captured alt = alt := by
  have hnil : alt.1.bound.filter (· ∈ captured) = [] := by
    rw [List.filter_eq_nil_iff]
    exact fun y hy hc => h y (of_decide_eq_true hc) hy
  rw [freshenAlt, hnil, List.foldl_nil]

/-- What both replacements make of an alternative that does not bind `x`. -/
theorem freshened_eq_iff {r : Term α} {alt : Alternative α} (hb : x ∉ alt.1.bound)
    (ih : replaceAvoiding x r captured alt.2 = alt.2.replace x r ↔
      ∀ y ∈ captured, alt.2.Apart x y) :
    (if x ∈ alt.2.free then
        ((freshenAlt captured alt).1, replaceAvoiding x r captured (freshenAlt captured alt).2)
      else (alt.1, replaceAvoiding x r captured alt.2)) = (alt.1, alt.2.replace x r) ↔
      ∀ y ∈ captured, (x ∈ alt.2.free → y ∉ alt.1.bound) ∧ alt.2.Apart x y := by
  by_cases hc : x ∈ alt.2.free ∧ ∃ y ∈ captured, y ∈ alt.1.bound
  · obtain ⟨hx, y, hy, hyb⟩ := hc
    rw [if_pos hx]
    refine iff_of_false (fun heq => ?_) fun h => (h y hy).1 hx hyb
    exact freshenAlt_fst_ne hx hb hyb hy (Prod.mk.inj heq).1
  · have hkept : ∀ y ∈ captured, x ∈ alt.2.free → y ∉ alt.1.bound :=
      fun y hy hx hyb => hc ⟨hx, y, hy, hyb⟩
    have hsame : (if x ∈ alt.2.free then
          ((freshenAlt captured alt).1, replaceAvoiding x r captured (freshenAlt captured alt).2)
        else (alt.1, replaceAvoiding x r captured alt.2)) =
          (alt.1, replaceAvoiding x r captured alt.2) := by
      split
      · next hx => rw [freshenAlt_of_forall_not_mem fun y hy => hkept y hy hx]
      · rfl
    rw [hsame, Prod.mk.injEq, ih]
    simp only [true_and]
    exact forall₂_congr fun y hy => (and_iff_right (hkept y hy)).symm

/-- With a captured name around an occurrence the two replacements differ in the binder of that
name, and without one they do the same. -/
theorem replaceAvoiding_eq_replace_iff {r t : Term α} :
    replaceAvoiding x r captured t = t.replace x r ↔ ∀ y ∈ captured, t.Apart x y := by
  induction t with
  | lit | builtin =>
    refine iff_of_true ?_ fun y _ => apart_of_not_mem_free List.not_mem_nil
    rw [replaceAvoiding, replace, substFree]
  | var a m z =>
    refine iff_of_true ?_ fun y _ around hx => ?_
    · rw [replaceAvoiding, replace, substFree]
    · cases hx
      exact List.not_mem_nil
  | app a f s ihf ihs =>
    rw [replaceAvoiding, replace_app, app.injEq, ihf, ihs]
    simp only [true_and, apart_app, forall_and]
  | lam a z b ih =>
    by_cases hz : z = x
    · subst hz
      rw [replaceAvoiding, if_pos rfl, replace_lam_self]
      exact iff_of_true rfl fun y _ => apart_of_not_mem_free fun hx => (mem_free_lam.1 hx).2 rfl
    rw [replaceAvoiding, if_neg hz, replace_lam_of_ne a r hz]
    by_cases hc : z ∈ captured ∧ x ∈ b.free
    · rw [if_pos hc]
      refine iff_of_false (fun heq => ?_) fun h => ?_
      · have hfresh := z.fresh_not_mem (captured ++ b.names)
        rw [(lam.inj heq).2.1] at hfresh
        exact hfresh (List.mem_append_left b.names hc.1)
      · exact ((apart_lam hz).1 (h z hc.1)).1 hc.2 List.mem_cons_self
    · rw [if_neg hc, lam.injEq, ih]
      simp only [true_and]
      refine forall₂_congr fun y hy => ?_
      have hkept : x ∈ b.free → y ∉ [z] := fun hx hyz => hc ⟨List.mem_singleton.1 hyz ▸ hy, hx⟩
      rw [apart_lam hz, and_iff_right hkept]
  | letIn a z e b ihe ihb =>
    by_cases hz : z = x
    · subst hz
      rw [replaceAvoiding, if_pos rfl, replace_letIn_self]
      exact iff_of_true rfl fun y _ => apart_of_not_mem_free fun hx => (mem_free_letIn.1 hx).2 rfl
    rw [replaceAvoiding, if_neg hz, replace_letIn_of_ne a r hz]
    by_cases hc : z ∈ captured ∧ (x ∈ e.free ∨ x ∈ b.free)
    · rw [if_pos hc]
      refine iff_of_false (fun heq => ?_) fun h => ?_
      · have hfresh := z.fresh_not_mem (captured ++ e.names ++ b.names)
        rw [(letIn.inj heq).2.1, List.append_assoc] at hfresh
        exact hfresh (List.mem_append_left _ hc.1)
      · exact ((apart_letIn hz).1 (h z hc.1)).1 hc.2 List.mem_cons_self
    · rw [if_neg hc, letIn.injEq, ihe, ihb]
      simp only [true_and, ← forall_and]
      refine forall₂_congr fun y hy => ?_
      have hkept : x ∈ e.free ∨ x ∈ b.free → y ∉ [z] :=
        fun hx hyz => hc ⟨List.mem_singleton.1 hyz ▸ hy, hx⟩
      rw [apart_letIn hz, and_iff_right hkept]
  | caseOf a s alts ihs ih =>
    rw [replaceAvoiding, replace_caseOf, caseOf.injEq, ihs, replaceAvoidingAlts_eq,
      List.map_inj_left]
    simp only [true_and, apart_caseOf]
    refine (and_congr_right' ?_).trans forall₂_and.symm
    rw [forall₂_comm]
    refine forall₂_congr fun alt halt => ?_
    by_cases hb : x ∈ alt.1.bound
    · rw [if_pos hb, if_pos hb]
      exact iff_of_true rfl fun y _ hn => absurd hb hn
    · rw [if_neg hb, if_neg hb, freshened_eq_iff hb (ih alt halt)]
      exact forall₂_congr fun y _ => ⟨fun h _ => h, fun h => h hb⟩
  | fix a b ih =>
    rw [replaceAvoiding, replace_fix, fix.injEq, ih]
    simp only [true_and, apart_fix]

/-- **Binders are renamed only if they have to be.** `replaceFresh` gives the same term as
`replace`, with the same binders, exactly if no free occurrence of `x` lies in the scope of a binder
of a name that is free in `r`. If `x` is not free at all, both give back the term itself. -/
theorem replaceFresh_eq_replace_iff (x : Name) (r t : Term α) :
    (t.replaceFresh x r = t.replace x r ↔ ∀ y ∈ r.free, t.Apart x y) ∧
      (x ∉ t.free → t.replaceFresh x r = t ∧ t.replace x r = t) := by
  refine ⟨replaceAvoiding_eq_replace_iff, fun h => ?_⟩
  have hsame : t.replaceFresh x r = t.replace x r :=
    replaceAvoiding_eq_replace_iff.2 fun y _ => apart_of_not_mem_free h
  have hself : t.replace x r = t := substFree_of_not_mem_free h
  exact ⟨hsame.trans hself, hself⟩

/-! ## Two replacements -/

/-- **Independent replacements commute.** The free names of `r` and `s` may be captured on the way:
both orders put the same terms in the same places. -/
theorem replace_comm {r s : Term α} (hxy : x ≠ y) (hr : y ∉ r.free) (hs : x ∉ s.free) (t : Term α) :
    (t.replace x r).replace y s = (t.replace y s).replace x r := by
  have hrs : r.replace y s = r := substFree_of_not_mem_free hr
  have hsr : s.replace x r = s := substFree_of_not_mem_free hs
  induction t with
  | lit | builtin => rfl
  | var a m z =>
    rw [replace_var, replace_var]
    by_cases hzx : z = x
    · rw [if_pos hzx, if_neg (hzx ▸ hxy), replace_var, if_pos hzx, hrs]
    by_cases hzy : z = y
    · rw [if_neg hzx, if_pos hzy, replace_var, if_pos hzy, hsr]
    · rw [if_neg hzx, if_neg hzy, replace_var, if_neg hzy, replace_var, if_neg hzx]
  | app a f g ihf ihg => simp only [replace_app, ihf, ihg]
  | lam a z b ih =>
    by_cases hzx : z = x
    · subst hzx
      rw [replace_lam_self, replace_lam_of_ne a s hxy, replace_lam_self]
    by_cases hzy : z = y
    · subst hzy
      rw [replace_lam_self, replace_lam_of_ne a r hzx, replace_lam_self]
    · rw [replace_lam_of_ne a r hzx, replace_lam_of_ne a s hzy, replace_lam_of_ne a s hzy,
        replace_lam_of_ne a r hzx, ih]
  | letIn a z e b ihe ihb =>
    by_cases hzx : z = x
    · subst hzx
      rw [replace_letIn_self, replace_letIn_of_ne a s hxy, replace_letIn_self]
    by_cases hzy : z = y
    · subst hzy
      rw [replace_letIn_self, replace_letIn_of_ne a r hzx, replace_letIn_self]
    · rw [replace_letIn_of_ne a r hzx, replace_letIn_of_ne a s hzy, replace_letIn_of_ne a s hzy,
        replace_letIn_of_ne a r hzx, ihe, ihb]
  | caseOf a u alts ihu ih =>
    simp only [replace_caseOf, ihu, List.map_map]
    congr 1
    refine List.map_congr_left fun alt halt => congrArg (Prod.mk alt.1) ?_
    by_cases hx : x ∈ alt.1.bound
    · simp only [if_pos hx]
    · by_cases hy : y ∈ alt.1.bound
      · simp only [if_pos hy]
      · simp only [if_neg hx, if_neg hy, ih alt halt]
  | fix a b ih => simp only [replace_fix, ih]

/-- `\z -> x y`. -/
def applied : Term Unit := .lam () ⟨"z"⟩ (.app () (.var () false ⟨"x"⟩) (.var () false ⟨"y"⟩))

/-- `\y -> z y`. -/
def calling : Term Unit := .lam () ⟨"y"⟩ (.app () (.var () false ⟨"z"⟩) (.var () false ⟨"y"⟩))

/-- `let x = z in x`. -/
def shared : Term Unit := .letIn () ⟨"x"⟩ (.var () false ⟨"z"⟩) (.var () false ⟨"x"⟩)

/-- Both terms bring a `z` that gets captured, and each binds the name that the other replaces. -/
theorem replace_comm_captured :
    (⟨"x"⟩ : Name) ≠ ⟨"y"⟩ ∧ ⟨"y"⟩ ∉ calling.free ∧ ⟨"x"⟩ ∉ shared.free ∧
      ((applied.replace ⟨"x"⟩ calling).replace ⟨"y"⟩ shared).text =
        "\\z -> (\\y -> z y) (let x = z in x)" ∧
      (applied.replace ⟨"x"⟩ calling).replace ⟨"y"⟩ shared =
        (applied.replace ⟨"y"⟩ shared).replace ⟨"x"⟩ calling := by
  have hne : (⟨"x"⟩ : Name) ≠ ⟨"y"⟩ := by decide
  have hr : ⟨"y"⟩ ∉ calling.free := by decide
  have hs : ⟨"x"⟩ ∉ shared.free := by decide
  exact ⟨hne, hr, hs, by decide +kernel, replace_comm hne hr hs applied⟩

end Letrec.Term
