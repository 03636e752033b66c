import Letrec.Term.Subst

/-!
# Replacement without capture

`replaceFresh` is `replace` for terms whose free names may meet binders on the way: a binder that
would capture one of them is renamed first, to the least name `x'n` that is not in use around it.
Binders that capture nothing keep their names.
-/

namespace Letrec

/-- The name `x'n`. -/
def Name.primed (x : Name) (n : Nat) : Name := ⟨x.text ++ "\x27" ++ toString n⟩

/-- The first of `x'1`, `x'2`, … that is not taken. One more candidate than there are taken names is
enough. -/
def Name.fresh (x : Name) (taken : List Name) : Name :=
  let candidates := (List.range (taken.length + 1)).map fun n => x.primed (n + 1)
  (candidates.find? (· ∉ taken)).getD (x.primed (taken.length + 1))

namespace Term

variable {α : Type}

/-- Renames the pattern variable `x` to a name that is fresh for the whole alternative and not among
`captured`. -/
def freshenVar (captured : List Name) (alt : Alternative α) (x : Name) : Alternative α :=
  let new := x.fresh (captured ++ alt.1.bound ++ alt.2.names)
  (alt.1.renameBinder x new, alt.2.rename x new)

/-- Renames the pattern variables that are among `captured`, one after another. -/
def freshenAlt (captured : List Name) (alt : Alternative α) : Alternative α :=
  (alt.1.bound.filter (· ∈ captured)).foldl (freshenVar captured) alt

@[simp] theorem size_freshenVar (captured : List Name) (alt : Alternative α) (x : Name) :
    (freshenVar captured alt x).2.size = alt.2.size := by
  simp [freshenVar]

@[simp] theorem size_freshenAlt (captured : List Name) (alt : Alternative α) :
    (freshenAlt captured alt).2.size = alt.2.size := by
  unfold freshenAlt
  generalize alt.1.bound.filter (· ∈ captured) = clashes
  induction clashes generalizing alt with
  | nil => rfl
  | cons x clashes ih => rw [List.foldl_cons, ih, size_freshenVar]

mutual

/-- Puts `r` in the place of every free occurrence of `x`, and renames the binders around them that
are among `captured`. -/
def replaceAvoiding (x : Name) (r : Term α) (captured : List Name) : Term α → Term α
  | lit a v => lit a v
  | var a m y => if y = x then r else var a m y
  | builtin a v => builtin a v
  | app a f s => app a (replaceAvoiding x r captured f) (replaceAvoiding x r captured s)
  | lam a y b =>
    if y = x then lam a y b
    else if y ∈ captured ∧ x ∈ b.free then
      let new := y.fresh (captured ++ b.names)
      lam a new (replaceAvoiding x r captured (b.rename y new))
    else lam a y (replaceAvoiding x r captured b)
  | letIn a y e b =>
    if y = x then letIn a y e b
    else if y ∈ captured ∧ (x ∈ e.free ∨ x ∈ b.free) then
      let new := y.fresh (captured ++ e.names ++ b.names)
      letIn a new (replaceAvoiding x r captured (e.rename y new))
        (replaceAvoiding x r captured (b.rename y new))
    else letIn a y (replaceAvoiding x r captured e) (replaceAvoiding x r captured b)
  | caseOf a s alts =>
    caseOf a (replaceAvoiding x r captured s) (replaceAvoidingAlts x r captured alts)
  | fix a b => fix a (replaceAvoiding x r captured b)
termination_by t => t.size
decreasing_by
  all_goals simp only [size, size_rename]
  all_goals try omega
  -- what is left are the alternatives of a case, which are lighter by its scrutinee
  have := size_pos s
  omega

def replaceAvoidingAlts (x : Name) (r : Term α) (captured : List Name) :
    List (Alternative α) → List (Alternative α)
  | [] => []
  | (p, t) :: alts =>
    (if x ∈ p.bound then (p, t)
    else if x ∈ t.free then
      let alt := freshenAlt captured (p, t)
      (alt.1, replaceAvoiding x r captured alt.2)
    else (p, replaceAvoiding x r captured t)) :: replaceAvoidingAlts x r captured alts
termination_by alts => sizeAlts alts + 1
decreasing_by
  all_goals simp only [sizeAlts, size_freshenAlt]
  all_goals have := size_pos t
  all_goals omega

end

theorem replaceAvoidingAlts_eq (x : Name) (r : Term α) (captured : List Name)
    (alts : List (Alternative α)) :
    replaceAvoidingAlts x r captured alts = alts.map fun alt =>
      if x ∈ alt.1.bound then alt
      else if x ∈ alt.2.free then
        ((freshenAlt captured alt).1, replaceAvoiding x r captured (freshenAlt captured alt).2)
      else (alt.1, replaceAvoiding x r captured alt.2) := by
  induction alts with
  | nil => simp [replaceAvoidingAlts]
  | cons alt alts ih =>
    obtain ⟨p, t⟩ := alt
    rw [replaceAvoidingAlts, ih, List.map_cons]

/-- Puts `r` in the place of every free occurrence of `x`; no free name of `r` gets bound. -/
def replaceFresh (t : Term α) (x : Name) (r : Term α) : Term α := replaceAvoiding x r r.free t

end Term

end Letrec
