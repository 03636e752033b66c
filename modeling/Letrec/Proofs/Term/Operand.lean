import Letrec.Proofs.Term.Path
import Letrec.Proofs.Text.Sign
import Letrec.Term.Text

/-!
# The text of operands

A `Context` is a term with a hole. Every node of a term stands in one (`Term.at_iff_context`), and
the text of an application stands in the text of the whole, between what the context writes before
it and after it (`Context.exists_text_plug`).

So every application is written as its function and its argument with a space in between. A literal
operand is put in parentheses if it is negative. Without parentheses it reads as the rest of a
subtraction if there is a minus sign in front of it, which is so for stray signs only
(`Term.operand_sign`).
-/

namespace Letrec

/-! ## Contexts -/

/-- A term with a hole. -/
inductive Context (α : Type) where
  | hole
  | func (a : α) (C : Context α) (s : Term α)
  | arg (a : α) (f : Term α) (C : Context α)
  | lam (a : α) (x : Name) (C : Context α)
  | bound (a : α) (x : Name) (C : Context α) (b : Term α)
  | body (a : α) (x : Name) (e : Term α) (C : Context α)
  | scrutinee (a : α) (C : Context α) (alts : List (Alternative α))
  | alt (a : α) (s : Term α) (before : List (Alternative α)) (p : Pattern) (C : Context α)
      (after : List (Alternative α))
  | fix (a : α) (C : Context α)

variable {α : Type} {t u : Term α} {way : Path}

namespace Context

/-- The term with another one in the place of the hole. -/
def plug : Context α → Term α → Term α
  | hole, u => u
  | func a C s, u => .app a (C.plug u) s
  | arg a f C, u => .app a f (C.plug u)
  | lam a x C, u => .lam a x (C.plug u)
  | bound a x C b, u => .letIn a x (C.plug u) b
  | body a x e C, u => .letIn a x e (C.plug u)
  | scrutinee a C alts, u => .caseOf a (C.plug u) alts
  | alt a s before p C after, u => .caseOf a s (before ++ (p, C.plug u) :: after)
  | fix a C, u => .fix a (C.plug u)

/-- The way to the hole. -/
def path : Context α → Path
  | hole => []
  | func _ C _ => .func :: C.path
  | arg _ _ C => .arg :: C.path
  | lam _ x C => .lam x :: C.path
  | bound _ x C _ => .bound x :: C.path
  | body _ x _ C => .body x :: C.path
  | scrutinee _ C _ => .scrutinee :: C.path
  | alt _ _ before p C _ => .alt before.length p :: C.path
  | fix _ C => .fix :: C.path

theorem at_plug (C : Context α) (u : Term α) : (C.plug u).At C.path u := by
  induction C with
  | hole => exact .root
  | func _ _ _ ih | bound _ _ _ _ ih | lam _ _ _ ih | fix _ _ ih | scrutinee _ _ _ ih =>
    exact .step List.mem_cons_self ih
  | arg _ _ _ ih | body _ _ _ _ ih => exact .step (List.mem_cons_of_mem _ List.mem_cons_self) ih
  | alt a s before p C after ih =>
    refine .step (List.mem_cons_of_mem _ (List.mem_mapIdx.2 ⟨before.length, ?_, ?_⟩)) ih
    · simp
    · simp

end Context

/-- Every node of a term stands in a context. -/
theorem Term.At.exists_context (h : t.At way u) :
    ∃ C : Context α, C.path = way ∧ C.plug u = t := by
  induction h with
  | root => exact ⟨.hole, rfl, rfl⟩
  | @step t u v s way hs _ ih =>
    obtain ⟨C, rfl, rfl⟩ := ih
    cases t with
    | lit | var | builtin => cases hs
    | app a f r =>
      rcases List.mem_pair.1 hs with hs | hs
      · obtain ⟨rfl, rfl⟩ := Prod.mk.inj hs
        exact ⟨.func a C r, rfl, rfl⟩
      · obtain ⟨rfl, rfl⟩ := Prod.mk.inj hs
        exact ⟨.arg a f C, rfl, rfl⟩
    | lam a x b =>
      obtain ⟨rfl, rfl⟩ := Prod.mk.inj (List.mem_singleton.1 hs)
      exact ⟨.lam a x C, rfl, rfl⟩
    | letIn a x e b =>
      rcases List.mem_pair.1 hs with hs | hs
      · obtain ⟨rfl, rfl⟩ := Prod.mk.inj hs
        exact ⟨.bound a x C b, rfl, rfl⟩
      · obtain ⟨rfl, rfl⟩ := Prod.mk.inj hs
        exact ⟨.body a x e C, rfl, rfl⟩
    | caseOf a r alts =>
      rcases List.mem_cons.1 hs with hs | hs
      · obtain ⟨rfl, rfl⟩ := Prod.mk.inj hs
        exact ⟨.scrutinee a C alts, rfl, rfl⟩
      · obtain ⟨i, hi, heq⟩ := List.mem_mapIdx.1 hs
        obtain ⟨rfl, halt⟩ := Prod.mk.inj heq
        refine ⟨.alt a r (alts.take i) alts[i].1 C (alts.drop (i + 1)), ?_, ?_⟩
        · rw [Context.path, List.length_take_of_le (Nat.le_of_lt hi)]
        · rw [Context.plug, ← halt, ← List.drop_eq_getElem_cons hi, List.take_append_drop]
    | fix a b =>
      obtain ⟨rfl, rfl⟩ := Prod.mk.inj (List.mem_singleton.1 hs)
      exact ⟨.fix a C, rfl, rfl⟩

theorem Term.at_iff_context : t.At way u ↔ ∃ C : Context α, C.path = way ∧ C.plug u = t := by
  refine ⟨At.exists_context, ?_⟩
  rintro ⟨C, rfl, rfl⟩
  exact C.at_plug u

/-! ## What stands around an application -/

/-- Between the texts before and after it, an entry of a separated list is written as it is. -/
theorem exists_intercalate (sep : String) (ts us : List String) :
    ∃ before after, ∀ t, sep.intercalate (ts ++ t :: us) = before ++ t ++ after := by
  induction ts with
  | nil =>
    cases us with
    | nil => exact ⟨"", "", fun t => by simp⟩
    | cons u us =>
      refine ⟨"", sep ++ sep.intercalate (u :: us), fun t => ?_⟩
      rw [List.nil_append, String.intercalate_cons_cons, String.empty_append, String.append_assoc]
  | cons s ts ih =>
    obtain ⟨before, after, h⟩ := ih
    refine ⟨s ++ sep ++ before, after, fun t => ?_⟩
    rw [List.cons_append, String.intercalate_cons_of_ne_nil (by simp), h]
    simp only [String.append_assoc]

theorem exists_parenthesized (parens : Bool) (before after : String) :
    ∃ before' after', ∀ t, parenthesized parens (before ++ t ++ after) = before' ++ t ++ after' := by
  cases parens with
  | false => exact ⟨before, after, fun _ => rfl⟩
  | true =>
    refine ⟨"(" ++ before, after ++ ")", fun t => ?_⟩
    simp only [parenthesized, if_true, String.append_assoc]

namespace Term

/-- A term as it is written in the place of a function. -/
def asFunc (f : Term α) : String := parenthesized f.parensAsFunc f.text

/-- A term as it is written in the place of an argument. -/
def asArg (s : Term α) : String := parenthesized s.parensAsArg s.text

theorem text_app (a : α) (f s : Term α) : (app a f s).text = f.asFunc ++ " " ++ s.asArg := rfl

end Term

namespace Context

theorem isLeaf_plug (C : Context α) (a : α) (f s : Term α) :
    (C.plug (.app a f s)).isLeaf = false := by
  cases C <;> rfl

theorem parensAsArg_plug (C : Context α) (a : α) (f s : Term α) :
    (C.plug (.app a f s)).parensAsArg = true := by
  cases C <;> rfl

/-- The parentheses around a term with an application in its hole do not depend on that one. -/
theorem exists_parensAsFunc_plug (C : Context α) :
    ∃ parens, ∀ a f s, (C.plug (.app a f s)).parensAsFunc = parens := by
  cases C <;> exact ⟨_, fun _ _ _ => rfl⟩

/-- An application is written between what the context writes before and after it. -/
theorem exists_text_plug (C : Context α) :
    ∃ before after, ∀ a f s,
      (C.plug (.app a f s)).text = before ++ (Term.app a f s).text ++ after := by
  induction C with
  | hole => exact ⟨"", "", fun a f s => by rw [plug, String.empty_append, String.append_empty]⟩
  | func b C r ih =>
    obtain ⟨before, after, h⟩ := ih
    obtain ⟨parens, hparens⟩ := C.exists_parensAsFunc_plug
    obtain ⟨before, after, h'⟩ := exists_parenthesized parens before after
    refine ⟨before, after ++ " " ++ r.asArg, fun a f s => ?_⟩
    rw [plug, Term.text_app, Term.asFunc, hparens, h, h']
    simp only [String.append_assoc]
  | arg b r C ih =>
    obtain ⟨before, after, h⟩ := ih
    obtain ⟨before, after, h'⟩ := exists_parenthesized true before after
    refine ⟨r.asFunc ++ " " ++ before, after, fun a f s => ?_⟩
    rw [plug, Term.text_app, Term.asArg, parensAsArg_plug, h, h']
    simp only [String.append_assoc]
  | lam b x C ih =>
    obtain ⟨before, after, h⟩ := ih
    refine ⟨"\\" ++ x.text ++ " -> " ++ before, after, fun a f s => ?_⟩
    show "\\" ++ x.text ++ " -> " ++ (C.plug (.app a f s)).text = _
    rw [h]
    simp only [String.append_assoc]
  | bound b x C r ih =>
    obtain ⟨before, after, h⟩ := ih
    refine ⟨"let " ++ x.text ++ " = " ++ before, after ++ " in " ++ r.text, fun a f s => ?_⟩
    show "let " ++ x.text ++ " = " ++ (C.plug (.app a f s)).text ++ " in " ++ r.text = _
    rw [h]
    simp only [String.append_assoc]
  | body b x e C ih =>
    obtain ⟨before, after, h⟩ := ih
    refine ⟨"let " ++ x.text ++ " = " ++ e.text ++ " in " ++ before, after, fun a f s => ?_⟩
    show "let " ++ x.text ++ " = " ++ e.text ++ " in " ++ (C.plug (.app a f s)).text = _
    rw [h]
    simp only [String.append_assoc]
  | scrutinee b C alts ih =>
    obtain ⟨before, after, h⟩ := ih
    let close := if alts.isEmpty then "\x7d" else " \x7d"
    refine ⟨"case " ++ before,
      after ++ " of \x7b" ++ ";".intercalate (Term.textAlts alts) ++ close, fun a f s => ?_⟩
    show "case " ++ (C.plug (.app a f s)).text ++ " of \x7b" ++
      ";".intercalate (Term.textAlts alts) ++ close = _
    rw [h]
    simp only [String.append_assoc]
  | alt b r front p C back ih =>
    obtain ⟨before, after, h⟩ := ih
    obtain ⟨before', after', h'⟩ := exists_intercalate ";" (Term.textAlts front) (Term.textAlts back)
    refine ⟨"case " ++ r.text ++ " of \x7b" ++ before' ++ " " ++ p.text ++ " -> " ++ before,
      after ++ after' ++ " \x7d", fun a f s => ?_⟩
    have halts : Term.textAlts (front ++ (p, C.plug (.app a f s)) :: back) = Term.textAlts front ++
        (" " ++ p.text ++ " -> " ++ (C.plug (.app a f s)).text) :: Term.textAlts back := by
      simp only [Term.textAlts_eq, List.map_append, List.map_cons]
    have hclose : (if (front ++ (p, C.plug (.app a f s)) :: back).isEmpty then "\x7d" else " \x7d") =
        " \x7d" := by simp
    show "case " ++ r.text ++ " of \x7b" ++ ";".intercalate (Term.textAlts _) ++ ite _ _ _ = _
    rw [hclose, halts, h', h]
    simp only [String.append_assoc]
  | fix b C ih =>
    obtain ⟨before, after, h⟩ := ih
    obtain ⟨before, after, h'⟩ := exists_parenthesized true before after
    refine ⟨"fix " ++ before, after, fun a f s => ?_⟩
    show "fix " ++ parenthesized (!(C.plug (.app a f s)).isLeaf) (C.plug (.app a f s)).text = _
    rw [isLeaf_plug, h, Bool.not_false, h']
    simp only [String.append_assoc]

end Context

/-! ## Literal operands -/

namespace Term

theorem not_leadsWithMinus_parens (s : String) : ¬ LeadsWithMinus (parenthesized true s) := by
  have hs : (parenthesized true s).toList = '(' :: (s ++ ")").toList := by
    simp [parenthesized]
  rw [leadsWithMinus_iff_of_toList_eq hs]
  decide

/-- A literal that is put in parentheses if it is negative has a minus sign in front of it if that is
a stray one. -/
theorem leadsWithMinus_parenthesized_iff (v : Literal) :
    LeadsWithMinus (parenthesized v.isNegative v.text) ↔ v.StraySign := by
  cases hv : v.isNegative with
  | true =>
    refine iff_of_false (not_leadsWithMinus_parens v.text) fun h => ?_
    rw [h.isNegative_eq_false] at hv
    exact Bool.false_ne_true hv
  | false =>
    show LeadsWithMinus v.text ↔ v.StraySign
    rw [v.leadsWithMinus_text_iff, hv, or_iff_right Bool.false_ne_true]

/-- **Which operands read as the rest of a subtraction.** A literal is written with a minus sign in
front if it is negative and if it is a fraction with a stray sign, and those are not negative. In
every term, an application is written as its function and its argument with a space in between. Of
the literals that stand there, just the ones with a stray sign show a minus sign in front. -/
theorem operand_sign :
    (∀ v : Literal, (LeadsWithMinus v.text ↔ v.isNegative = true ∨ v.StraySign) ∧
      (v.StraySign → v.isNegative = false)) ∧
    (∀ (a : α) (v : Literal), (LeadsWithMinus (lit a v).asFunc ↔ v.StraySign) ∧
      (LeadsWithMinus (lit a v).asArg ↔ v.StraySign)) ∧
    ∀ (t : Term α) (way : Path) (a : α) (f s : Term α), t.At way (app a f s) →
      ∃ C : Context α, C.path = way ∧ C.plug (app a f s) = t ∧
        ∃ before after, ∀ a f s,
          (C.plug (app a f s)).text = before ++ (f.asFunc ++ " " ++ s.asArg) ++ after := by
  refine ⟨fun v => ⟨v.leadsWithMinus_text_iff, fun h => h.isNegative_eq_false⟩, fun a v => ?_, ?_⟩
  · have hfunc : (lit a v).asFunc = parenthesized v.isNegative v.text := by
      simp [asFunc, parensAsFunc, isNegativeNumber, isLeaf, text]
    have harg : (lit a v).asArg = parenthesized v.isNegative v.text := by
      simp [asArg, parensAsArg, isNegativeNumber, isLeaf, text]
    rw [hfunc, harg]
    exact ⟨leadsWithMinus_parenthesized_iff v, leadsWithMinus_parenthesized_iff v⟩
  · intro t way a f s h
    obtain ⟨C, hpath, hplug⟩ := h.exists_context
    exact ⟨C, hpath, hplug, C.exists_text_plug⟩

/-- `\x -> f (-1) z`, with a zero over a negative number for `z`. -/
def strayZero : Term Unit :=
  .lam () ⟨"x"⟩ (.app () (.app () (.var () false ⟨"f"⟩) (.lit () (.integer (-1))))
    (.lit () (.rational ⟨0, -3⟩)))

/-- The one sign is in parentheses, the other is not. -/
theorem operand_sign_strayZero :
    ∃ f s : Term Unit, strayZero.At [.lam ⟨"x"⟩] (app () f s) ∧
      (∃ C : Context Unit, C.path = [.lam ⟨"x"⟩] ∧ C.plug (app () f s) = strayZero) ∧
      ¬ LeadsWithMinus (lit () (.integer (-1))).asArg ∧ LeadsWithMinus s.asArg ∧
      strayZero.text = "\\x -> f (-1) -0.0" := by
  obtain ⟨-, hlit, hnode⟩ := operand_sign (α := Unit)
  have hat : strayZero.At [.lam ⟨"x"⟩] (app () (app () (var () false ⟨"f"⟩) (lit () (.integer (-1))))
      (lit () (.rational ⟨0, -3⟩))) := .step List.mem_cons_self .root
  obtain ⟨C, hpath, hplug, -⟩ := hnode _ _ _ _ _ hat
  exact ⟨_, _, hat, ⟨C, hpath, hplug⟩, fun h => (hlit () (.integer (-1))).2.1 h,
    (hlit () (.rational ⟨0, -3⟩)).2.2 (by decide), by decide +kernel⟩

/-- A zero over a negative number and a negative number over zero are written with a minus sign in
front, and without parentheses as an argument, although neither is negative. -/
theorem not_parenthesized_straySign :
    (¬ ∀ v : Literal, v.isNegative = true ↔ LeadsWithMinus v.text) ∧
      ∀ v ∈ [(Literal.rational ⟨0, -3⟩, "-0.0"), (.rational ⟨-1, 0⟩, "-inf")],
        v.1.isNegative = false ∧ LeadsWithMinus v.1.text ∧
          (app () (var () false ⟨"f"⟩) (lit () v.1)).text = "f " ++ v.2 := by
  refine ⟨fun h => ?_, by decide +kernel⟩
  have hzero : LeadsWithMinus (Literal.rational ⟨0, -3⟩).text := by decide +kernel
  exact absurd ((h _).2 hzero) (by decide)

end Term

end Letrec
