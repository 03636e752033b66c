import Letrec.Proofs.Text.Literal

/-!
# Signs in the texts of numbers

A text with a minus sign in front reads as the rest of a subtraction when an operand is written to
its left. For most literals this is a matter of being negative (`Literal.leadsWithMinus_text_iff`).
A floating-point value is written with its sign, and the sign of the nearest value is given along,
so no rounding loses it: a fraction that underflows is a negative zero, one that overflows a
negative infinity. The sign comes from `Fraction.isNegative` except for a zero numerator or
denominator. There `Fraction.StraySign` describes the fractions that have a sign in their text
without being negative: zero over a negative number, and a negative number over zero.
-/

namespace Letrec

/-- Whether there is a minus sign in front of the text. -/
def LeadsWithMinus (s : String) : Prop := s.toList.head? = some '-'

instance (s : String) : Decidable (LeadsWithMinus s) := inferInstanceAs (Decidable (_ = _))

theorem leadsWithMinus_iff_of_toList_eq {s : String} {c : Char} {cs : List Char}
    (hs : s.toList = c :: cs) : LeadsWithMinus s ↔ c = '-' := by
  rw [LeadsWithMinus, hs, List.head?_cons, Option.some.injEq]

theorem leadsWithMinus_minus (s : String) : LeadsWithMinus ("-" ++ s) :=
  (leadsWithMinus_iff_of_toList_eq String.toList_append).2 rfl

/-! ## Digits -/

theorem ne_minus_of_isDigit {c : Char} (hc : c.isDigit = true) : c ≠ '-' := by
  rintro rfl
  exact absurd hc (by decide)

/-- A natural number has no sign, whatever is written after it. -/
theorem not_leadsWithMinus_toString (n : Nat) (s : String) : ¬ LeadsWithMinus (toString n ++ s) := by
  obtain ⟨c, cs, htext, hc, -⟩ := exists_digits n
  have happend : (toString n ++ s).toList = c :: (cs ++ s.toList) := by
    rw [String.toList_append, htext, List.cons_append]
  rw [leadsWithMinus_iff_of_toList_eq happend]
  exact ne_minus_of_isDigit hc

theorem leadsWithMinus_toString_int_iff (n : Int) : LeadsWithMinus (toString n) ↔ n < 0 := by
  cases n with
  | ofNat n =>
    have htext : toString (Int.ofNat n) = toString n ++ "" := (String.append_empty).symm
    rw [htext, iff_false_left (not_leadsWithMinus_toString n "")]
    exact Int.not_lt.2 (Int.natCast_nonneg n)
  | negSucc n =>
    have htext : toString (Int.negSucc n) = "-" ++ toString (n + 1) := rfl
    refine iff_of_true ?_ (Int.negSucc_lt_zero n)
    rw [htext]
    exact leadsWithMinus_minus _

/-- A decimal begins with a digit, be it that of a leading zero. -/
theorem Decimal.not_leadsWithMinus_text (d : Decimal) : ¬ LeadsWithMinus d.text := by
  obtain ⟨c, cs, hdigits⟩ : ∃ c cs, Nat.toDigits 10 d.digits = c :: cs :=
    List.exists_cons_of_ne_nil Nat.toDigits_ne_nil
  have hne : c ≠ '-' := ne_minus_of_isDigit
    (Nat.isDigit_of_mem_toDigits (by decide) (by decide) (hdigits ▸ List.mem_cons_self))
  unfold text
  rw [hdigits]
  dsimp only
  split_ifs with hwhole hpoint
  · rwa [List.cons_append, leadsWithMinus_iff_of_toList_eq String.toList_ofList]
  · obtain ⟨n, hn⟩ : ∃ n, ((c :: cs).length + d.exponent).toNat = n + 1 :=
      Nat.exists_eq_succ_of_ne_zero (by omega)
    rwa [hn, List.take_succ_cons, List.cons_append,
      leadsWithMinus_iff_of_toList_eq String.toList_ofList]
  · rw [leadsWithMinus_iff_of_toList_eq String.toList_ofList]
    decide

/-! ## Floating-point values -/

namespace Binary64

theorem leadsWithMinus_signed_iff {negative : Bool} {digits : String}
    (h : ¬ LeadsWithMinus digits) : LeadsWithMinus (signed negative digits) ↔ negative = true := by
  cases negative with
  | false => exact iff_of_false h Bool.false_ne_true
  | true =>
    exact iff_of_true (leadsWithMinus_minus digits) rfl

/-- Every value is written with its sign, zeros and infinities included. -/
theorem leadsWithMinus_text_iff (x : Binary64) : LeadsWithMinus x.text ↔ x.negative = true := by
  unfold text
  split
  · exact leadsWithMinus_signed_iff (by decide)
  · exact leadsWithMinus_signed_iff (not_leadsWithMinus_toString _ ".0")
  · exact leadsWithMinus_signed_iff (Decimal.not_leadsWithMinus_text _)

/-- Rounding keeps the sign, also where it gives zero or an infinity. -/
theorem negative_nearest (negative : Bool) (num den : Nat) :
    (nearest negative num den).negative = negative := by
  unfold nearest
  split_ifs
  · rfl
  · dsimp only
    split_ifs <;> rfl

end Binary64

/-! ## Fractions -/

namespace Fraction

/-- Zero over a negative number, or a negative number over zero. -/
def StraySign (r : Fraction) : Prop := (r.num = 0 ∧ r.den < 0) ∨ (r.num < 0 ∧ r.den = 0)

instance (r : Fraction) : Decidable r.StraySign := inferInstanceAs (Decidable (_ ∨ _))

theorem isNegative_iff {r : Fraction} :
    r.isNegative = true ↔ (r.num < 0 ∧ 0 < r.den) ∨ (0 < r.num ∧ r.den < 0) := by
  simp [isNegative]

theorem leadsWithMinus_text_iff (r : Fraction) :
    LeadsWithMinus r.text ↔ r.isNegative = true ∨ r.StraySign := by
  unfold text toBinary64?
  split_ifs with hden hnum hnum
  · -- there is no value, and the text is `0/0`
    have htext : toString r.num ++ "/" ++ toString r.den = "0/0" := by
      rw [hden, hnum]
      decide
    rw [isNegative_iff, StraySign]
    refine iff_of_false ?_ (by omega)
    dsimp only
    rw [htext]
    decide
  · rw [isNegative_iff, StraySign]
    dsimp only
    rw [Binary64.leadsWithMinus_text_iff, Binary64.negative, decide_eq_true_iff]
    omega
  · rw [isNegative_iff, StraySign]
    dsimp only
    rw [Binary64.leadsWithMinus_text_iff, Binary64.negative_nearest, decide_eq_true_iff]
    omega
  · dsimp only
    rw [Binary64.leadsWithMinus_text_iff, Binary64.negative_nearest, StraySign]
    refine (or_iff_left ?_).symm
    omega

end Fraction

/-! ## Literals -/

namespace Literal

/-- A rational with a sign in its text that is not negative. -/
def StraySign : Literal → Prop
  | rational r => r.StraySign
  | integer _ | string _ | char _ => False

instance : DecidablePred StraySign
  | rational r => inferInstanceAs (Decidable r.StraySign)
  | integer _ | string _ | char _ => isFalse id

/-- A literal with a stray sign is not negative. -/
theorem StraySign.isNegative_eq_false {v : Literal} (h : v.StraySign) : v.isNegative = false := by
  cases v with
  | rational r =>
    rw [isNegative, Bool.eq_false_iff, ne_eq, Fraction.isNegative_iff]
    simp only [StraySign, Fraction.StraySign] at h
    omega
  | integer | string | char => exact h.elim

/-- Which literals are written with a minus sign in front. -/
theorem leadsWithMinus_text_iff (v : Literal) :
    LeadsWithMinus v.text ↔ v.isNegative = true ∨ v.StraySign := by
  cases v with
  | integer n =>
    rw [text, leadsWithMinus_toString_int_iff, isNegative, decide_eq_true_iff]
    exact (or_iff_left id).symm
  | rational r => exact r.leadsWithMinus_text_iff
  | string s =>
    refine iff_of_false ?_ (by simp [isNegative, StraySign])
    rw [text, Quoted.string, leadsWithMinus_iff_of_toList_eq String.toList_ofList]
    decide
  | char c =>
    refine iff_of_false ?_ (by simp [isNegative, StraySign])
    rw [text, Quoted.char, leadsWithMinus_iff_of_toList_eq String.toList_ofList]
    decide

end Literal

end Letrec
