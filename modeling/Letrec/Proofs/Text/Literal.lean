import Letrec.Literal
import Letrec.Proofs.Text.Reader

/-!
# Reading literals

Integers, strings and characters are read back from their texts (`Literal.reads_text`). For quoted
text this is a matter of single characters: each is written so that one can see where it ends,
and none begins like the mark that closes the text (`Quoted.reads_encodeChar`). Fractions are left
out, since several of them have one text.
-/

namespace Letrec

open Reader

variable {rest : List Char}

/-! ## Digits -/

/-- The value of a hexadecimal digit. -/
def hexValue (c : Char) : Nat :=
  if c.isDigit then c.toNat - '0'.toNat else c.toNat - 'a'.toNat + 10

/-- The value of a sequence of hexadecimal digits. -/
def ofHex (cs : List Char) : Nat := cs.foldl (fun n c => 16 * n + hexValue c) 0

/-- A hexadecimal digit, the letters in lower case. -/
def isHexDigit (c : Char) : Bool := c.isDigit || 'a' ≤ c && c ≤ 'f'

theorem hexValue_digitChar : ∀ d < 16, hexValue d.digitChar = d := by decide

theorem isHexDigit_digitChar : ∀ d < 16, isHexDigit d.digitChar = true := by decide

theorem ofHex_append (cs : List Char) (c : Char) :
    ofHex (cs ++ [c]) = 16 * ofHex cs + hexValue c := by
  simp [ofHex]

theorem ofHex_toDigits (n : Nat) : ofHex (Nat.toDigits 16 n) = n := by
  induction n using Nat.strongRecOn with
  | ind n ih =>
    rw [Nat.toDigits_eq_if (by decide)]
    split
    · next hn =>
      have hvalue := hexValue_digitChar n hn
      simp [ofHex, hvalue]
    · next hn =>
      have hvalue := hexValue_digitChar (n % 16) (Nat.mod_lt n (by decide))
      rw [ofHex_append, ih (n / 16) (by omega), hvalue]
      omega

theorem isHexDigit_of_mem_toDigits {n : Nat} {c : Char} (hc : c ∈ Nat.toDigits 16 n) :
    isHexDigit c = true := by
  induction n using Nat.strongRecOn with
  | ind n ih =>
    rw [Nat.toDigits_eq_if (by decide)] at hc
    split at hc
    · next hn =>
      obtain rfl := List.mem_singleton.1 hc
      exact isHexDigit_digitChar n hn
    · next hn =>
      rcases List.mem_append.1 hc with hc | hc
      · exact ih (n / 16) (by omega) hc
      · obtain rfl := List.mem_singleton.1 hc
        exact isHexDigit_digitChar (n % 16) (Nat.mod_lt n (by decide))

/-! ## Integers -/

/-- Takes a natural number. -/
def naturalReader : Reader Nat := do
  let c ← oneOf Char.isDigit
  let cs ← takeWhile Char.isDigit
  return Nat.ofDigitChars 10 (c :: cs) 0

theorem exists_digits (n : Nat) : ∃ c cs, (toString n).toList = c :: cs ∧ c.isDigit = true ∧
    (∀ d ∈ cs, d.isDigit = true) ∧ Nat.ofDigitChars 10 (c :: cs) 0 = n := by
  have hvalue : Nat.ofDigitChars 10 (Nat.toDigits 10 n) 0 = n := Nat.ofDigitChars_ten_toDigits
  have hdigits : ∀ c ∈ Nat.toDigits 10 n, c.isDigit = true := fun c hc =>
    Nat.isDigit_of_mem_toDigits (by decide) (by decide) hc
  rw [Nat.toString_eq_ofList_toDigits, String.toList_ofList]
  cases hcs : Nat.toDigits 10 n with
  | nil => exact absurd hcs Nat.toDigits_ne_nil
  | cons c cs =>
    rw [hcs, List.forall_mem_cons] at hdigits
    exact ⟨c, cs, rfl, hdigits.1, hdigits.2, hcs ▸ hvalue⟩

theorem reads_naturalReader (n : Nat) (hrest : Ends Char.isDigit rest) :
    naturalReader.Reads ((toString n).toList ++ rest) n rest := by
  obtain ⟨c, cs, htext, hc, hcs, hvalue⟩ := exists_digits n
  rw [htext]
  refine (reads_oneOf hc (cs ++ rest)).bind ((reads_takeWhile hcs hrest).bind ?_)
  rw [hvalue]
  exact reads_pure n rest

/-- Takes an integer. -/
def integerReader : Reader Int :=
  (do
    skip "-"
    let n ← naturalReader
    return -n) <|> (do
    let n ← naturalReader
    return n)

theorem reads_integerReader (n : Int) (hrest : Ends Char.isDigit rest) :
    integerReader.Reads ((toString n).toList ++ rest) n rest := by
  cases n with
  | ofNat n =>
    have hsign : (skip "-").Fails ((toString n).toList ++ rest) := by
      obtain ⟨c, cs, htext, hc, -⟩ := exists_digits n
      refine fails_skip (a := '-') rfl fun hhead => ?_
      rw [htext] at hhead
      obtain rfl : c = '-' := by simpa using hhead
      exact absurd hc (by decide)
    exact hsign.bind.or_reads ((reads_naturalReader n hrest).bind (reads_pure _ _))
  | negSucc n =>
    have htext : toString (Int.negSucc n) = "-" ++ toString (n + 1) := rfl
    rw [htext, String.toList_append, List.append_assoc]
    exact Reads.or ((reads_skip "-" _).bind ((reads_naturalReader _ hrest).bind (reads_pure _ _)))

theorem fails_integerReader {s : List Char} (hs : Ends (fun c => c.isDigit || c = '-') s) :
    integerReader.Fails s := by
  have hdigit : Ends Char.isDigit s := fun c hc => (Bool.or_eq_false_iff.1 (hs c hc)).1
  have hsign : s.head? ≠ some '-' := fun hhead => absurd (hs '-' hhead) (by decide)
  exact (fails_skip rfl hsign).bind.or (fails_oneOf hdigit).bind.bind

/-! ## Quoted text -/

namespace Quoted

/-- The character that a letter behind a backslash stands for. -/
def ofLetter (l : Char) : Char :=
  if l = '0' then '\x00'
  else if l = 't' then '\t'
  else if l = 'r' then '\r'
  else if l = 'n' then '\n'
  else l

/-- Takes one written character of a text between two `mark`s. -/
def charReader (mark : Char) : Reader Char :=
  (do
    skip "\\u\x7b"
    let cs ← takeWhile isHexDigit
    skip "\x7d"
    return Char.ofNat (ofHex cs)) <|>
  (do
    skip "\\"
    let l ← oneOf fun _ => true
    return ofLetter l) <|>
  oneOf fun c => c ≠ mark

theorem ofLetter_of_letter? {mark c l : Char} (hmark : mark = stringMark ∨ mark = charMark)
    (h : letter? mark c = some l) : l ≠ 'u' ∧ ofLetter l = c := by
  unfold letter? at h
  split_ifs at h with hc hc hc hc hc hc
  case pos =>
    obtain rfl := Option.some.inj h
    rcases hmark with rfl | rfl
    · subst hc
      decide
    · subst hc
      decide
  all_goals
    obtain rfl := Option.some.inj h
    subst hc
    decide

theorem ne_of_letter?_eq_none {mark c : Char} (h : letter? mark c = none) :
    c ≠ mark ∧ c ≠ '\\' := by
  unfold letter? at h
  split_ifs at h with hmark _ _ _ _ hslash
  exact ⟨hmark, hslash⟩

/-- Every character is read back, whatever follows. -/
theorem reads_encodeChar {mark : Char} (hmark : mark = stringMark ∨ mark = charMark) (c : Char)
    (rest : List Char) : (charReader mark).Reads (encodeChar mark c ++ rest) c rest := by
  unfold encodeChar
  cases hl : letter? mark c with
  | some l =>
    obtain ⟨hne, hc⟩ := ofLetter_of_letter? hmark hl
    have hnumber : (skip "\\u\x7b").Fails ('\\' :: l :: rest) := by
      have hdrop : ('\\' :: l :: rest).dropPrefix? ['\\', 'u', '\x7b'] = none := by
        simp [List.dropPrefix?, hne]
      exact congrArg (Option.map ((), ·)) hdrop
    refine hnumber.bind.or_reads (Reads.or ((reads_skip "\\" _).bind ?_))
    refine (reads_oneOf rfl rest).bind ?_
    rw [hc]
    exact reads_pure c rest
  | none =>
    obtain ⟨hc, hslash⟩ := ne_of_letter?_eq_none hl
    dsimp only
    split
    · have hdigits : ∀ d ∈ Nat.toDigits 16 c.toNat, isHexDigit d = true := fun d =>
        isHexDigit_of_mem_toDigits
      have htext : '\\' :: 'u' :: '\x7b' :: (Nat.toDigits 16 c.toNat ++ ['\x7d']) ++ rest =
          "\\u\x7b".toList ++ (Nat.toDigits 16 c.toNat ++ ("\x7d".toList ++ rest)) := by
        simp
      rw [htext]
      refine Reads.or ((reads_skip "\\u\x7b" _).bind ?_)
      refine (reads_takeWhile hdigits (ends_cons.2 rfl)).bind ((reads_skip "\x7d" rest).bind ?_)
      rw [ofHex_toDigits, Char.ofNat_toNat]
      exact reads_pure c rest
    · have hskip : ∀ t : String, t.toList.head? = some '\\' → (skip t).Fails (c :: rest) :=
        fun t ht => fails_skip ht (by simpa using hslash)
      refine Fails.or_reads (hskip "\\u\x7b" rfl).bind ?_
      exact Fails.or_reads (hskip "\\" rfl).bind (reads_oneOf (by simpa using hc) rest)

theorem fails_charReader {mark : Char} (hmark : mark = stringMark ∨ mark = charMark)
    (rest : List Char) : (charReader mark).Fails (mark :: rest) := by
  rcases hmark with rfl | rfl <;> rfl

theorem encodeChar_ne_nil (mark c : Char) : encodeChar mark c ≠ [] := by
  unfold encodeChar
  split
  · exact List.cons_ne_nil _ _
  · split <;> exact List.cons_ne_nil _ _

/-- Takes a text in quotation marks. -/
def stringReader : Reader String := do
  skip "\x22"
  let cs ← many (charReader stringMark)
  skip "\x22"
  return String.ofList cs

theorem reads_string (s : String) (rest : List Char) :
    stringReader.Reads ((string s).toList ++ rest) s rest := by
  have hmany : (many (charReader stringMark)).Reads
      (s.toList.flatMap (encodeChar stringMark) ++ ("\x22".toList ++ rest)) (s.toList.map id)
      ("\x22".toList ++ rest) :=
    reads_many (fun _ => True)
      (fun c _ rest _ => reads_encodeChar (.inl rfl) c rest)
      (fun c _ => encodeChar_ne_nil stringMark c) (fun _ _ _ => trivial) trivial
      (fails_charReader (.inl rfl) rest)
  have htext : (string s).toList ++ rest =
      "\x22".toList ++ (s.toList.flatMap (encodeChar stringMark) ++ ("\x22".toList ++ rest)) := by
    simp [string, encode, stringMark]
  rw [htext]
  refine (reads_skip "\x22" _).bind (hmany.bind ((reads_skip "\x22" rest).bind ?_))
  rw [List.map_id, String.ofList_toList]
  exact reads_pure s rest

/-- Takes a character in quotation marks. -/
def quotedCharReader : Reader Char := do
  skip "\x27"
  let c ← charReader charMark
  skip "\x27"
  return c

theorem reads_char (c : Char) (rest : List Char) :
    quotedCharReader.Reads ((char c).toList ++ rest) c rest := by
  have htext : (char c).toList ++ rest =
      "\x27".toList ++ (encodeChar charMark c ++ ("\x27".toList ++ rest)) := by
    simp [char, charMark]
  rw [htext]
  refine (reads_skip "\x27" _).bind ((reads_encodeChar (.inr rfl) c _).bind ?_)
  exact (reads_skip "\x27" rest).bind (reads_pure c rest)

end Quoted

/-! ## Literals -/

namespace Literal

/-- Literals other than fractions can be told from their texts. -/
def Readable : Literal → Prop
  | integer _ | string _ | char _ => True
  | rational _ => False

instance : DecidablePred Readable
  | integer _ | string _ | char _ => isTrue trivial
  | rational _ => isFalse id

/-- Takes a literal that is no fraction. -/
def reader : Reader Literal :=
  (integer <$> integerReader) <|> (string <$> Quoted.stringReader) <|>
    (char <$> Quoted.quotedCharReader)

theorem reads_text {v : Literal} (hv : v.Readable) (hrest : Ends Char.isDigit rest) :
    reader.Reads (v.text.toList ++ rest) v rest := by
  cases v with
  | integer n => exact ((reads_integerReader n hrest).map integer).or
  | string s =>
    have hinteger : integerReader.Fails ((Quoted.string s).toList ++ rest) := by
      rw [Quoted.string, String.toList_ofList]
      exact fails_integerReader (ends_cons.2 rfl)
    exact hinteger.map.or_reads ((Quoted.reads_string s rest).map string).or
  | char c =>
    have hinteger : integerReader.Fails ((Quoted.char c).toList ++ rest) := by
      rw [Quoted.char, String.toList_ofList]
      exact fails_integerReader (ends_cons.2 rfl)
    have hstring : Quoted.stringReader.Fails ((Quoted.char c).toList ++ rest) := by
      rw [Quoted.char, String.toList_ofList]
      exact Fails.bind rfl
    exact hinteger.map.or_reads (hstring.map.or_reads ((Quoted.reads_char c rest).map char))
  | rational r => exact hv.elim

/-- A literal begins with a digit, a sign or a quotation mark. -/
def opens (c : Char) : Bool :=
  c.isDigit || c = '-' || c = Quoted.stringMark || c = Quoted.charMark

theorem fails_reader {s : List Char} (hs : Ends opens s) : reader.Fails s := by
  have hhead : ∀ c, opens c = true → s.head? ≠ some c := fun c hc hhead => by
    simp [hs c hhead] at hc
  have hinteger : Ends (fun c => c.isDigit || c = '-') s := fun c hc => by
    have := hs c hc
    simp only [opens, Bool.or_eq_false_iff] at this ⊢
    exact this.1.1
  refine (fails_integerReader hinteger).map.or (Fails.or ?_ ?_)
  · exact (fails_skip rfl (hhead Quoted.stringMark rfl)).bind.map
  · exact (fails_skip rfl (hhead Quoted.charMark rfl)).bind.map

end Literal

end Letrec
