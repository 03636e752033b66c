import Letrec.Proofs.Text.Literal
import Letrec.Proofs.Text.Pattern

/-!
# Reading terms

`Term.reader` takes a term off the front of a text. It reads back what is written, if the names are
words other than the keywords, patterns can be told apart by their first letters, literals are no
fractions, and tuples have at least two items (`reads_text`). So a term can be read off its text, up
to annotations and marks, which are not written (`text_eq_iff_bare_eq`).

An application is read as a spine, that is as its innermost function with all arguments, since the
text does not show where a function with some of its arguments ends. A term that reaches as far to
the right as it can is followed by nothing, or by what closes the form that it stands in (`Closes`).
-/

namespace Letrec

open Reader

namespace Term

variable {α β : Type}

mutual

/-- The term without its annotations and marks. -/
def bare : Term α → Term Unit
  | lit _ v => lit () v
  | var _ _ x => var () false x
  | builtin _ v => builtin () v
  | app _ f s => app () f.bare s.bare
  | lam _ x b => lam () x b.bare
  | letIn _ x e b => letIn () x e.bare b.bare
  | caseOf _ s alts => caseOf () s.bare (bareAlts alts)
  | fix _ b => fix () b.bare

def bareAlts : List (Alternative α) → List (Alternative Unit)
  | [] => []
  | (p, t) :: alts => (p, t.bare) :: bareAlts alts

end

theorem bareAlts_eq (alts : List (Alternative α)) :
    bareAlts alts = alts.map fun alt => (alt.1, alt.2.bare) := by
  induction alts with
  | nil => rfl
  | cons alt alts ih => simp [bareAlts, ih]

mutual

/-- All names, patterns and constants of the term can be read. -/
def Readable : Term α → Prop
  | lit _ v => v.Readable
  | var _ _ x => x.Readable
  | builtin _ v => v.Readable
  | app _ f s => f.Readable ∧ s.Readable
  | lam _ x b => x.Readable ∧ b.Readable
  | letIn _ x e b => x.Readable ∧ e.Readable ∧ b.Readable
  | caseOf _ s alts => s.Readable ∧ ReadableAlts alts
  | fix _ b => b.Readable

def ReadableAlts : List (Alternative α) → Prop
  | [] => True
  | (p, t) :: alts => (p.Readable ∧ t.Readable) ∧ ReadableAlts alts

end

theorem readableAlts_iff {alts : List (Alternative α)} :
    ReadableAlts alts ↔ ∀ alt ∈ alts, alt.1.Readable ∧ alt.2.Readable := by
  induction alts with
  | nil => simp [ReadableAlts]
  | cons alt alts ih => rw [ReadableAlts, ih, List.forall_mem_cons]

mutual

def decidableReadable : ∀ t : Term α, Decidable t.Readable
  | lit _ v => inferInstanceAs (Decidable v.Readable)
  | var _ _ x => inferInstanceAs (Decidable x.Readable)
  | builtin _ v => inferInstanceAs (Decidable v.Readable)
  | app _ f s =>
    have := f.decidableReadable
    have := s.decidableReadable
    inferInstanceAs (Decidable (f.Readable ∧ s.Readable))
  | lam _ x b =>
    have := b.decidableReadable
    inferInstanceAs (Decidable (x.Readable ∧ b.Readable))
  | letIn _ x e b =>
    have := e.decidableReadable
    have := b.decidableReadable
    inferInstanceAs (Decidable (x.Readable ∧ e.Readable ∧ b.Readable))
  | caseOf _ s alts =>
    have := s.decidableReadable
    have := decidableReadableAlts alts
    inferInstanceAs (Decidable (s.Readable ∧ ReadableAlts alts))
  | fix _ b => b.decidableReadable

def decidableReadableAlts : ∀ alts : List (Alternative α), Decidable (ReadableAlts alts)
  | [] => isTrue trivial
  | (p, t) :: alts =>
    have := t.decidableReadable
    have := decidableReadableAlts alts
    inferInstanceAs (Decidable ((p.Readable ∧ t.Readable) ∧ ReadableAlts alts))

end

instance : DecidablePred (Readable (α := α)) := decidableReadable

/-! ## The reader -/

/-- Takes a variable. -/
def variableReader : Reader (Term Unit) := do
  let x ← nameReader
  if x.text ∈ keywords then failure
  return var () false x

def parensReader (inner : Reader (Term Unit)) : Reader (Term Unit) := do
  skip "("
  let t ← inner
  skip ")"
  return t

/-- Takes a leaf, or any term in parentheses. -/
def operand (inner : Reader (Term Unit)) : Reader (Term Unit) :=
  (lit () <$> Literal.reader) <|> variableReader <|> parensReader inner <|>
    (builtin () <$> Builtin.reader)

/-- Takes one argument of an application. -/
def argument (inner : Reader (Term Unit)) : Reader (Term Unit) := do
  skip " "
  operand inner

/-- Takes a function with all its arguments. -/
def spine (inner : Reader (Term Unit)) : Reader (Term Unit) := do
  let f ← operand inner
  let args ← many (argument inner)
  return applyAll () f args

def lamReader (inner : Reader (Term Unit)) : Reader (Term Unit) := do
  skip "\\"
  let x ← nameReader
  skip " -> "
  let b ← inner
  return lam () x b

def letReader (inner : Reader (Term Unit)) : Reader (Term Unit) := do
  skip "let "
  let x ← nameReader
  skip " = "
  let e ← inner
  skip " in "
  let b ← inner
  return letIn () x e b

/-- Takes an alternative with the space before it. -/
def altReader (inner : Reader (Term Unit)) : Reader (Alternative Unit) := do
  skip " "
  let p ← Pattern.reader
  skip " -> "
  let t ← inner
  return (p, t)

def caseReader (inner : Reader (Term Unit)) : Reader (Term Unit) := do
  skip "case "
  let s ← inner
  skip " of \x7b"
  (do
    skip "\x7d"
    return caseOf () s []) <|> (do
    let alt ← altReader inner
    let alts ← many do
      skip ";"
      altReader inner
    skip " \x7d"
    return caseOf () s (alt :: alts))

def fixReader (inner : Reader (Term Unit)) : Reader (Term Unit) := do
  skip "fix "
  let b ← operand inner
  return fix () b

/-- Takes a term of at most that many nodes. -/
def reader : Nat → Reader (Term Unit)
  | 0 => failure
  | n + 1 => spine (reader n) <|> lamReader (reader n) <|> letReader (reader n) <|>
      caseReader (reader n) <|> fixReader (reader n)

/-! ## What may follow -/

/-- The texts that close a form. -/
def closings : List String := [")", ";", " \x7d", " in ", " of \x7b"]

/-- Nothing goes on here, or something that closes a form. -/
def Closes (rest : List Char) : Prop := rest = [] ∨ ∃ t ∈ closings, ∃ s, rest = t.toList ++ s

theorem closes_closing {t : String} (ht : t ∈ closings) (s : List Char) : Closes (t.toList ++ s) :=
  .inr ⟨t, ht, s, rfl⟩

theorem Closes.ends {rest : List Char} (h : Closes rest) : Ends isNameChar rest := by
  obtain rfl | ⟨t, ht, s, rfl⟩ := h
  · exact ends_nil _
  · simp only [closings, List.mem_cons, List.not_mem_nil, or_false] at ht
    rcases ht with rfl | rfl | rfl | rfl | rfl <;> exact ends_cons.2 rfl

/-- What closes a form does not read as an argument. -/
theorem Closes.fails_argument {rest : List Char} (h : Closes rest) (inner : Reader (Term Unit)) :
    (argument inner).Fails rest := by
  obtain rfl | ⟨t, ht, s, rfl⟩ := h
  · rfl
  · simp only [closings, List.mem_cons, List.not_mem_nil, or_false] at ht
    rcases ht with rfl | rfl | rfl | rfl | rfl <;> rfl

/-! ## Operands -/

/-- A literal ends where a name would. -/
theorem ends_isDigit {rest : List Char} (h : Ends isNameChar rest) : Ends Char.isDigit rest := by
  intro c hc
  have := h c hc
  simp only [isNameChar, Char.isAlphanum, Bool.or_eq_false_iff] at this
  exact this.1.1.1.2

/-- No literal begins like a name. -/
theorem opens_of_opensName {c : Char} (hc : opensName c = true) : Literal.opens c = false := by
  have hne : ∀ d, opensName d = false → c ≠ d := by
    rintro d hd rfl
    rw [hc] at hd
    cases hd
  have hdigit : c.isDigit = false := by
    simp only [opensName, Bool.or_eq_true, decide_eq_true_eq] at hc
    rcases hc with (hc | rfl) | rfl
    · exact isDigit_of_isAlpha hc
    · rfl
    · rfl
  simp [Literal.opens, hdigit, hne '-' rfl, hne Quoted.stringMark rfl, hne Quoted.charMark rfl]

theorem reads_variable {x : Name} (hx : x.Readable) (inner : Reader (Term Unit)) {rest : List Char}
    (hrest : Ends isNameChar rest) :
    (operand inner).Reads (x.text.toList ++ rest) (var () false x) rest := by
  have hliteral : Literal.reader.Fails (x.text.toList ++ rest) := by
    obtain ⟨⟨c, w, htext, hc, -⟩, -⟩ := hx
    rw [htext]
    exact Literal.fails_reader (ends_cons.2 (opens_of_opensName hc))
  have hread : variableReader.Reads (x.text.toList ++ rest) (var () false x) rest := by
    refine (hx.reads hrest).bind ?_
    rw [if_neg hx.2]
    exact reads_pure _ _
  exact hliteral.map.or_reads hread.or

/-- No term begins with a comma or a colon. -/
theorem fails_reader {t : String} (ht : t = "," ∨ t = ":") (n : Nat) (rest : List Char) :
    (reader n).Fails (t.toList ++ rest) := by
  cases n with
  | zero => rfl
  | succ n => rcases ht with rfl | rfl <;> rfl

theorem reads_builtin {v : Builtin} (hv : v.Readable) (n : Nat) (rest : List Char) :
    (operand (reader n)).Reads (v.text.toList ++ rest) (builtin () v) rest := by
  have hread := (Builtin.reads_text hv rest).map (builtin ())
  cases v with
  | tuple k =>
    obtain ⟨k, rfl⟩ := Nat.exists_eq_add_of_le' hv
    -- the parenthesis does not open a term, since a comma stands behind it
    rw [Builtin.toList_text_tuple, List.append_assoc, List.append_assoc] at hread ⊢
    have hparens : (parensReader (reader n)).Fails
        ("(,".toList ++ (List.replicate k ',' ++ (")".toList ++ rest))) :=
      (reads_skip "(" _).fails_bind (fails_reader (.inl rfl) n _).bind
    refine Fails.or_reads (Literal.fails_reader (ends_cons.2 rfl)).map ?_
    exact Fails.or_reads (Fails.bind rfl) (hparens.or_reads hread)
  | cons =>
    have hparens : (parensReader (reader n)).Fails ("(:)".toList ++ rest) :=
      (reads_skip "(" _).fails_bind (fails_reader (.inr rfl) n _).bind
    refine Fails.or_reads (Literal.fails_reader (ends_cons.2 rfl)).map ?_
    exact Fails.or_reads (Fails.bind rfl) (hparens.or_reads hread)
  | nil =>
    refine Fails.or_reads (Literal.fails_reader (ends_cons.2 rfl)).map ?_
    exact Fails.or_reads (Fails.bind rfl) (Fails.or_reads (Fails.bind rfl) hread)

theorem reads_leaf {t : Term α} (ht : t.Readable) (hleaf : t.isLeaf = true) (n : Nat)
    {rest : List Char} (hrest : Ends isNameChar rest) :
    (operand (reader n)).Reads (t.text.toList ++ rest) t.bare rest := by
  cases t with
  | lit a v => exact ((Literal.reads_text ht (ends_isDigit hrest)).map (lit ())).or
  | var a m x => exact reads_variable ht _ hrest
  | builtin a v => exact reads_builtin ht n rest
  | _ => cases hleaf

section
variable {n : Nat} {rest : List Char}

/-- The reader reads back every term of at most `n` nodes. -/
def ReadsBack (α : Type) (inner : Reader (Term Unit)) (n : Nat) : Prop :=
  ∀ t : Term α, t.size ≤ n → t.Readable → ∀ rest, Closes rest →
    inner.Reads (t.text.toList ++ rest) t.bare rest

/-- An operand that is no leaf stands in parentheses. -/
theorem reads_parenthesized (hinner : ReadsBack α (reader n) n) {t : Term α} (hn : t.size ≤ n)
    (ht : t.Readable) {parens : Bool} (hleaf : parens = false → t.isLeaf = true)
    (hrest : Ends isNameChar rest) :
    (operand (reader n)).Reads ((parenthesized parens t.text).toList ++ rest) t.bare rest := by
  cases parens with
  | false => exact reads_leaf ht (hleaf rfl) n hrest
  | true =>
    have hterm := hinner t hn ht (")".toList ++ rest) (closes_closing (by simp [closings]) rest)
    rw [parenthesized, if_pos rfl, String.toList_append, String.toList_append, List.append_assoc,
      List.append_assoc]
    refine Fails.or_reads (Literal.fails_reader (ends_cons.2 rfl)).map ?_
    refine Fails.or_reads (Fails.bind rfl) (Reads.or ((reads_skip "(" _).bind ?_))
    exact hterm.bind ((reads_skip ")" rest).bind (reads_pure _ _))

end

/-! ## Spines -/

/-- The innermost function of nested applications. -/
def head : Term α → Term α
  | app _ f _ => f.head
  | t => t

/-- The arguments of nested applications, the first one first. -/
def args : Term α → List (Term α)
  | app _ f s => f.args ++ [s]
  | _ => []

theorem size_head_le (t : Term α) : t.head.size ≤ t.size := by
  induction t with
  | app a f s ihf ihs =>
    rw [head, size]
    omega
  | _ => exact Nat.le_refl _

theorem size_lt_of_mem_args {t s : Term α} (hs : s ∈ t.args) : s.size < t.size := by
  induction t with
  | app a f u ihf ihu =>
    rw [size]
    rcases List.mem_append.1 hs with hs | hs
    · have := ihf hs
      omega
    · obtain rfl := List.mem_singleton.1 hs
      omega
  | _ => cases hs

theorem Readable.head {t : Term α} (ht : t.Readable) : t.head.Readable := by
  induction t with
  | app a f s ihf ihs => exact ihf ht.1
  | _ => exact ht

theorem Readable.args {t : Term α} (ht : t.Readable) : ∀ s ∈ t.args, s.Readable := by
  induction t with
  | app a f s ihf ihs => exact List.forall_mem_append.2 ⟨ihf ht.1, by simpa using ht.2⟩
  | _ => exact fun _ hs => nomatch hs

theorem bare_eq_applyAll (t : Term α) : t.bare = applyAll () t.head.bare (t.args.map bare) := by
  induction t with
  | app a f s ihf ihs => simp [bare, head, args, ihf, applyAll]
  | _ => rfl

/-- The text of a term that is an argument. -/
def argText (t : Term α) : List Char := (parenthesized t.parensAsArg t.text).toList

/-- The function of an application is written like the arguments, with the arguments behind it. -/
theorem toList_funcText (t : Term α) :
    (parenthesized t.parensAsFunc t.text).toList =
      t.head.argText ++ t.args.flatMap fun s => " ".toList ++ s.argText := by
  induction t with
  | app a f s ihf ihs =>
    have htext : (parenthesized (app a f s).parensAsFunc (app a f s).text).toList =
        (parenthesized f.parensAsFunc f.text).toList ++ (" ".toList ++ s.argText) := by
      simp [parensAsFunc, text, parenthesized, argText]
    rw [htext, ihf, head, args, List.flatMap_append, List.flatMap_singleton, List.append_assoc]
  | _ => simp [head, args, argText, parensAsFunc, parensAsArg]

theorem isLeaf_of_parensAsArg {t : Term α} (h : t.parensAsArg = false) : t.isLeaf = true := by
  rw [parensAsArg, Bool.or_eq_false_iff] at h
  simpa using h.2

section
variable {n : Nat} {rest : List Char}

theorem reads_argText (hinner : ReadsBack α (reader n) n) {t : Term α} (hn : t.size ≤ n)
    (ht : t.Readable) (hrest : Ends isNameChar rest) :
    (operand (reader n)).Reads (t.argText ++ rest) t.bare rest :=
  reads_parenthesized hinner hn ht isLeaf_of_parensAsArg hrest

theorem reads_args (hinner : ReadsBack α (reader n) n) {ts : List (Term α)}
    (hn : ∀ t ∈ ts, t.size ≤ n) (hts : ∀ t ∈ ts, t.Readable) (hrest : Closes rest) :
    (many (argument (reader n))).Reads ((ts.flatMap fun t => " ".toList ++ t.argText) ++ rest)
      (ts.map bare) rest := by
  refine reads_many (Ends isNameChar) (fun t ht rest hrest => ?_) (fun t _ => List.cons_ne_nil _ _)
    (fun t _ rest => ends_cons.2 rfl) hrest.ends (hrest.fails_argument _)
  rw [List.append_assoc]
  exact (reads_skip " " _).bind (reads_argText hinner (hn t ht) (hts t ht) hrest)

theorem reads_app (hinner : ReadsBack α (reader n) n) {a : α} {f s : Term α}
    (hn : (app a f s).size ≤ n + 1) (ht : (app a f s).Readable) (hrest : Closes rest) :
    (spine (reader n)).Reads ((app a f s).text.toList ++ rest) (app a f s).bare rest := by
  have hhead : (app a f s).head.size ≤ n := by
    have := size_head_le f
    rw [head]
    rw [size] at hn
    omega
  have hargs : ∀ u ∈ (app a f s).args, u.size ≤ n := fun u hu => by
    have := size_lt_of_mem_args hu
    omega
  have htext : (app a f s).text.toList = (app a f s).head.argText ++
      (app a f s).args.flatMap fun u => " ".toList ++ u.argText := toList_funcText (app a f s)
  have hends : Ends isNameChar
      (((app a f s).args.flatMap fun u => " ".toList ++ u.argText) ++ rest) :=
    follows_flatMap (fun _ _ _ => ends_cons.2 rfl) hrest.ends
  rw [htext, List.append_assoc, bare_eq_applyAll]
  refine (reads_argText hinner hhead ht.head hends).bind ?_
  exact (reads_args hinner hargs ht.args hrest).bind (reads_pure _ _)

end

/-! ## The other forms -/

section
variable {n : Nat} {rest : List Char}

/-- What stands behind the brace or semicolon before an alternative. -/
def altText (alt : Alternative α) : List Char :=
  " ".toList ++ (alt.1.text.toList ++ (" -> ".toList ++ alt.2.text.toList))

theorem closes_semicolon (alt : Alternative α) (rest : List Char) :
    Closes ((";".toList ++ altText alt) ++ rest) := by
  rw [List.append_assoc]
  exact closes_closing (by simp [closings]) _

theorem toList_text_case_cons (a : α) (s : Term α) (alt : Alternative α)
    (alts : List (Alternative α)) :
    (caseOf a s (alt :: alts)).text.toList = "case ".toList ++ (s.text.toList ++
      (" of \x7b".toList ++ (altText alt ++ ((alts.flatMap fun alt => ";".toList ++ altText alt) ++
        " \x7d".toList)))) := by
  simp only [text, textAlts_eq, List.map_cons, List.isEmpty_cons, String.toList_append,
    toList_intercalate_cons, List.flatMap_map, List.append_assoc, altText]
  rfl

theorem reads_alt (hinner : ReadsBack α (reader n) n) {alt : Alternative α}
    (hn : alt.2.size ≤ n) (halt : alt.1.Readable ∧ alt.2.Readable) (hrest : Closes rest) :
    (altReader (reader n)).Reads (altText alt ++ rest) (alt.1, alt.2.bare) rest := by
  simp only [altText, List.append_assoc]
  refine (reads_skip " " _).bind ((Pattern.reads_text halt.1 _).bind ?_)
  refine (reads_skip " -> " _).bind ((hinner alt.2 hn halt.2 rest hrest).bind ?_)
  exact reads_pure _ _

theorem reads_alts (hinner : ReadsBack α (reader n) n) {alts : List (Alternative α)}
    (hn : ∀ alt ∈ alts, alt.2.size ≤ n) (halts : ∀ alt ∈ alts, alt.1.Readable ∧ alt.2.Readable)
    (rest : List Char) :
    (many do skip ";"; altReader (reader n)).Reads
      ((alts.flatMap fun alt => ";".toList ++ altText alt) ++ (" \x7d".toList ++ rest))
      (alts.map fun alt => (alt.1, alt.2.bare)) (" \x7d".toList ++ rest) := by
  refine reads_many Closes (fun alt halt rest hrest => ?_) (fun alt _ => List.cons_ne_nil _ _)
    (fun alt _ rest => closes_semicolon alt rest) (closes_closing (by simp [closings]) rest)
    (Fails.bind rfl)
  rw [List.append_assoc]
  exact (reads_skip ";" _).bind (reads_alt hinner (hn alt halt) (halts alt halt) hrest)

theorem reads_case (hinner : ReadsBack α (reader n) n) {a : α} {s : Term α}
    {alts : List (Alternative α)} (hn : (caseOf a s alts).size ≤ n + 1)
    (ht : (caseOf a s alts).Readable) (rest : List Char) :
    (caseReader (reader n)).Reads ((caseOf a s alts).text.toList ++ rest)
      (caseOf a s alts).bare rest := by
  have hsize : ∀ alt ∈ alts, alt.2.size ≤ n := fun alt halt => by
    have := size_lt_caseOf a s halt
    omega
  rw [size] at hn
  obtain ⟨hs, halts⟩ := ht
  rw [readableAlts_iff] at halts
  have hscrutinee := fun rest => hinner s (by omega) hs (" of \x7b".toList ++ rest)
    (closes_closing (by simp [closings]) rest)
  cases alts with
  | nil =>
    have htext : (caseOf a s []).text.toList = "case ".toList ++ (s.text.toList ++
        (" of \x7b".toList ++ "\x7d".toList)) := by
      simp [text, textAlts]
    rw [htext]
    simp only [List.append_assoc]
    refine (reads_skip "case " _).bind ((hscrutinee _).bind ((reads_skip " of \x7b" _).bind ?_))
    exact Reads.or ((reads_skip "\x7d" rest).bind (reads_pure _ _))
  | cons alt alts =>
    rw [List.forall_mem_cons] at hsize halts
    have hmany := reads_alts hinner hsize.2 halts.2 rest
    have hcloses : Closes ((alts.flatMap fun alt => ";".toList ++ altText alt) ++
        (" \x7d".toList ++ rest)) :=
      follows_flatMap (fun alt _ => closes_semicolon alt) (closes_closing (by simp [closings]) rest)
    have hfirst := reads_alt hinner hsize.1 halts.1 hcloses
    rw [toList_text_case_cons, bare, bareAlts, bareAlts_eq]
    simp only [List.append_assoc]
    refine (reads_skip "case " _).bind ((hscrutinee _).bind ((reads_skip " of \x7b" _).bind ?_))
    refine Fails.or_reads (Fails.bind rfl) (hfirst.bind (hmany.bind ?_))
    exact (reads_skip " \x7d" rest).bind (reads_pure _ _)

theorem reads_lam (hinner : ReadsBack α (reader n) n) {a : α} {x : Name} {b : Term α}
    (hn : b.size ≤ n) (hx : x.Readable) (hb : b.Readable) (hrest : Closes rest) :
    (lamReader (reader n)).Reads ((lam a x b).text.toList ++ rest) (lam a x b).bare rest := by
  simp only [text, String.toList_append, List.append_assoc]
  refine (reads_skip "\\" _).bind ((hx.reads (ends_cons.2 rfl)).bind ?_)
  exact (reads_skip " -> " _).bind ((hinner b hn hb rest hrest).bind (reads_pure _ _))

theorem reads_let (hinner : ReadsBack α (reader n) n) {a : α} {x : Name} {e b : Term α}
    (he : e.size ≤ n) (hb : b.size ≤ n) (ht : (letIn a x e b).Readable) (hrest : Closes rest) :
    (letReader (reader n)).Reads ((letIn a x e b).text.toList ++ rest) (letIn a x e b).bare
      rest := by
  obtain ⟨hx, hbound, hbody⟩ := ht
  have hbound := hinner e he hbound (" in ".toList ++ (b.text.toList ++ rest))
    (closes_closing (by simp [closings]) _)
  simp only [text, String.toList_append, List.append_assoc]
  refine (reads_skip "let " _).bind ((hx.reads (ends_cons.2 rfl)).bind ?_)
  refine (reads_skip " = " _).bind (hbound.bind ((reads_skip " in " _).bind ?_))
  exact (hinner b hb hbody rest hrest).bind (reads_pure _ _)

theorem reads_fix (hinner : ReadsBack α (reader n) n) {a : α} {b : Term α} (hn : b.size ≤ n)
    (hb : b.Readable) (hrest : Closes rest) :
    (fixReader (reader n)).Reads ((fix a b).text.toList ++ rest) (fix a b).bare rest := by
  have hleaf : (!b.isLeaf) = false → b.isLeaf = true := by simp
  rw [text, String.toList_append, List.append_assoc]
  refine (reads_skip "fix " _).bind ?_
  exact (reads_parenthesized hinner hn hb hleaf hrest.ends).bind (reads_pure _ _)

end

/-! ## Terms are read back -/

/-- **Terms are read back.** -/
theorem reads_text (n : Nat) : ReadsBack α (reader n) n := by
  induction n with
  | zero =>
    intro t hn
    have := t.size_pos
    omega
  | succ n ih =>
    intro t hn ht rest hrest
    cases hleaf : t.isLeaf with
    | true =>
      -- a spine without arguments
      have hmany : (many (argument (reader n))).Reads rest [] rest :=
        reads_manyUpTo_nil (hrest.fails_argument _) _
      exact Reads.or ((reads_leaf ht hleaf n hrest.ends).bind (hmany.bind (reads_pure _ _)))
    | false =>
      cases t with
      | lit | var | builtin => cases hleaf
      | app a f s => exact (reads_app ih hn ht hrest).or
      -- the readers that are tried before fail at the first word
      | lam a x b =>
        rw [size] at hn
        have hread := reads_lam ih (a := a) (by omega) ht.1 ht.2 hrest
        simp only [text, String.toList_append, List.append_assoc] at hread ⊢
        exact Fails.or_reads rfl hread.or
      | letIn a x e b =>
        rw [size] at hn
        have hread := reads_let ih (by omega) (by omega) ht hrest
        simp only [text, String.toList_append, List.append_assoc] at hread ⊢
        exact Fails.or_reads rfl (Fails.or_reads rfl hread.or)
      | caseOf a s alts =>
        have hread := reads_case ih hn ht rest
        simp only [text, String.toList_append, List.append_assoc] at hread ⊢
        exact Fails.or_reads rfl (Fails.or_reads rfl (Fails.or_reads rfl hread.or))
      | fix a b =>
        have hb : b.Readable := ht
        rw [size] at hn
        have hread := reads_fix ih (a := a) (by omega) hb hrest
        simp only [text, String.toList_append, List.append_assoc] at hread ⊢
        exact Fails.or_reads rfl (Fails.or_reads rfl (Fails.or_reads rfl
          (Fails.or_reads rfl hread)))

/-! ## What has the same text -/

@[simp] theorem isLeaf_bare (t : Term α) : t.bare.isLeaf = t.isLeaf := by
  cases t <;> rfl

@[simp] theorem parensAsFunc_bare (t : Term α) : t.bare.parensAsFunc = t.parensAsFunc := by
  cases t <;> rfl

@[simp] theorem parensAsArg_bare (t : Term α) : t.bare.parensAsArg = t.parensAsArg := by
  cases t <;> rfl

theorem text_bare (t : Term α) : t.bare.text = t.text := by
  induction t with
  | lit | var | builtin => rfl
  | app a f s ihf ihs => simp [bare, text, ihf, ihs]
  | lam a x b ih | fix a b ih => simp [bare, text, ih]
  | letIn a x e b ihe ihb => simp [bare, text, ihe, ihb]
  | caseOf a s alts ihs ihalts =>
    have halts : textAlts (bareAlts alts) = textAlts alts := by
      rw [textAlts_eq, textAlts_eq, bareAlts_eq, List.map_map]
      refine List.map_congr_left fun alt halt => ?_
      rw [Function.comp_apply, ihalts alt halt]
    have hempty : (bareAlts alts).isEmpty = alts.isEmpty := by
      cases alts <;> rfl
    rw [bare, text, text, ihs, halts, hempty]

/-- **A term can be read off its text.** The names being words other than the keywords, patterns
beginning with an upper-case letter exactly if they are constructors, no literal being a fraction
and no tuple having less than two items, two terms have the same text exactly if they differ in
annotations and marks only. So no parenthesis is missing: what is written bare, such as the bound
term of a let or an alternative, cannot be read in another way. -/
theorem text_eq_iff_bare_eq {t : Term α} {u : Term β} (ht : t.Readable) (hu : u.Readable) :
    t.text = u.text ↔ t.bare = u.bare := by
  constructor
  · intro htext
    have ht := reads_text (max t.size u.size) t (Nat.le_max_left _ _) ht [] (.inl rfl)
    have hu := reads_text (max t.size u.size) u (Nat.le_max_right _ _) hu [] (.inl rfl)
    rw [htext] at ht
    exact ht.unique hu
  · intro hbare
    rw [← t.text_bare, ← u.text_bare, hbare]

/-- `let f' = \x -> case g (-1) x of { Cons y ys -> (,) y 'a'; z -> [] } in fix (f' (\y -> y))`
-/
def peel (a : α) (m : Bool) : Term α :=
  letIn a ⟨"f'"⟩
    (lam a ⟨"x"⟩ (caseOf a
      (app a (app a (var a m ⟨"g"⟩) (lit a (.integer (-1)))) (var a false ⟨"x"⟩))
      [(.con ⟨"Cons"⟩ [⟨"y"⟩, ⟨"ys"⟩],
        app a (app a (builtin a (.tuple 2)) (var a false ⟨"y"⟩)) (lit a (.char 'a'))),
       (.var ⟨"z"⟩, builtin a .nil)]))
    (fix a (app a (var a m ⟨"f'"⟩) (lam a ⟨"y"⟩ (var a m ⟨"y"⟩))))

theorem text_eq_iff_bare_eq_peel :
    (peel 0 true).Readable ∧ (peel 'b' false).Readable ∧
      (peel 0 true).text = "let f' = \\x -> case g (-1) x of" ++
        " \x7b Cons y ys -> (,) y 'a'; z -> [] \x7d in fix (f' (\\y -> y))" ∧
      (peel 0 true).bare = (peel 'b' false).bare := by
  have ht : (peel 0 true).Readable := by decide +kernel
  have hu : (peel 'b' false).Readable := by decide +kernel
  exact ⟨ht, hu, by decide +kernel, (text_eq_iff_bare_eq ht hu).1 (by decide +kernel)⟩

end Term

end Letrec
