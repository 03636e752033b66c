import Letrec.Proofs.Text.Reader
import Letrec.Term.Text

/-!
# Reading names and patterns

Names, patterns and builtin constructors are read back from their texts. A pattern without fields
can be a variable or a constructor; the first letter tells which. The text of a tuple constructor
shows the number of items only if there are at least two.
-/

namespace Letrec

open Reader

/-! ## Names and patterns -/

/-- The words that are no names. -/
def keywords : List String := ["let", "in", "case", "of", "fix"]

/-- A character that a name can begin with. -/
def opensName (c : Char) : Bool := c.isAlpha || c = '_' || c = '@'

/-- A character that can stand in a name. -/
def isNameChar (c : Char) : Bool := c.isAlphanum || c = '_' || c = '\'' || c = '@'

/-- A word of letters, digits, `_`, `'` and `@` that is no keyword and begins with neither a digit
nor `'`. -/
def Name.Readable (x : Name) : Prop := x.IsWord opensName isNameChar ∧ x.text ∉ keywords

instance : DecidablePred Name.Readable := fun x =>
  inferInstanceAs (Decidable (x.IsWord opensName isNameChar ∧ x.text ∉ keywords))

/-- The name begins with an upper-case letter. -/
def Name.isCapital (x : Name) : Bool := x.text.toList.head?.any Char.isUpper

/-- Takes a name or a keyword. -/
def nameReader : Reader Name := word opensName isNameChar

theorem Name.Readable.reads {x : Name} (hx : x.Readable) {rest : List Char}
    (hrest : Ends isNameChar rest) : nameReader.Reads (x.text.toList ++ rest) x rest :=
  hx.1.reads hrest

namespace Pattern

/-- Constructors begin with an upper-case letter, and a variable alone does not. -/
def Readable : Pattern → Prop
  | var x => x.Readable ∧ x.isCapital = false
  | con c xs => c.Readable ∧ c.isCapital = true ∧ ∀ x ∈ xs, x.Readable

instance : DecidablePred Readable
  | var x => inferInstanceAs (Decidable (x.Readable ∧ x.isCapital = false))
  | con c xs =>
    inferInstanceAs (Decidable (c.Readable ∧ c.isCapital = true ∧ ∀ x ∈ xs, x.Readable))

/-- Takes a pattern. -/
def reader : Reader Pattern := do
  let x ← nameReader
  if x.isCapital then
    let xs ← many do
      skip " "
      nameReader
    return con x xs
  else
    return var x

/-- A pattern is read back in front of an arrow. -/
theorem reads_text {p : Pattern} (hp : p.Readable) (rest : List Char) :
    reader.Reads (p.text.toList ++ (" -> ".toList ++ rest)) p (" -> ".toList ++ rest) := by
  have harrow : Ends isNameChar (" -> ".toList ++ rest) := ends_cons.2 rfl
  cases p with
  | var x =>
    obtain ⟨hx, hcase⟩ := hp
    refine (hx.reads harrow).bind ?_
    rw [if_neg (by simp [hcase])]
    exact reads_pure _ _
  | con c xs =>
    obtain ⟨hc, hcase, hxs⟩ := hp
    have hmany : (many do skip " "; nameReader).Reads
        ((xs.flatMap fun x => " ".toList ++ x.text.toList) ++ (" -> ".toList ++ rest))
        (xs.map id) (" -> ".toList ++ rest) := by
      refine reads_many (Ends isNameChar) (fun x hx rest hrest => ?_)
        (fun x _ => List.cons_ne_nil _ _) (fun x _ rest => ends_cons.2 rfl) harrow rfl
      rw [List.append_assoc]
      exact (reads_skip " " _).bind ((hxs x hx).reads hrest)
    have hends : Ends isNameChar
        ((xs.flatMap fun x => " ".toList ++ x.text.toList) ++ (" -> ".toList ++ rest)) :=
      follows_flatMap (fun _ _ _ => ends_cons.2 rfl) harrow
    rw [text, String.toList_append, String.toList_join, List.flatMap_map, List.append_assoc]
    simp only [String.toList_append]
    refine (hc.reads hends).bind ?_
    rw [if_pos hcase]
    refine hmany.bind ?_
    rw [List.map_id]
    exact reads_pure _ _

end Pattern

/-! ## Terms -/

namespace Builtin

/-- Tuples with less than two items have the same text. -/
def Readable : Builtin → Prop
  | tuple n => 2 ≤ n
  | cons | nil => True

instance : DecidablePred Readable
  | tuple n => inferInstanceAs (Decidable (2 ≤ n))
  | cons | nil => isTrue trivial

/-- Takes a constructor of tuples or lists. -/
def reader : Reader Builtin :=
  (do
    skip "(,"
    let cs ← takeWhile (· = ',')
    skip ")"
    return tuple (cs.length + 2)) <|>
  (do
    skip "(:)"
    return cons) <|>
  (do
    skip "[]"
    return nil)

theorem toList_text_tuple (n : Nat) :
    (tuple (n + 2)).text.toList = "(,".toList ++ (List.replicate n ',' ++ ")".toList) := by
  simp [text, List.replicate_succ]

theorem reads_text {v : Builtin} (hv : v.Readable) (rest : List Char) :
    reader.Reads (v.text.toList ++ rest) v rest := by
  cases v with
  | tuple n =>
    obtain ⟨n, rfl⟩ := Nat.exists_eq_add_of_le' hv
    have hcommas : ∀ c ∈ List.replicate n ',', decide (c = ',') = true := fun c hc =>
      decide_eq_true (List.eq_of_mem_replicate hc)
    rw [toList_text_tuple, List.append_assoc, List.append_assoc]
    refine Reads.or ((reads_skip "(," _).bind ((reads_takeWhile hcommas (ends_cons.2 rfl)).bind ?_))
    refine (reads_skip ")" rest).bind ?_
    rw [List.length_replicate]
    exact reads_pure _ rest
  | cons =>
    refine Fails.or_reads (Fails.bind rfl) (Reads.or ?_)
    exact (reads_skip "(:)" rest).bind (reads_pure _ _)
  | nil =>
    refine Fails.or_reads (Fails.bind rfl) (Fails.or_reads (Fails.bind rfl) ?_)
    exact (reads_skip "[]" rest).bind (reads_pure _ _)

end Builtin

end Letrec
