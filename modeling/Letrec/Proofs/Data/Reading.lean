import Letrec.Data.Basic
import Letrec.Proofs.Ty.Reading

/-!
# Reading data definitions

Constructors and definitions are read back from their texts (`DataCon.reads_text`,
`DataDef.reads_text`). The fields of a constructor follow each other with nothing but a space before
each; a function type stands in parentheses, so that no field reads on into the next one.
`unique_reading` says for types, constructors and definitions which of them have the same text.
-/

namespace Letrec

open Reader

variable {n : Nat} {rest : List Char}

/-! ## Constructors -/

namespace DataCon

/-- The name is a word of letters and digits, and the types of the fields can be read. -/
def Readable (c : DataCon) : Prop :=
  c.name.IsWord Char.isAlphanum Char.isAlphanum ∧ ∀ t ∈ c.fields, t.Readable

instance : DecidablePred Readable := fun c =>
  inferInstanceAs (Decidable (c.name.IsWord Char.isAlphanum Char.isAlphanum ∧
    ∀ t ∈ c.fields, t.Readable))

/-- The constructor without the flags and annotations of its fields. -/
def bare (c : DataCon) : DataCon := ⟨c.name, c.fields.map Ty.bare⟩

/-- Takes one field. -/
def fieldReader (n : Nat) : Reader Ty := do
  skip " "
  Ty.operand (Ty.reader n)

/-- Takes a constructor with fields of at most `n` forms each. -/
def reader (n : Nat) : Reader DataCon := do
  let x ← word Char.isAlphanum Char.isAlphanum
  let ts ← many (fieldReader n)
  return ⟨x, ts⟩

/-- No field goes on here, and no further one follows. -/
def Follows (n : Nat) (rest : List Char) : Prop := Ty.Follows rest ∧ (fieldReader n).Fails rest

theorem follows_nil (n : Nat) : Follows n [] := ⟨ends_nil _, rfl⟩

theorem follows_bar (n : Nat) (rest : List Char) : Follows n (" | ".toList ++ rest) :=
  ⟨ends_cons.2 rfl, rfl⟩

theorem reads_text {c : DataCon} (hc : c.Readable) (hn : ∀ t ∈ c.fields, t.size ≤ n)
    (hrest : Follows n rest) : (reader n).Reads (c.text.toList ++ rest) c.bare rest := by
  obtain ⟨hname, hfields⟩ := hc
  have hmany : (many (fieldReader n)).Reads
      ((c.fields.flatMap fun t => " ".toList ++ (t.guarded t.text).toList) ++ rest)
      (c.fields.map Ty.bare) rest := by
    refine reads_many Ty.Follows (fun t ht rest hrest => ?field)
      (fun t _ => List.cons_ne_nil _ _) (fun t _ rest => ends_cons.2 rfl) hrest.1 hrest.2
    rw [List.append_assoc]
    exact (reads_skip " " _).bind (Ty.reads_guarded (fun _ _ => Ty.slotReadable_none)
      (Ty.reads_written (fun _ _ => Ty.slotReadable_none) n) (hn t ht) (hfields t ht) hrest)
  have hends : Ends Char.isAlphanum
      ((c.fields.flatMap fun t => " ".toList ++ (t.guarded t.text).toList) ++ rest) :=
    follows_flatMap (fun _ _ _ => ends_cons.2 rfl) hrest.1.ends
  rw [text, String.toList_append, String.toList_join, List.flatMap_map, List.append_assoc]
  simp only [String.toList_append]
  exact (hname.reads hends).bind (hmany.bind (reads_pure _ _))

end DataCon

/-! ## Definitions -/

namespace DataDef

/-- The name is a word of letters and digits, and the constructors can be read. -/
def Readable (d : DataDef) : Prop :=
  d.name.IsWord Char.isAlphanum Char.isAlphanum ∧ ∀ c ∈ d.constructors, c.Readable

instance : DecidablePred Readable := fun d =>
  inferInstanceAs (Decidable (d.name.IsWord Char.isAlphanum Char.isAlphanum ∧
    ∀ c ∈ d.constructors, c.Readable))

/-- The definition without the flags and annotations of all fields. -/
def bare (d : DataDef) : DataDef := ⟨d.name, d.constructors.map DataCon.bare⟩

/-- Takes a definition with fields of at most `n` forms each. -/
def reader (n : Nat) : Reader DataDef := do
  skip "data "
  let x ← word Char.isAlphanum Char.isAlphanum
  (do
    skip " = "
    let c ← DataCon.reader n
    let cs ← many do
      skip " | "
      DataCon.reader n
    return ⟨x, c :: cs⟩) <|> pure ⟨x, []⟩

theorem text_cons (x : Name) (c : DataCon) (cs : List DataCon) :
    (text ⟨x, c :: cs⟩).toList = "data ".toList ++ (x.text.toList ++ (" = ".toList ++
      (c.text.toList ++ cs.flatMap fun c => " | ".toList ++ c.text.toList))) := by
  simp only [text, List.map_cons, String.toList_append, toList_intercalate_cons, List.flatMap_map,
    List.append_assoc]

theorem reads_text {d : DataDef} (hd : d.Readable)
    (hn : ∀ c ∈ d.constructors, ∀ t ∈ c.fields, t.size ≤ n) :
    (reader n).Reads d.text.toList d.bare [] := by
  obtain ⟨x, cs⟩ := d
  obtain ⟨hname, hcons⟩ := hd
  cases cs with
  | nil =>
    rw [text, String.append_empty, String.toList_append]
    refine (reads_skip "data " _).bind ?_
    rw [← List.append_nil x.text.toList]
    refine (hname.reads (ends_nil _)).bind (Fails.or_reads (Fails.bind rfl) ?_)
    exact reads_pure _ []
  | cons c cs =>
    rw [List.forall_mem_cons] at hcons hn
    have hbar : ∀ c ∈ cs, ∀ rest,
        DataCon.Follows n ((" | ".toList ++ c.text.toList) ++ rest) := fun c _ rest => by
      rw [List.append_assoc]
      exact DataCon.follows_bar n _
    have hmany : (many do skip " | "; DataCon.reader n).Reads
        ((cs.flatMap fun c => " | ".toList ++ c.text.toList) ++ []) (cs.map DataCon.bare) [] := by
      refine reads_many (DataCon.Follows n) (fun c hc rest hrest => ?_)
        (fun c _ => List.cons_ne_nil _ _) hbar (DataCon.follows_nil n) (Fails.bind rfl)
      rw [List.append_assoc]
      exact (reads_skip " | " _).bind (DataCon.reads_text (hcons.2 c hc) (hn.2 c hc) hrest)
    have hfirst := DataCon.reads_text hcons.1 hn.1 (follows_flatMap hbar (DataCon.follows_nil n))
    rw [List.append_nil] at hmany hfirst
    rw [text_cons]
    refine (reads_skip "data " _).bind ((hname.reads (ends_cons.2 rfl)).bind (Reads.or ?_))
    exact (reads_skip " = " _).bind (hfirst.bind (hmany.bind (reads_pure _ _)))

end DataDef

/-! ## What has the same text -/

theorem DataCon.text_bare (c : DataCon) : c.bare.text = c.text := by
  have hfield (t : Ty) : t.bare.guarded t.bare.text = t.guarded t.text := by
    have htext : t.bare.text = t.text := Ty.render_relabel _ _ t
    rw [Ty.guarded, Ty.guarded, htext, Ty.bare, Ty.isArrow_relabel]
  simp only [text, bare, List.map_map, Function.comp_def, hfield]

theorem DataDef.text_bare (d : DataDef) : d.bare.text = d.text := by
  obtain ⟨x, cs⟩ := d
  cases cs with
  | nil => rfl
  | cons c cs => simp [text, bare, Function.comp_def, DataCon.text_bare]

theorem DataCon.text_eq_iff {c e : DataCon} (hc : c.Readable) (he : e.Readable) :
    c.text = e.text ↔ c.bare = e.bare := by
  constructor
  · intro htext
    have hbound : ∀ t ∈ c.fields ++ e.fields, t.size ≤ Ty.sizeAll (c.fields ++ e.fields) :=
      fun t => Ty.size_le_sizeAll
    rw [List.forall_mem_append] at hbound
    have hc := reads_text hc hbound.1 (follows_nil _)
    have he := reads_text he hbound.2 (follows_nil _)
    rw [htext] at hc
    exact hc.unique he
  · intro hbare
    rw [← c.text_bare, ← e.text_bare, hbare]

theorem DataDef.text_eq_iff {d e : DataDef} (hd : d.Readable) (he : e.Readable) :
    d.text = e.text ↔ d.bare = e.bare := by
  constructor
  · intro htext
    have hbound : ∀ c ∈ d.constructors ++ e.constructors, ∀ t ∈ c.fields,
        t.size ≤ Ty.sizeAll ((d.constructors ++ e.constructors).flatMap DataCon.fields) :=
      fun c hc t ht => Ty.size_le_sizeAll (List.mem_flatMap.2 ⟨c, hc, ht⟩)
    rw [List.forall_mem_append] at hbound
    have hd := reads_text hd hbound.1
    have he := reads_text he hbound.2
    rw [htext] at hd
    exact hd.unique he
  · intro hbare
    rw [← d.text_bare, ← e.text_bare, hbare]

/-- **Types and data definitions can be read in one way only.** The names being words that tell
data types, basic kinds and variables apart, and no tuple having exactly one item, two types have
the same text with annotations exactly if they differ in flags only, and the same text without
annotations exactly if they differ in flags and annotations only. Constructors and definitions have
the same text exactly if they are the same up to flags and annotations in the types of fields. -/
theorem DataDef.unique_reading :
    (∀ s t : Ty, s.Readable → t.Readable →
      (s.annotatedText = t.annotatedText ↔ s.unflagged = t.unflagged)) ∧
    (∀ s t : Ty, s.Readable → t.Readable → (s.text = t.text ↔ s.bare = t.bare)) ∧
    (∀ c e : DataCon, c.Readable → e.Readable → (c.text = e.text ↔ c.bare = e.bare)) ∧
    ∀ d e : DataDef, d.Readable → e.Readable → (d.text = e.text ↔ d.bare = e.bare) :=
  ⟨fun _ _ => Ty.annotatedText_eq_iff, fun _ _ => Ty.text_eq_iff, fun _ _ => DataCon.text_eq_iff,
    fun _ _ => DataDef.text_eq_iff⟩

/-- An arrow from arrows to pairs. -/
def Ty.transformer (a : Option Name) (flag : Bool) : Ty :=
  .arrow a flag (.arrow none true (.basic a .integer) (.var ⟨"a"⟩))
    (.tuple none [.list a (.data none ⟨"Tree"⟩), .tuple a []])

/-- `data Tree = Leaf | Node ((Integer -> a) -> ([Tree], ())) Tree` -/
def DataDef.tree (a : Option Name) (flag : Bool) : DataDef :=
  ⟨⟨"Tree"⟩, [⟨⟨"Leaf"⟩, []⟩, ⟨⟨"Node"⟩, [.transformer a flag, .data a ⟨"Tree"⟩]⟩]⟩

theorem DataDef.unique_reading_tree :
    (Ty.transformer (some ⟨"r"⟩) true).Readable ∧ (Ty.transformer (some ⟨"r"⟩) false).Readable ∧
      (Ty.transformer (some ⟨"r"⟩) true).annotatedText =
        "(Integer^r -> a) ->^r ([Tree]^r, ()^r)" ∧
      (Ty.transformer (some ⟨"r"⟩) true).unflagged =
        (Ty.transformer (some ⟨"r"⟩) false).unflagged ∧
      (Ty.transformer (some ⟨"r"⟩) true).bare = (Ty.transformer none false).bare ∧
      (tree (some ⟨"r"⟩) true).Readable ∧ (tree none false).Readable ∧
      (tree none false).text = "data Tree = Leaf | Node ((Integer -> a) -> ([Tree], ())) Tree" ∧
      (tree (some ⟨"r"⟩) true).bare = (tree none false).bare := by
  obtain ⟨hannotated, hplain, -, hdef⟩ := unique_reading
  have hr : (Ty.transformer (some ⟨"r"⟩) true).Readable := by decide +kernel
  have hr' : (Ty.transformer (some ⟨"r"⟩) false).Readable := by decide +kernel
  have hn : (Ty.transformer none false).Readable := by decide +kernel
  have htree : (tree (some ⟨"r"⟩) true).Readable := by decide +kernel
  have htree' : (tree none false).Readable := by decide +kernel
  exact ⟨hr, hr', by decide +kernel, (hannotated _ _ hr hr').1 (by decide +kernel),
    (hplain _ _ hr hn).1 (by decide +kernel), htree, htree', by decide +kernel,
    (hdef _ _ htree htree').1 (by decide +kernel)⟩

end Letrec
