import Letrec.Proofs.Text.Reader
import Letrec.Ty.Text

/-!
# Reading types

`Ty.reader` takes a type off the front of a text. It reads back what is written, with annotations or
without, if the names are words by which data types, basic kinds and variables can be told apart and
no tuple has exactly one item, since that would look like a type in parentheses (`reads_render`).
So a type can be read off its text, up to what the text leaves out.
-/

namespace Letrec.Ty

open Reader

/-! ## What a text leaves out -/

mutual

/-- The number of forms that the type is made of. -/
def size : Ty → Nat
  | basic .. | data .. | var _ => 1
  | list _ t => t.size + 1
  | tuple _ ts => sizeAll ts + 1
  | arrow _ _ s t => s.size + t.size + 1

def sizeAll : List Ty → Nat
  | [] => 0
  | t :: ts => t.size + sizeAll ts

end

theorem size_le_sizeAll {t : Ty} {ts : List Ty} (h : t ∈ ts) : t.size ≤ sizeAll ts := by
  induction ts with
  | nil => cases h
  | cons u ts ih =>
    rw [sizeAll]
    rcases List.mem_cons.1 h with rfl | h
    · omega
    · have := ih h
      omega

mutual

/-- The same type with other annotations in its slots and without flags. -/
def relabel (f : Option Name → Option Name) : Ty → Ty
  | basic a k => basic (f a) k
  | data a x => data (f a) x
  | list a t => list (f a) (t.relabel f)
  | tuple a ts => tuple (f a) (relabelAll f ts)
  | arrow a _ s t => arrow (f a) false (s.relabel f) (t.relabel f)
  | var x => var x

def relabelAll (f : Option Name → Option Name) : List Ty → List Ty
  | [] => []
  | t :: ts => t.relabel f :: relabelAll f ts

end

theorem relabelAll_eq (f : Option Name → Option Name) (ts : List Ty) :
    relabelAll f ts = ts.map (relabel f) := by
  induction ts with
  | nil => rfl
  | cons t ts ih => simp [relabelAll, ih]

/-- The type without flags. -/
def unflagged (t : Ty) : Ty := t.relabel id

/-- The type without flags and annotations. -/
def bare (t : Ty) : Ty := t.relabel fun _ => none

/-! ## What can be read -/

/-- There is no annotation, or it is a word of letters and digits. -/
def SlotReadable (a : Option Name) : Prop := ∀ x ∈ a, x.IsWord Char.isAlphanum Char.isAlphanum

instance (a : Option Name) : Decidable (SlotReadable a) :=
  inferInstanceAs (Decidable (∀ x ∈ a, x.IsWord Char.isAlphanum Char.isAlphanum))

theorem slotReadable_none : SlotReadable none := fun _ hx => nomatch hx

mutual

/-- All names are words of letters and digits. Those of data types start with an upper-case letter,
those of variables with a lower-case one. No data type is named like a basic kind, and no tuple has
exactly one item. -/
def Readable : Ty → Prop
  | basic a _ => SlotReadable a
  | data a x =>
    SlotReadable a ∧ x.IsWord Char.isUpper Char.isAlphanum ∧ BasicKind.ofName? x.text = none
  | list a t => SlotReadable a ∧ t.Readable
  | tuple a ts => SlotReadable a ∧ ts.length ≠ 1 ∧ ReadableAll ts
  | arrow a _ s t => SlotReadable a ∧ s.Readable ∧ t.Readable
  | var x => x.IsWord Char.isLower Char.isAlphanum

def ReadableAll : List Ty → Prop
  | [] => True
  | t :: ts => t.Readable ∧ ReadableAll ts

end

mutual

def decidableReadable : ∀ t : Ty, Decidable t.Readable
  | basic a _ => inferInstanceAs (Decidable (SlotReadable a))
  | data a x => inferInstanceAs (Decidable (SlotReadable a ∧
      x.IsWord Char.isUpper Char.isAlphanum ∧ BasicKind.ofName? x.text = none))
  | list a t =>
    have := t.decidableReadable
    inferInstanceAs (Decidable (SlotReadable a ∧ t.Readable))
  | tuple a ts =>
    have := decidableReadableAll ts
    inferInstanceAs (Decidable (SlotReadable a ∧ ts.length ≠ 1 ∧ ReadableAll ts))
  | arrow a _ s t =>
    have := s.decidableReadable
    have := t.decidableReadable
    inferInstanceAs (Decidable (SlotReadable a ∧ s.Readable ∧ t.Readable))
  | var x => inferInstanceAs (Decidable (x.IsWord Char.isLower Char.isAlphanum))

def decidableReadableAll : ∀ ts : List Ty, Decidable (ReadableAll ts)
  | [] => isTrue trivial
  | t :: ts =>
    have := t.decidableReadable
    have := decidableReadableAll ts
    inferInstanceAs (Decidable (t.Readable ∧ ReadableAll ts))

end

instance : DecidablePred Readable := decidableReadable

theorem readableAll_iff {ts : List Ty} : ReadableAll ts ↔ ∀ t ∈ ts, t.Readable := by
  induction ts with
  | nil => simp [ReadableAll]
  | cons t ts ih => simp [ReadableAll, ih]

/-! ## The reader -/

/-- An annotation in its written form. -/
def slotText : Option Name → String
  | some a => "^" ++ a.text
  | none => ""

/-- Takes an annotation, if there is one. -/
def slot : Reader (Option Name) :=
  (do
    skip "^"
    let a ← word Char.isAlphanum Char.isAlphanum
    return some a) <|> pure none

def listForm (inner : Reader Ty) : Reader Ty := do
  skip "["
  let t ← inner
  skip "]"
  let a ← slot
  return list a t

/-- Takes a type in parentheses, or a tuple of several items. -/
def parenForm (inner : Reader Ty) : Reader Ty := do
  skip "("
  let t ← inner
  (do
    skip ")"
    return t) <|> (do
    let ts ← many do
      skip ", "
      inner
    skip ")"
    let a ← slot
    return tuple a (t :: ts))

def unitForm : Reader Ty := do
  skip "()"
  let a ← slot
  return tuple a []

/-- The type that is written as one word. -/
def ofWord (a : Option Name) (x : Name) : Ty :=
  if x.text.toList.head?.any Char.isLower then var x
  else
    match BasicKind.ofName? x.text with
    | some k => basic a k
    | none => data a x

def wordForm : Reader Ty := do
  let x ← word Char.isAlphanum Char.isAlphanum
  let a ← slot
  return ofWord a x

/-- Takes a type that is no arrow, or any type in parentheses. -/
def operand (inner : Reader Ty) : Reader Ty :=
  listForm inner <|> parenForm inner <|> unitForm <|> wordForm

/-- Takes a type of at most that many forms. -/
def reader : Nat → Reader Ty
  | 0 => failure
  | n + 1 => do
    let s ← operand (reader n)
    (do
      skip " ->"
      let a ← slot
      skip " "
      let t ← reader n
      return arrow a false s t) <|> pure s

/-! ## What may follow -/

/-- Neither a word nor an annotation goes on here. -/
def Follows (rest : List Char) : Prop := Ends (fun c => c.isAlphanum || c = '^') rest

/-- No type goes on here. -/
def FollowsType (rest : List Char) : Prop := Follows rest ∧ (skip " ->").Fails rest

theorem Follows.ends {rest : List Char} (h : Follows rest) : Ends Char.isAlphanum rest :=
  fun c hc => (Bool.or_eq_false_iff.1 (h c hc)).1

theorem Follows.fails_skip {rest : List Char} (h : Follows rest) : (skip "^").Fails rest := by
  refine Reader.fails_skip (a := '^') rfl fun hc => ?_
  have := h '^' hc
  exact absurd this (by decide)

section
variable {f : Option Name → Option Name} {a : Option Name} {x : Name} {rest : List Char}
  {inner : Reader Ty}

theorem reads_slot (ha : SlotReadable a) (h : Follows rest) :
    slot.Reads ((slotText a).toList ++ rest) a rest := by
  cases a with
  | none => exact h.fails_skip.bind.or_reads (reads_pure _ _)
  | some x =>
    rw [slotText, String.toList_append, List.append_assoc]
    refine Reads.or ((reads_skip "^" _).bind (((ha x rfl).reads h.ends).bind ?_))
    exact reads_pure _ _

theorem Follows.slotText (h : Follows rest) (a : Option Name) :
    Ends Char.isAlphanum ((slotText a).toList ++ rest) := by
  cases a with
  | none => exact h.ends
  | some x =>
    rw [Ty.slotText, String.toList_append, List.append_assoc]
    exact ends_cons.2 rfl

theorem reads_wordForm (hx : x.IsWord Char.isAlphanum Char.isAlphanum) (ha : SlotReadable a)
    (h : Follows rest) :
    (operand inner).Reads (x.text.toList ++ ((slotText a).toList ++ rest)) (ofWord a x) rest := by
  have hread : wordForm.Reads (x.text.toList ++ ((slotText a).toList ++ rest)) (ofWord a x) rest :=
    (hx.reads (h.slotText a)).bind ((reads_slot ha h).bind (reads_pure _ _))
  -- a word does not begin with a bracket
  have hskip : ∀ t : String, ∀ b, t.toList.head? = some b → b.isAlphanum = false →
      (skip t).Fails (x.text.toList ++ ((slotText a).toList ++ rest)) := by
    intro t b ht hb
    obtain ⟨c, w, htext, hc, -⟩ := hx
    refine Reader.fails_skip ht fun hhead => ?_
    rw [htext] at hhead
    obtain rfl : c = b := by simpa using hhead
    rw [hb] at hc
    cases hc
  refine Fails.or_reads (hskip "[" '[' rfl rfl).bind ?_
  refine Fails.or_reads (hskip "(" '(' rfl rfl).bind ?_
  exact Fails.or_reads (hskip "()" '(' rfl rfl).bind hread

/-! ## Words -/

theorem ofWord_name (a : Option Name) (k : BasicKind) : ofWord a ⟨k.name⟩ = basic a k := by
  cases k <;> rfl

theorem ofWord_of_isUpper (a : Option Name) (hx : x.IsWord Char.isUpper Char.isAlphanum)
    (hk : BasicKind.ofName? x.text = none) : ofWord a x = data a x := by
  obtain ⟨c, w, htext, hc, -⟩ := hx
  rw [ofWord, hk, htext]
  simp [isLower_of_isUpper hc]

theorem ofWord_of_isLower (a : Option Name) (hx : x.IsWord Char.isLower Char.isAlphanum) :
    ofWord a x = var x := by
  obtain ⟨c, w, htext, hc, -⟩ := hx
  rw [ofWord, htext]
  simp [hc]

end

/-! ## Types are read back -/

section
variable {f : Option Name → Option Name} {n : Nat}

/-- What is written of a type if its slots are changed by `f`. -/
def written (f : Option Name → Option Name) (t : Ty) : List Char :=
  (t.render fun a => slotText (f a)).toList

/-- The reader reads back every type of at most `n` forms. -/
def ReadsBack (f : Option Name → Option Name) (inner : Reader Ty) (n : Nat) : Prop :=
  ∀ t : Ty, t.size ≤ n → t.Readable → ∀ rest, FollowsType rest →
    inner.Reads (t.written f ++ rest) (t.relabel f) rest

theorem followsType_closing (t : String) (ht : t ∈ ["]", ")", ", "]) (rest : List Char) :
    FollowsType (t.toList ++ rest) := by
  simp only [List.mem_cons, List.not_mem_nil, or_false] at ht
  rcases ht with rfl | rfl | rfl <;> exact ⟨ends_cons.2 rfl, rfl⟩

theorem fails_reader_paren (n : Nat) (rest : List Char) :
    (reader n).Fails (")".toList ++ rest) := by
  cases n with
  | zero => rfl
  | succ n => exact Fails.bind rfl

theorem written_tuple_nil (f : Option Name → Option Name) (a : Option Name) :
    (tuple a []).written f = "()".toList ++ (slotText (f a)).toList := by
  simp [written, render, renderAll]

theorem written_tuple_cons (f : Option Name → Option Name) (a : Option Name) (t : Ty)
    (ts : List Ty) :
    (tuple a (t :: ts)).written f =
      "(".toList ++ (t.written f ++ ((ts.flatMap fun u => ", ".toList ++ u.written f) ++
        (")".toList ++ (slotText (f a)).toList))) := by
  simp only [written, render, renderAll, renderAll_eq, String.toList_append,
    toList_intercalate_cons, List.flatMap_map, List.append_assoc]

/-- The items behind the first one. -/
theorem reads_items {ts : List Ty} (hinner : ∀ t ∈ ts, ∀ rest, FollowsType rest →
      (reader n).Reads (t.written f ++ rest) (t.relabel f) rest) (rest : List Char) :
    (many do skip ", "; reader n).Reads
      ((ts.flatMap fun t => ", ".toList ++ t.written f) ++ (")".toList ++ rest))
      (ts.map (relabel f)) (")".toList ++ rest) := by
  refine reads_many FollowsType (fun t ht rest hrest => ?item)
    (fun t _ => List.cons_ne_nil _ _) (fun t _ rest => ?comma)
    (followsType_closing ")" (by simp) _) (Fails.bind rfl)
  case item =>
    rw [List.append_assoc]
    exact (reads_skip ", " _).bind (hinner t ht rest hrest)
  case comma =>
    rw [List.append_assoc]
    exact followsType_closing ", " (by simp) _

theorem reads_tuple (hf : ∀ a, SlotReadable a → SlotReadable (f a))
    (hinner : ReadsBack f (reader n) n) {a : Option Name} {ts : List Ty}
    (hn : (tuple a ts).size ≤ n + 1) (ht : (tuple a ts).Readable) {rest : List Char}
    (h : Follows rest) :
    (operand (reader n)).Reads ((tuple a ts).written f ++ rest) ((tuple a ts).relabel f) rest := by
  obtain ⟨ha, hlength, hts⟩ := ht
  have hslot := reads_slot (hf a ha) h
  rw [readableAll_iff] at hts
  rw [size] at hn
  have hitem : ∀ t ∈ ts, ∀ rest, FollowsType rest →
      (reader n).Reads (t.written f ++ rest) (t.relabel f) rest := fun t hmem =>
    hinner t (by have := size_le_sizeAll hmem; omega) (hts t hmem)
  match ts with
  | [] =>
    rw [written_tuple_nil, List.append_assoc]
    have hparen : (parenForm (reader n)).Fails ("()".toList ++ ((slotText (f a)).toList ++ rest)) :=
      (reads_skip "(" _).fails_bind (fails_reader_paren n _).bind
    refine Fails.or_reads (Fails.bind rfl) (hparen.or_reads (Reads.or ?_))
    exact (reads_skip "()" _).bind (hslot.bind (reads_pure _ _))
  | [t] => exact absurd rfl hlength
  | t :: u :: ts =>
    rw [List.forall_mem_cons] at hitem
    rw [written_tuple_cons, relabel, relabelAll, relabelAll_eq]
    have hrest := reads_items hitem.2 ((slotText (f a)).toList ++ rest)
    simp only [List.append_assoc] at hrest ⊢
    -- a comma stands behind the first item
    have hcomma := followsType_closing ", " (by simp) (u.written f ++
      ((ts.flatMap fun u => ", ".toList ++ u.written f) ++
        (")".toList ++ ((slotText (f a)).toList ++ rest))))
    simp only [List.flatMap_cons, List.append_assoc] at hrest ⊢
    have hparen : (skip ")").Fails (", ".toList ++ (u.written f ++
      ((ts.flatMap fun u => ", ".toList ++ u.written f) ++
        (")".toList ++ ((slotText (f a)).toList ++ rest))))) := rfl
    refine Fails.or_reads (Fails.bind rfl) (Reads.or ?_)
    refine (reads_skip "(" _).bind ((hitem.1 _ hcomma).bind (hparen.bind.or_reads ?_))
    exact hrest.bind ((reads_skip ")" _).bind (hslot.bind (reads_pure _ _)))

theorem reads_operand (hf : ∀ a, SlotReadable a → SlotReadable (f a))
    (hinner : ReadsBack f (reader n) n) {t : Ty} (hn : t.size ≤ n + 1) (ht : t.Readable)
    (harrow : t.isArrow = false) {rest : List Char} (h : Follows rest) :
    (operand (reader n)).Reads (t.written f ++ rest) (t.relabel f) rest := by
  cases t with
  | basic a k =>
    have hk : (⟨k.name⟩ : Name).IsWord Char.isAlphanum Char.isAlphanum := by
      cases k <;> exact ⟨_, _, rfl, rfl, List.all_eq_true.1 rfl⟩
    rw [written, render, String.toList_append, List.append_assoc, relabel, ← ofWord_name]
    exact reads_wordForm hk (hf a ht) h
  | data a x =>
    obtain ⟨ha, hx, hk⟩ := ht
    rw [written, render, String.toList_append, List.append_assoc, relabel,
      ← ofWord_of_isUpper _ hx hk]
    exact reads_wordForm (hx.mono fun _ => isAlphanum_of_isUpper) (hf a ha) h
  | var x =>
    have hx := ht.mono fun _ => isAlphanum_of_isLower
    have hread : (operand (reader n)).Reads (x.text.toList ++ ((slotText none).toList ++ rest))
        (ofWord none x) rest := reads_wordForm hx slotReadable_none h
    rw [slotText, String.toList_empty, List.nil_append] at hread
    rw [written, render, relabel, ← ofWord_of_isLower none ht]
    exact hread
  | list a t =>
    obtain ⟨ha, ht⟩ := ht
    have hitem := hinner t (by simpa [size] using hn) ht _
      (followsType_closing "]" (by simp) ((slotText (f a)).toList ++ rest))
    simp only [written, render, String.toList_append, List.append_assoc] at hitem ⊢
    refine Reads.or ((reads_skip "[" _).bind (hitem.bind ((reads_skip "]" _).bind ?_)))
    exact (reads_slot (hf a ha) h).bind (reads_pure _ _)
  | tuple a ts => exact reads_tuple hf hinner hn ht h
  | arrow a flag s t => cases harrow

/-- A type that is an argument stands in parentheses if it is an arrow. -/
theorem reads_guarded (hf : ∀ a, SlotReadable a → SlotReadable (f a))
    (hinner : ReadsBack f (reader n) n) {t : Ty} (hn : t.size ≤ n) (ht : t.Readable)
    {rest : List Char} (h : Follows rest) :
    (operand (reader n)).Reads
      ((t.guarded (t.render fun a => slotText (f a))).toList ++ rest) (t.relabel f) rest := by
  cases harrow : t.isArrow with
  | false =>
    rw [guarded, harrow]
    exact reads_operand hf hinner (Nat.le_succ_of_le hn) ht harrow h
  | true =>
    rw [guarded, harrow, if_pos rfl]
    simp only [String.toList_append, List.append_assoc]
    have hitem := hinner t hn ht (")".toList ++ rest) (followsType_closing ")" (by simp) _)
    refine Fails.or_reads (Fails.bind rfl) (Reads.or ((reads_skip "(" _).bind (hitem.bind ?_)))
    exact Reads.or ((reads_skip ")" _).bind (reads_pure _ _))

/-- **Types are read back.** -/
theorem reads_written (hf : ∀ a, SlotReadable a → SlotReadable (f a)) (n : Nat) :
    ReadsBack f (reader n) n := by
  induction n with
  | zero =>
    intro t hn
    cases t <;> simp [size] at hn
  | succ n ih =>
    intro t hn ht rest hrest
    cases harrow : t.isArrow with
    | false =>
      have hoperand := reads_operand hf ih hn ht harrow hrest.1
      exact hoperand.bind (hrest.2.bind.or_reads (reads_pure _ _))
    | true =>
      cases t with
      | arrow a flag s t =>
        obtain ⟨ha, hs, ht⟩ := ht
        rw [size] at hn
        have hcod := ih t (by omega) ht rest hrest
        have hspace : Follows (" ".toList ++ (t.written f ++ rest)) := ends_cons.2 rfl
        have harrow : Follows (" ->".toList ++
          ((slotText (f a)).toList ++ (" ".toList ++ (t.written f ++ rest)))) := ends_cons.2 rfl
        have hslot := reads_slot (hf a ha) hspace
        have hdom := reads_guarded hf ih (by omega) hs harrow
        simp only [written, render, String.toList_append, List.append_assoc] at hcod hslot hdom ⊢
        refine hdom.bind (Reads.or ((reads_skip " ->" _).bind (hslot.bind ?_)))
        exact (reads_skip " " _).bind (hcod.bind (reads_pure _ _))
      | _ => cases harrow

end

/-! ## Texts and what they leave out -/

theorem followsType_nil : FollowsType [] := ⟨ends_nil _, rfl⟩

theorem eq_of_written_eq {f : Option Name → Option Name}
    (hf : ∀ a, SlotReadable a → SlotReadable (f a)) {s t : Ty} (hs : s.Readable) (ht : t.Readable)
    (h : s.written f = t.written f) : s.relabel f = t.relabel f := by
  have hs := reads_written hf (max s.size t.size) s (Nat.le_max_left _ _) hs [] followsType_nil
  have ht := reads_written hf (max s.size t.size) t (Nat.le_max_right _ _) ht [] followsType_nil
  rw [h] at hs
  exact hs.unique ht

@[simp] theorem isArrow_relabel (f : Option Name → Option Name) (t : Ty) :
    (t.relabel f).isArrow = t.isArrow := by
  cases t <;> rfl

mutual

theorem render_relabel (f : Option Name → Option Name) (mark : Option Name → String) :
    ∀ t : Ty, (t.relabel f).render mark = t.render fun a => mark (f a)
  | basic .. | data .. | var _ => by simp [relabel, render]
  | list _ t => by simp [relabel, render, render_relabel f mark t]
  | tuple _ ts => by simp [relabel, render, renderAll_relabelAll f mark ts]
  | arrow _ _ s t => by
    simp [relabel, render, guarded, render_relabel f mark s, render_relabel f mark t]

theorem renderAll_relabelAll (f : Option Name → Option Name) (mark : Option Name → String) :
    ∀ ts : List Ty, renderAll mark (relabelAll f ts) = renderAll (fun a => mark (f a)) ts
  | [] => rfl
  | t :: ts => by
    simp [relabelAll, renderAll, render_relabel f mark t, renderAll_relabelAll f mark ts]

end

theorem written_eq_of_relabel_eq {f : Option Name → Option Name} {s t : Ty}
    (h : s.relabel f = t.relabel f) : s.written f = t.written f := by
  have hrender := congrArg (render slotText) h
  rw [render_relabel, render_relabel] at hrender
  exact congrArg String.toList hrender

theorem written_eq_iff {f : Option Name → Option Name}
    (hf : ∀ a, SlotReadable a → SlotReadable (f a)) {s t : Ty} (hs : s.Readable)
    (ht : t.Readable) : s.written f = t.written f ↔ s.relabel f = t.relabel f :=
  ⟨eq_of_written_eq hf hs ht, written_eq_of_relabel_eq⟩

theorem annotatedText_eq_iff {s t : Ty} (hs : s.Readable) (ht : t.Readable) :
    s.annotatedText = t.annotatedText ↔ s.unflagged = t.unflagged :=
  String.toList_inj.symm.trans (written_eq_iff (fun _ => id) hs ht)

theorem text_eq_iff {s t : Ty} (hs : s.Readable) (ht : t.Readable) :
    s.text = t.text ↔ s.bare = t.bare :=
  String.toList_inj.symm.trans (written_eq_iff (fun _ _ => slotReadable_none) hs ht)

end Letrec.Ty
