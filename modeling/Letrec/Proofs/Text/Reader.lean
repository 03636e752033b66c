import Letrec.Name.Basic
import Mathlib.Data.List.Basic

/-!
# Readers

A text can be read in one way only if a reader gives back what was written, whatever follows it. A
`Reader` takes a value off the front of a list of characters or fails. `p.Reads s b rest` says that
it takes `b` off `s` and leaves `rest`, and has one rule for each way to put readers together.

What may follow a written value is part of the matter: a word ends where the next character cannot
continue it (`Ends`), a repetition where the next item cannot be read (`reads_many`).
-/

namespace Letrec

/-- Takes a value off the front of a text, or fails. -/
abbrev Reader (β : Type) := StateT (List Char) Option β

namespace Reader

variable {β γ δ : Type} {p q : Reader β} {k : β → Reader γ} {s s' rest : List Char} {b : β} {c : γ}

/-- The reader takes `b` off the front of `s` and leaves `rest`. -/
def Reads (p : Reader β) (s : List Char) (b : β) (rest : List Char) : Prop :=
  p.run s = some (b, rest)

/-- The reader takes nothing off the front of `s`. -/
def Fails (p : Reader β) (s : List Char) : Prop := p.run s = none

theorem reads_pure (b : β) (s : List Char) : (pure b : Reader β).Reads s b s := rfl

theorem Reads.bind (hp : p.Reads s b s') (hk : (k b).Reads s' c rest) :
    (p >>= k).Reads s c rest := by
  rw [Reads, StateT.run_bind, hp]
  exact hk

theorem Reads.map (hp : p.Reads s b rest) (f : β → γ) : (f <$> p).Reads s (f b) rest := by
  rw [Reads, StateT.run_map, hp]
  rfl

theorem Fails.bind (hp : p.Fails s) : (p >>= k).Fails s := by
  rw [Fails, StateT.run_bind, hp]
  rfl

theorem Fails.map {f : β → γ} (hp : p.Fails s) : (f <$> p).Fails s := by
  rw [Fails, StateT.run_map, hp]
  rfl

theorem Reads.fails_bind (hp : p.Reads s b s') (hk : (k b).Fails s') : (p >>= k).Fails s := by
  rw [Fails, StateT.run_bind, hp]
  exact hk

theorem Reads.unique {b' : β} {rest' : List Char} (h : p.Reads s b rest)
    (h' : p.Reads s b' rest') : b = b' :=
  congrArg Prod.fst (Option.some.inj (h.symm.trans h'))

theorem run_orElse (p q : Reader β) (s : List Char) :
    (p <|> q).run s = (p.run s <|> q.run s) := rfl

theorem Reads.or (hp : p.Reads s b rest) : (p <|> q).Reads s b rest := by
  rw [Reads, run_orElse, hp]
  rfl

/-- The second reader is tried where the first one fails. -/
theorem Fails.or_reads (hp : p.Fails s) (hq : q.Reads s b rest) : (p <|> q).Reads s b rest := by
  rw [Reads, run_orElse, hp]
  exact hq

theorem Fails.or (hp : p.Fails s) (hq : q.Fails s) : (p <|> q).Fails s := by
  rw [Fails, run_orElse, hp]
  exact hq

/-! ## Fixed texts -/

/-- Takes this very text. -/
def skip (t : String) : Reader Unit := fun s => (s.dropPrefix? t.toList).map ((), ·)

theorem reads_skip (t : String) (rest : List Char) : (skip t).Reads (t.toList ++ rest) () rest := by
  show (((t.toList ++ rest).dropPrefix? t.toList).map ((), ·)) = _
  rw [List.dropPrefix?_append_of_beq rest (beq_self_eq_true _)]
  rfl

theorem fails_skip {t : String} {a : Char} (ht : t.toList.head? = some a) (hs : s.head? ≠ some a) :
    (skip t).Fails s := by
  have hdrop : s.dropPrefix? t.toList = none := by
    cases htext : t.toList with
    | nil => simp [htext] at ht
    | cons b w =>
      obtain rfl : b = a := by simpa [htext] using ht
      cases s with
      | nil => rfl
      | cons c s =>
        have hne : c ≠ b := by simpa using hs
        simp [List.dropPrefix?, hne]
  show ((s.dropPrefix? t.toList).map ((), ·)) = none
  rw [hdrop]
  rfl

/-- A separator stands before every text but the first. -/
theorem toList_intercalate_cons (sep t : String) (ts : List String) :
    (sep.intercalate (t :: ts)).toList =
      t.toList ++ ts.flatMap fun u => sep.toList ++ u.toList := by
  induction ts generalizing t with
  | nil => simp
  | cons u ts ih =>
    rw [String.intercalate_cons_cons, String.toList_append, String.toList_append, ih,
      List.flatMap_cons, List.append_assoc, List.append_assoc]

/-! ## Runs of characters -/

/-- The text does not go on with one of these characters. -/
def Ends (more : Char → Bool) (s : List Char) : Prop := ∀ c ∈ s.head?, more c = false

theorem ends_nil (more : Char → Bool) : Ends more [] := by simp [Ends]

theorem ends_cons {more : Char → Bool} {a : Char} : Ends more (a :: s) ↔ more a = false := by
  simp [Ends]

/-- Takes one of these characters. -/
def oneOf (first : Char → Bool) : Reader Char := fun s =>
  match s with
  | a :: s => if first a then some (a, s) else none
  | [] => none

theorem reads_oneOf {first : Char → Bool} {a : Char} (ha : first a = true) (rest : List Char) :
    (oneOf first).Reads (a :: rest) a rest := if_pos ha

theorem fails_oneOf {first : Char → Bool} (hs : Ends first s) : (oneOf first).Fails s := by
  cases s with
  | nil => rfl
  | cons a s => exact if_neg (by simp [ends_cons.1 hs])

/-- Takes as many of these characters as there are. -/
def takeWhile (more : Char → Bool) : Reader (List Char) := fun s =>
  some (s.takeWhile more, s.dropWhile more)

theorem reads_takeWhile {more : Char → Bool} {w : List Char} (hw : ∀ a ∈ w, more a = true)
    (hrest : Ends more rest) : (takeWhile more).Reads (w ++ rest) w rest := by
  have hnone : rest.takeWhile more = [] ∧ rest.dropWhile more = rest := by
    cases rest with
    | nil => exact ⟨rfl, rfl⟩
    | cons a rest => simp [ends_cons.1 hrest]
  show some (_, _) = _
  rw [List.takeWhile_append_of_pos hw, List.dropWhile_append_of_pos hw, hnone.1, hnone.2,
    List.append_nil]

/-! ## Repetition -/

/-- Takes up to `n` items, one after another. -/
def manyUpTo (p : Reader β) : Nat → Reader (List β)
  | 0 => pure []
  | n + 1 => (do
      let b ← p
      let bs ← manyUpTo p n
      return b :: bs) <|> pure []

/-- Takes as many items as there are. None of them is empty, so that there are no more items than
characters. -/
def many (p : Reader β) : Reader (List β) := fun s => manyUpTo p s.length s

theorem reads_manyUpTo_nil (hp : p.Fails rest) (n : Nat) :
    (manyUpTo p n).Reads rest [] rest := by
  cases n with
  | zero => exact reads_pure [] rest
  | succ n => exact hp.bind.or_reads (reads_pure [] rest)

/-- Before and behind every item stands a text that `Follows`. -/
theorem follows_flatMap {Follows : List Char → Prop} {f : δ → List Char} {xs : List δ}
    (hfollows : ∀ x ∈ xs, ∀ rest, Follows (f x ++ rest)) (hrest : Follows rest) :
    Follows (xs.flatMap f ++ rest) := by
  cases xs with
  | nil => exact hrest
  | cons x xs =>
    rw [List.flatMap_cons, List.append_assoc]
    exact hfollows x List.mem_cons_self _

/-- What stands behind an item has to let it end: it `Follows`. -/
theorem reads_many (Follows : List Char → Prop) {f : δ → List Char} {g : δ → β} {xs : List δ}
    (hp : ∀ x ∈ xs, ∀ rest, Follows rest → p.Reads (f x ++ rest) (g x) rest)
    (hf : ∀ x ∈ xs, f x ≠ []) (hfollows : ∀ x ∈ xs, ∀ rest, Follows (f x ++ rest))
    (hrest : Follows rest) (hend : p.Fails rest) :
    (many p).Reads (xs.flatMap f ++ rest) (xs.map g) rest := by
  -- as long as the bound is not smaller than the text, it does not matter
  suffices h : ∀ n, (xs.flatMap f ++ rest).length ≤ n →
      (manyUpTo p n).Reads (xs.flatMap f ++ rest) (xs.map g) rest from h _ (Nat.le_refl _)
  induction xs with
  | nil => exact fun n _ => reads_manyUpTo_nil hend n
  | cons x xs ih =>
    simp only [List.forall_mem_cons] at hp hf hfollows
    intro n hn
    have hpos : 0 < (f x).length := List.length_pos_of_ne_nil hf.1
    rw [List.flatMap_cons, List.append_assoc] at hn ⊢
    rw [List.length_append] at hn
    cases n with
    | zero => omega
    | succ n =>
      have hnext := follows_flatMap hfollows.2 hrest
      have htail := ih hp.2 hf.2 hfollows.2 n (by omega)
      refine Reads.or ((hp.1 _ hnext).bind (htail.bind ?_))
      exact reads_pure _ rest

/-! ## Letters and digits -/

theorem isUpper_iff {c : Char} :
    c.isUpper = true ↔ 'A'.val.toNat ≤ c.val.toNat ∧ c.val.toNat ≤ 'Z'.val.toNat :=
  decide_eq_true_iff

theorem isLower_iff {c : Char} :
    c.isLower = true ↔ 'a'.val.toNat ≤ c.val.toNat ∧ c.val.toNat ≤ 'z'.val.toNat :=
  Bool.and_eq_true_iff.trans (and_congr decide_eq_true_iff decide_eq_true_iff)

theorem isDigit_iff {c : Char} :
    c.isDigit = true ↔ '0'.val.toNat ≤ c.val.toNat ∧ c.val.toNat ≤ '9'.val.toNat :=
  Bool.and_eq_true_iff.trans (and_congr decide_eq_true_iff decide_eq_true_iff)

theorem isAlpha_iff {c : Char} : c.isAlpha = true ↔ c.isUpper = true ∨ c.isLower = true :=
  Bool.or_eq_true_iff

theorem isAlphanum_iff {c : Char} : c.isAlphanum = true ↔ c.isAlpha = true ∨ c.isDigit = true :=
  Bool.or_eq_true_iff

theorem isAlphanum_of_isUpper {c : Char} (hc : c.isUpper = true) : c.isAlphanum = true :=
  isAlphanum_iff.2 (.inl (isAlpha_iff.2 (.inl hc)))

theorem isAlphanum_of_isLower {c : Char} (hc : c.isLower = true) : c.isAlphanum = true :=
  isAlphanum_iff.2 (.inl (isAlpha_iff.2 (.inr hc)))

theorem isLower_of_isUpper {c : Char} (hc : c.isUpper = true) : c.isLower = false := by
  have : 'Z'.val.toNat < 'a'.val.toNat := by decide
  rw [isUpper_iff] at hc
  rw [Bool.eq_false_iff, ne_eq, isLower_iff]
  omega

theorem isDigit_of_isAlpha {c : Char} (hc : c.isAlpha = true) : c.isDigit = false := by
  have : '9'.val.toNat < 'A'.val.toNat := by decide
  have : 'A'.val.toNat < 'a'.val.toNat := by decide
  rw [isAlpha_iff, isUpper_iff, isLower_iff] at hc
  rw [Bool.eq_false_iff, ne_eq, isDigit_iff]
  omega

/-! ## Words -/

/-- Takes a word as far as it goes: one of the characters `first`, and then any of `more`. -/
def word (first more : Char → Bool) : Reader Name := do
  let a ← oneOf first
  let w ← takeWhile more
  return ⟨String.ofList (a :: w)⟩

end Reader

/-- The name is a word: one of the characters `first`, and then only such as are in `more`. -/
def Name.IsWord (first more : Char → Bool) (x : Name) : Prop :=
  ∃ a w, x.text.toList = a :: w ∧ first a = true ∧ ∀ b ∈ w, more b = true

instance (first more : Char → Bool) (x : Name) : Decidable (x.IsWord first more) :=
  match htext : x.text.toList with
  | [] => isFalse fun ⟨a, w, hx, _⟩ => by simp [htext] at hx
  | a :: w => decidable_of_iff (first a = true ∧ w.all more = true)
      ⟨fun ⟨ha, hw⟩ => ⟨a, w, htext, ha, List.all_eq_true.1 hw⟩, fun ⟨b, v, hx, hb, hv⟩ => by
        obtain ⟨rfl, rfl⟩ := List.cons.inj (htext.symm.trans hx)
        exact ⟨hb, List.all_eq_true.2 hv⟩⟩

theorem Name.IsWord.mono {first first' more : Char → Bool} {x : Name} (hx : x.IsWord first more)
    (hfirst : ∀ a, first a = true → first' a = true) : x.IsWord first' more := by
  obtain ⟨a, w, htext, ha, hw⟩ := hx
  exact ⟨a, w, htext, hfirst a ha, hw⟩

theorem Name.IsWord.reads {first more : Char → Bool} {x : Name} (hx : x.IsWord first more)
    {rest : List Char} (hrest : Reader.Ends more rest) :
    (Reader.word first more).Reads (x.text.toList ++ rest) x rest := by
  obtain ⟨a, w, htext, ha, hw⟩ := hx
  have hx : (⟨String.ofList (a :: w)⟩ : Name) = x := by
    rw [← htext, String.ofList_toList]
  rw [htext, ← hx]
  exact (Reader.reads_oneOf ha _).bind ((Reader.reads_takeWhile hw hrest).bind
    (Reader.reads_pure _ _))

end Letrec
