import Letrec.Proofs.Meaning.Model
import Mathlib.Order.FixedPoints
import Mathlib.Order.CompletePartialOrder

/-!
# A model of tokens

A value is the set of what can be found out about it in finitely many steps. Each such finding is a
`Token`: the value is a literal or a built-in constructor, as a function it maps arguments with
certain tokens to a result with a token, or it is data of some constructor and has a field with a
token. `Term.tokens` reads terms in this way, lets and fixed points as least sets and a case as the
alternatives whose patterns match. What a term finds out depends on finitely many tokens of its names
only (`finitary_tokens`), so that abstractions can be applied to their arguments and `tokenModel` is
a model.
-/

namespace Letrec

/-- A finding about a value. -/
inductive Token where
  | lit (value : Literal)
  | builtin (value : Builtin)
  /-- A function whose result has the token where the argument has all of `args`. -/
  | maps (args : List Token) (result : Token)
  /-- Data of a constructor. -/
  | con (constructor : Name)
  | field (constructor : Name) (position : Nat) (token : Token)

/-- Whether a value is known to have the form of a pattern. -/
def Pattern.Matches : Pattern → Set Token → Prop
  | var _, _ => True
  | con c _, s => .con c ∈ s

/-- What the names of a pattern stand for where it is matched with a value. -/
def Pattern.parts : Pattern → Set Token → Valuation (Set Token)
  | var _, s => fun _ => s
  | con c xs, s => fun x => {t | ∃ i, xs[i]? = some x ∧ .field c i t ∈ s}

namespace Token

def apply (f d : Set Token) : Set Token := {t | ∃ args, .maps args t ∈ f ∧ ∀ u ∈ args, u ∈ d}

def abstract (F : Set Token → Set Token) : Set Token :=
  {t | ∃ args u, t = .maps args u ∧ u ∈ F {v | v ∈ args}}

def least (F : Set Token → Set Token) : Set Token := sInf {d | F d ≤ d}

end Token

section
variable {α : Type}

mutual

/-- What can be found out about the value of a term. -/
def Term.tokens : Term α → Valuation (Set Token) → Set Token
  | lit _ v, _ => {.lit v}
  | var _ _ x, ρ => ρ x
  | builtin _ c, _ => {.builtin c}
  | app _ f s, ρ => Token.apply (f.tokens ρ) (s.tokens ρ)
  | lam _ x b, ρ => Token.abstract fun d => b.tokens (ρ.set x d)
  | letIn _ x e b, ρ => b.tokens (ρ.set x (Token.least fun d => e.tokens (ρ.set x d)))
  | caseOf _ s alts, ρ => Term.tokensAlts alts ρ (s.tokens ρ)
  | fix _ b, ρ => Token.least (Token.apply (b.tokens ρ))

def Term.tokensAlts :
    List (Alternative α) → Valuation (Set Token) → Set Token → Set Token
  | [], _, _ => ∅
  | (p, t) :: alts, ρ, s =>
    {u | p.Matches s ∧ u ∈ t.tokens (ρ.override p.bound (p.parts s))} ∪ Term.tokensAlts alts ρ s

end

theorem Term.mem_tokensAlts {alts : List (Alternative α)} {ρ : Valuation (Set Token)}
    {s : Set Token} {t : Token} :
    t ∈ Term.tokensAlts alts ρ s ↔
      ∃ alt ∈ alts, alt.1.Matches s ∧
        t ∈ alt.2.tokens (ρ.override alt.1.bound (alt.1.parts s)) := by
  induction alts with
  | nil => simp [Term.tokensAlts]
  | cons alt alts ih => simp [Term.tokensAlts, ih]

end

/-! ## Finding out from finitely many tokens -/

namespace Token

variable {ι κ : Type}

/-- The values of `v` have these tokens. -/
def Holds (l : List (ι × Token)) (v : ι → Set Token) : Prop := ∀ p ∈ l, p.2 ∈ v p.1

/-- A token of the result needs finitely many tokens of the arguments. -/
def Finitary (f : (ι → Set Token) → Set Token) : Prop :=
  ∀ v t, t ∈ f v → ∃ l, Holds l v ∧ ∀ w, Holds l w → t ∈ f w

theorem Holds.mono {l : List (ι × Token)} {v w : ι → Set Token} (h : Holds l v) (hvw : v ≤ w) :
    Holds l w :=
  fun p hp => hvw p.1 (h p hp)

theorem holds_nil {v : ι → Set Token} : Holds [] v :=
  List.forall_mem_nil _

theorem holds_singleton {i : ι} {t : Token} {v : ι → Set Token} : Holds [(i, t)] v ↔ t ∈ v i :=
  List.forall_mem_singleton

theorem holds_append {l l' : List (ι × Token)} {v : ι → Set Token} :
    Holds (l ++ l') v ↔ Holds l v ∧ Holds l' v :=
  List.forall_mem_append

theorem Finitary.mono {f : (ι → Set Token) → Set Token} (hf : Finitary f) : Monotone f := by
  intro v w hvw t ht
  obtain ⟨l, hl, hmem⟩ := hf v t ht
  exact hmem w (hl.mono hvw)

theorem finitary_proj (i : ι) : Finitary fun v : ι → Set Token => v i := by
  intro v t ht
  exact ⟨[(i, t)], holds_singleton.2 ht, fun w hw => holds_singleton.1 hw⟩

theorem finitary_const (s : Set Token) : Finitary fun _ : ι → Set Token => s :=
  fun _ _ ht => ⟨[], holds_nil, fun _ _ => ht⟩

/-- What finitely many tokens need, each for itself, they need together. -/
theorem exists_holds {l : List (ι × Token)} {v : κ → Set Token}
    (G : (κ → Set Token) → ι → Set Token)
    (h : ∀ p ∈ l, ∃ l', Holds l' v ∧ ∀ w, Holds l' w → p.2 ∈ G w p.1) :
    ∃ l', Holds l' v ∧ ∀ w, Holds l' w → Holds l (G w) := by
  induction l with
  | nil => exact ⟨[], holds_nil, fun _ _ => holds_nil⟩
  | cons p l ih =>
    obtain ⟨lp, hlp, hp⟩ := h p List.mem_cons_self
    obtain ⟨l', hl', hl⟩ := ih fun q hq => h q (List.mem_cons_of_mem p hq)
    refine ⟨lp ++ l', holds_append.2 ⟨hlp, hl'⟩, fun w hw q hq => ?_⟩
    obtain ⟨hwp, hw⟩ := holds_append.1 hw
    rcases List.mem_cons.1 hq with rfl | hq
    · exact hp w hwp
    · exact hl w hw q hq

theorem Finitary.comp {f : (ι → Set Token) → Set Token} {G : (κ → Set Token) → ι → Set Token}
    (hf : Finitary f) (hG : ∀ i, Finitary fun v => G v i) : Finitary fun v => f (G v) := by
  intro v t ht
  obtain ⟨l, hl, hmem⟩ := hf (G v) t ht
  obtain ⟨l', hl', hG'⟩ := exists_holds G fun p hp => hG p.1 v p.2 (hl p hp)
  exact ⟨l', hl', fun w hw => hmem _ (hG' w hw)⟩

theorem Finitary.apply {f g : (ι → Set Token) → Set Token} (hf : Finitary f) (hg : Finitary g) :
    Finitary fun v => apply (f v) (g v) := by
  rintro v t ⟨args, hmaps, hargs⟩
  obtain ⟨l, hl, hmem⟩ := hf v _ hmaps
  have hneeds : ∀ p ∈ args.map (fun u => ((), u)),
      ∃ l', Holds l' v ∧ ∀ w, Holds l' w → p.2 ∈ g w := by
    intro p hp
    obtain ⟨u, hu, rfl⟩ := List.mem_map.1 hp
    exact hg v u (hargs u hu)
  obtain ⟨l', hl', hmem'⟩ := exists_holds (fun w _ => g w) hneeds
  refine ⟨l ++ l', holds_append.2 ⟨hl, hl'⟩, fun w hw => ?_⟩
  obtain ⟨hw, hw'⟩ := holds_append.1 hw
  exact ⟨args, hmem w hw, fun u hu => hmem' w hw' _ (List.mem_map_of_mem hu)⟩

theorem Finitary.abstract {F : (ι → Set Token) → Set Token → Set Token}
    (hF : ∀ args : List Token, Finitary fun v => F v {u | u ∈ args}) :
    Finitary fun v => abstract (F v) := by
  rintro v t ⟨args, u, rfl, hu⟩
  obtain ⟨l, hl, hmem⟩ := hF args v u hu
  exact ⟨l, hl, fun w hw => ⟨args, u, rfl, hmem w hw⟩⟩

/-- An abstraction is applied by giving its argument to the function. -/
theorem apply_abstract {F : Set Token → Set Token}
    (hF : Finitary fun v : Unit → Set Token => F (v ())) (d : Set Token) :
    apply (abstract F) d = F d := by
  ext t
  refine ⟨fun ht => ?_, fun ht => ?_⟩
  · obtain ⟨args, ⟨_, _, hmaps, ht⟩, hargs⟩ := ht
    cases hmaps
    exact hF.mono (show (fun _ : Unit => {u | u ∈ args}) ≤ fun _ => d from fun _ => hargs) ht
  · obtain ⟨l, hl, hmem⟩ := hF (fun _ => d) t ht
    refine ⟨l.map Prod.snd, ⟨_, t, rfl, ?_⟩, fun u hu => ?_⟩
    · exact hmem (fun _ => {u | u ∈ l.map Prod.snd}) fun p hp => List.mem_map_of_mem hp
    · obtain ⟨p, hp, rfl⟩ := List.mem_map.1 hu
      exact hl p hp

/-- Data of a constructor with one field. -/
def data (c : Name) (s : Set Token) : Set Token := {t | t = .con c ∨ ∃ u ∈ s, t = .field c 0 u}

theorem field_mem_data_iff {c : Name} {s : Set Token} {u : Token} :
    .field c 0 u ∈ data c s ↔ u ∈ s := by
  simp [data]

theorem con_mem_data_iff {c c' : Name} {s : Set Token} : .con c' ∈ data c s ↔ c' = c := by
  simp [data]

theorem finitary_data (c : Name) : Finitary fun v : Unit → Set Token => data c (v ()) := by
  rintro v t (rfl | ⟨u, hu, rfl⟩)
  · exact ⟨[], holds_nil, fun _ _ => .inl rfl⟩
  · exact ⟨[((), u)], holds_singleton.2 hu, fun w hw => .inr ⟨u, holds_singleton.1 hw, rfl⟩⟩

theorem isLeast_least {F : Set Token → Set Token} (hF : Monotone F) :
    IsLeast {d | F d ≤ d} (least F) :=
  OrderHom.isLeast_lfp_le ⟨F, hF⟩

theorem Finitary.mono_bound {F : (ι → Set Token) → Set Token → Set Token}
    (hF : Finitary fun v : Option ι → Set Token => F (fun i => v (some i)) (v none))
    (v : ι → Set Token) : Monotone (F v) := by
  intro d e hde
  refine hF.mono (show (fun o : Option ι => o.elim d v) ≤ fun o => o.elim e v from ?_)
  intro o
  cases o with
  | none => exact hde
  | some i => exact le_refl (v i)

/-- The tokens that finitely many tokens lead to make a set that the function keeps. -/
theorem Finitary.least {F : (ι → Set Token) → Set Token → Set Token}
    (hF : Finitary fun v : Option ι → Set Token => F (fun i => v (some i)) (v none)) :
    Finitary fun v => least (F v) := by
  intro v
  obtain ⟨s, hs⟩ : ∃ s : Set Token,
      ∀ t, t ∈ s ↔ ∃ l, Holds l v ∧ ∀ w, Holds l w → t ∈ Token.least (F w) :=
    ⟨{t | ∃ l, Holds l v ∧ ∀ w, Holds l w → t ∈ Token.least (F w)}, fun _ => Iff.rfl⟩
  have hkeeps : F v s ≤ s := by
    intro t ht
    obtain ⟨l, hl, hmem⟩ := hF (fun o => o.elim s v) t ht
    have hneeds : ∀ p ∈ l, ∃ l', Holds l' v ∧
        ∀ w, Holds l' w → p.2 ∈ (fun o : Option ι => o.elim (Token.least (F w)) w) p.1 := by
      intro p hp
      obtain ⟨o, u⟩ := p
      cases o with
      | none => exact (hs u).1 (hl _ hp)
      | some i => exact finitary_proj i v u (hl _ hp)
    obtain ⟨l', hl', hG⟩ := exists_holds (fun w (o : Option ι) => o.elim (Token.least (F w)) w) hneeds
    refine (hs t).2 ⟨l', hl', fun w hw => ?_⟩
    exact (isLeast_least (hF.mono_bound w)).1 (hmem _ (hG w hw))
  have hle : Token.least (F v) ≤ s := sInf_le hkeeps
  exact fun t ht => (hs t).1 (hle ht)

/-! ## Terms -/

theorem finitary_set {x : Name} {d : (ι → Set Token) → Set Token}
    {ρ : (ι → Set Token) → Valuation (Set Token)} (hd : Finitary d)
    (hρ : ∀ y, Finitary fun v => ρ v y) (y : Name) : Finitary fun v => (ρ v).set x (d v) y := by
  by_cases hy : y = x
  · subst hy
    simpa only [Valuation.set_self] using hd
  · simpa only [Valuation.set_of_ne hy] using hρ y

theorem finitary_parts (p : Pattern) {s : (ι → Set Token) → Set Token} (hs : Finitary s) (x : Name) :
    Finitary fun v => p.parts (s v) x := by
  cases p with
  | var y => exact hs
  | con c xs =>
    intro v t ht
    obtain ⟨i, hi, ht⟩ := ht
    obtain ⟨l, hl, hmem⟩ := hs v _ ht
    exact ⟨l, hl, fun w hw => ⟨i, hi, hmem w hw⟩⟩

/-- That a pattern matches depends on a single token. -/
theorem Finitary.matches {s : (ι → Set Token) → Set Token} (hs : Finitary s) (p : Pattern)
    {v : ι → Set Token} (h : p.Matches (s v)) :
    ∃ l, Holds l v ∧ ∀ w, Holds l w → p.Matches (s w) := by
  cases p with
  | var y => exact ⟨[], holds_nil, fun _ _ => trivial⟩
  | con c xs => exact hs v (.con c) h

end Token

open Token

/-- A term finds out from finitely many tokens of its names. -/
theorem Term.finitary_tokens {α : Type} (t : Term α) : Finitary t.tokens := by
  -- a body whose binder stands for a further argument
  have hbody : ∀ {b : Term α} (x : Name), Finitary b.tokens →
      Finitary fun v : Option Name → Set Token =>
        b.tokens (Valuation.set (fun y => v (some y)) x (v none)) :=
    fun x hb => hb.comp (finitary_set (finitary_proj none) fun y => finitary_proj (some y))
  induction t with
  | lit a v => exact finitary_const _
  | builtin a c => exact finitary_const _
  | var a m x => exact finitary_proj x
  | app a f s ihf ihs => exact ihf.apply ihs
  | lam a x b ih =>
    exact Finitary.abstract fun args => ih.comp (finitary_set (finitary_const _) finitary_proj)
  | letIn a x e b ihe ihb =>
    exact ihb.comp (finitary_set (Finitary.least (hbody x ihe)) finitary_proj)
  | caseOf a s alts ihs ih =>
    intro ρ t ht
    obtain ⟨alt, halt, hmatch, ht⟩ := mem_tokensAlts.1 ht
    have hvalues : ∀ y, Finitary fun ρ : Valuation (Set Token) =>
        ρ.override alt.1.bound (alt.1.parts (s.tokens ρ)) y := by
      intro y
      by_cases hy : y ∈ alt.1.bound
      · simpa only [Valuation.override_of_mem hy] using finitary_parts alt.1 ihs y
      · simpa only [Valuation.override_of_not_mem hy] using finitary_proj y
    obtain ⟨l, hl, hmem⟩ := (ih alt halt).comp hvalues ρ t ht
    obtain ⟨l', hl', hmatch'⟩ := ihs.matches alt.1 hmatch
    refine ⟨l ++ l', holds_append.2 ⟨hl, hl'⟩, fun σ hσ => ?_⟩
    obtain ⟨hσ, hσ'⟩ := holds_append.1 hσ
    exact mem_tokensAlts.2 ⟨alt, halt, hmatch' σ hσ', hmem σ hσ⟩
  | fix a b ih =>
    exact Finitary.least ((ih.comp fun y => finitary_proj (some y)).apply (finitary_proj none))

/-- Sets of tokens are a model. -/
def tokenModel (α : Type) : Model α (Set Token) where
  eval := Term.tokens
  eval_mono t := t.finitary_tokens.mono
  lit _ v := {.lit v}
  builtin _ c := {.builtin c}
  ap := Token.apply
  ap_mono := by
    rintro f f' d d' hf hd t ⟨args, hmaps, hargs⟩
    exact ⟨args, hf hmaps, fun u hu => hd (hargs u hu)⟩
  abs _ _ := Token.abstract
  branch _ s alts := {t | ∃ alt ∈ alts, alt.1.Matches s ∧ t ∈ alt.2 (alt.1.parts s)}
  eval_lit _ _ _ := rfl
  eval_var _ _ _ _ := rfl
  eval_builtin _ _ _ := rfl
  eval_app _ _ _ _ := rfl
  eval_lam _ _ _ _ := rfl
  beta _ x b ρ d :=
    apply_abstract (b.finitary_tokens.comp (finitary_set (finitary_proj ()) fun y =>
      finitary_const (ρ y))) d
  eval_letIn _ x e _ ρ := by
    refine ⟨_, isLeast_least fun d d' hd => ?_, rfl⟩
    exact e.finitary_tokens.mono (Valuation.set_mono (le_refl ρ) hd)
  eval_caseOf _ s alts ρ := by
    ext t
    rw [Term.tokens, Term.mem_tokensAlts]
    simp
  isLeast_fix _ b ρ := isLeast_least fun d d' hd t ⟨args, hmaps, hargs⟩ =>
    ⟨args, hmaps, fun u hu => hd (hargs u hu)⟩

end Letrec
