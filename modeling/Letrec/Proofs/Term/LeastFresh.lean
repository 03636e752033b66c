import Letrec.Proofs.Term.Fresh
import Letrec.Proofs.Term.Path
import Mathlib.Data.Set.Card
import Mathlib.Order.Interval.Finset.Nat

/-!
# The least fresh name

A fresh name for `x` is looked for among `x'1`, `x'2`, … until one is not in use. `Name.Search` is
this search as it goes on, with no bound on the numbers. It stops: the candidates are distinct, so
that the names in use cannot hold one candidate more than there are of them
(`Name.le_ncard_add_one`). `Name.fresh`, which looks through so many candidates and no more, finds
the same name (`Name.fresh_eq_primed`, `Name.search_iff`).

What is in use in a term is read off its nodes: `Term.names` lists what some node at some depth
mentions, as a variable or as a binder, and nothing else (`Term.mem_names_iff`). `fresh_least` puts
the two together.
-/

namespace Letrec

variable {α : Type}

namespace Name

variable {x : Name} {taken : List Name} {n : Nat}

/-! ## The search -/

/-- The search from a number on, with the name that it stops at. -/
inductive Search (x : Name) (taken : List Name) : Nat → Name → Prop where
  | stop {n : Nat} : x.primed n ∉ taken → Search x taken n (x.primed n)
  | next {n : Nat} {y : Name} : x.primed n ∈ taken → Search x taken (n + 1) y → Search x taken n y

/-- The search stops at one name at most. -/
theorem Search.unique {y z : Name} (hy : x.Search taken n y) (hz : x.Search taken n z) : y = z := by
  induction hy with
  | stop hn =>
    cases hz with
    | stop => rfl
    | next hmem => exact absurd hmem hn
  | next hmem _ ih =>
    cases hz with
    | stop hn => exact absurd hmem hn
    | next _ hz => exact ih hz

/-- As long as all names are taken the search goes on. -/
theorem Search.of_le {m : Nat} {y : Name} (hmn : m ≤ n)
    (htaken : ∀ k, m ≤ k → k < n → x.primed k ∈ taken) (h : x.Search taken n y) :
    x.Search taken m y := by
  induction n, hmn using Nat.le_induction with
  | base => exact h
  | succ n hmn ih =>
    have hn : x.primed n ∈ taken := htaken n hmn (Nat.lt_succ_self n)
    exact ih (fun k hmk hkn => htaken k hmk (Nat.lt_succ_of_lt hkn)) (.next hn h)

/-! ## The least number -/

/-- If all candidates before number `n` are in use, these are as many names. -/
theorem le_ncard_add_one {inUse : Set Name} (hfinite : inUse.Finite)
    (h : ∀ k, 1 ≤ k → k < n → x.primed k ∈ inUse) : n ≤ inUse.ncard + 1 := by
  have hmaps : ∀ k ∈ (Finset.Ico 1 n : Set Nat), x.primed k ∈ inUse := fun k hk => by
    rw [Finset.coe_Ico] at hk
    exact h k hk.1 hk.2
  have hcard := Set.ncard_le_ncard_of_injOn x.primed hmaps x.primed_injective.injOn hfinite
  rw [Set.ncard_coe_finset, Nat.card_Ico] at hcard
  omega

/-- Some candidate is free, since finitely many names are in use. -/
theorem exists_isLeast (x : Name) {inUse : Set Name} (hfinite : inUse.Finite) :
    ∃ n, IsLeast {n | 1 ≤ n ∧ x.primed n ∉ inUse} n := by
  have hfree : ∃ n, 1 ≤ n ∧ x.primed n ∉ inUse := by
    by_contra hnone
    push Not at hnone
    have := le_ncard_add_one (n := inUse.ncard + 2) hfinite fun k hk _ => hnone k hk
    omega
  classical exact ⟨Nat.find hfree, Nat.find_spec hfree, fun n hn => Nat.find_min' hfree hn⟩

section
variable {inUse : Set Name} (h : IsLeast {n | 1 ≤ n ∧ x.primed n ∉ inUse} n)
include h

/-- The names before the least free one are in use. -/
theorem mem_of_lt_isLeast {k : Nat} (hk : 1 ≤ k) (hkn : k < n) : x.primed k ∈ inUse := by
  by_contra hfree
  have : n ≤ k := h.2 ⟨hk, hfree⟩
  omega

variable (htaken : ∀ y, y ∈ taken ↔ y ∈ inUse)
include htaken

/-- The search stops at the least number whose name is free. -/
theorem search_iff {y : Name} : x.Search taken 1 y ↔ y = x.primed n := by
  obtain ⟨hpos, hfree⟩ := h.1
  have hbefore : ∀ k, 1 ≤ k → k < n → x.primed k ∈ taken := fun k hk hkn =>
    (htaken _).2 (mem_of_lt_isLeast h hk hkn)
  have hstop : x.Search taken 1 (x.primed n) :=
    Search.of_le hpos hbefore (.stop fun hn => hfree ((htaken _).1 hn))
  refine ⟨fun hy => hy.unique hstop, ?_⟩
  rintro rfl
  exact hstop

/-- The candidates that `fresh` looks through are enough. -/
theorem fresh_eq_primed : x.fresh taken = x.primed n := by
  obtain ⟨hpos, hfree⟩ := h.1
  have hset : inUse = (taken.toFinset : Set Name) := by
    ext y
    rw [Finset.mem_coe, List.mem_toFinset, htaken]
  have hbound : n ≤ taken.length + 1 := by
    have hn := le_ncard_add_one (hset ▸ taken.toFinset.finite_toSet) fun k => mem_of_lt_isLeast h
    rw [hset, Set.ncard_coe_finset] at hn
    exact hn.trans (Nat.succ_le_succ taken.toFinset_card_le)
  have hfind : (List.range (taken.length + 1)).find?
      ((fun y => decide (y ∉ taken)) ∘ fun k => x.primed (k + 1)) = some (n - 1) := by
    rw [List.find?_range_eq_some, List.mem_range]
    refine ⟨?free, by omega, fun k hk => ?before⟩
    case free =>
      rw [Function.comp_apply, Nat.sub_add_cancel hpos]
      exact decide_eq_true fun hn => hfree ((htaken _).1 hn)
    case before =>
      have hmem := (htaken _).2 (mem_of_lt_isLeast h (Nat.succ_pos k) (by omega : k + 1 < n))
      simpa using hmem
  rw [fresh, List.find?_map, hfind, Option.map_some, Option.getD_some, Nat.sub_add_cancel hpos]

end

end Name

/-! ## Names in use -/

namespace Term

variable {t : Term α} {y : Name}

/-- The node itself has the name, as a variable or because it binds it. -/
def Mentions (y : Name) : Term α → Prop
  | var _ _ x | lam _ x _ | letIn _ x _ _ => y = x
  | caseOf _ _ alts => ∃ alt ∈ alts, y ∈ alt.1.bound
  | lit .. | builtin .. | app .. | fix .. => False

/-- The names of a term are those of its root and of its parts. -/
theorem mem_names_parts : y ∈ t.names ↔ t.Mentions y ∨ ∃ p ∈ t.parts, y ∈ p.2.names := by
  have hchildren : (∃ p ∈ t.parts, y ∈ p.2.names) ↔ ∃ u ∈ t.children, y ∈ u.names := by
    rw [← map_snd_parts]
    simp only [List.mem_map, exists_exists_and_eq_and]
  rw [hchildren]
  cases t with
  | lit | builtin => simp [names, Mentions, children]
  | caseOf a s alts =>
    have halts : (∃ alt ∈ alts, y ∈ alt.1.bound ∨ y ∈ alt.2.names) ↔
        (∃ alt ∈ alts, y ∈ alt.1.bound) ∨ ∃ u ∈ alts.map Prod.snd, y ∈ u.names := by
      simp only [List.mem_map, exists_exists_and_eq_and, and_or_left, exists_or]
    rw [mem_names_caseOf, halts, children, List.exists_mem_cons_iff, Mentions, or_left_comm]
  | _ => simp [Mentions, children]

/-- What a term names is what its nodes mention, at any depth. -/
theorem mem_names_iff : y ∈ t.names ↔ ∃ path u, t.At path u ∧ u.Mentions y := by
  constructor
  · intro h
    induction t using ind_parts with
    | node t ih =>
      rcases mem_names_parts.1 h with h | ⟨p, hp, h⟩
      · exact ⟨[], t, .root, h⟩
      · obtain ⟨path, u, hu, hy⟩ := ih p hp h
        exact ⟨p.1 :: path, u, .step hp hu, hy⟩
  · rintro ⟨path, u, hu, hy⟩
    induction hu with
    | root => exact mem_names_parts.2 (.inl hy)
    | step hp _ ih => exact mem_names_parts.2 (.inr ⟨_, hp, ih hy⟩)

end Term

/-- The names that must not be taken: the captured ones, and what some node in one of the scopes
mentions. -/
def InUse (captured : List Name) (scopes : List (Term α)) : Set Name :=
  {y | y ∈ captured ∨ ∃ t ∈ scopes, ∃ path u, t.At path u ∧ u.Mentions y}

theorem mem_inUse_iff {captured : List Name} {scopes : List (Term α)} {y : Name} :
    y ∈ captured ++ scopes.flatMap Term.names ↔ y ∈ InUse captured scopes := by
  rw [List.mem_append, List.mem_flatMap]
  simp only [Term.mem_names_iff]
  rfl

theorem finite_inUse (captured : List Name) (scopes : List (Term α)) :
    (InUse captured scopes).Finite :=
  (captured ++ scopes.flatMap Term.names).finite_toSet.subset fun _ => mem_inUse_iff.2

/-- **A fresh name is the least one that is not in use.** For a base name `x`, captured names and
scopes, the search stops. It ends, as `fresh` does, with the name `x'n` for the least `n` from 1 on
such that `x'n` is neither captured nor mentioned anywhere in the scopes. The number `n` exceeds the
number of such names by one at most. -/
theorem fresh_least (x : Name) (captured : List Name) (scopes : List (Term α)) :
    let taken := captured ++ scopes.flatMap Term.names
    ∃ n, (∀ y, x.Search taken 1 y ↔ y = x.primed n) ∧ x.fresh taken = x.primed n ∧
      IsLeast {n | 1 ≤ n ∧ x.primed n ∉ InUse captured scopes} n ∧
      n ≤ (InUse captured scopes).ncard + 1 := by
  have hfinite := finite_inUse captured scopes
  obtain ⟨n, hn⟩ := x.exists_isLeast hfinite
  refine ⟨n, fun y => Name.search_iff hn fun _ => mem_inUse_iff,
    Name.fresh_eq_primed hn fun _ => mem_inUse_iff, hn, ?_⟩
  exact Name.le_ncard_add_one hfinite fun k => Name.mem_of_lt_isLeast hn

example : Name.fresh ⟨"y"⟩ ([⟨"y"⟩] ++
    (Term.lam () ⟨"y'1"⟩ (.letIn () ⟨"y'3"⟩ (.var () false ⟨"x"⟩) (.var () false ⟨"y'1"⟩))).names) =
      ⟨"y'2"⟩ := by decide

end Letrec
