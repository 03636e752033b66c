import Letrec.Proofs.Group.Linear
import Letrec.Proofs.Meaning.Knot
import Letrec.Proofs.Meaning.Tokens

/-!
# Linear groups keep their meaning

A lifted term, applied to values of the members, is the term where the members have these values
(`applyValues_lift`), so that the equations of a knot are those of the group it is made of
(`leastPrefixedAt_run_bindings`). Component by component, the bindings of `Group.linearize` give the
names of a group the least solution of its equations (`leastPrefixedAt_run`), and the lets of
`Group.letIn` evaluate them one after another (`eval_nest`). Together: a group around a body means
the body where the names of the group have the least values that solve its equations
(`meaning_letIn`). In the model of tokens, these values of `even` and `odd` tell the parity of every
number (`meaning_letIn_evenOdd`).
-/

universe u

namespace Letrec

variable {α : Type} {D : Type u} [PartialOrder D] {M : Model α D} {ρ σ τ : Valuation D}
  {g : Group α}

/-! ## Lifted terms -/

namespace Model

/-- Renamings to names that do not occur, one after another. -/
theorem eval_foldl_rename (owner : Name) {ms : List Name} :
    ∀ {t : Term α}, ms.Nodup → (∀ m ∈ ms, m.Plain) → (∀ m ∈ ms, m.lifted owner ∉ t.names) →
      M.eval (ms.foldl (fun t m => t.rename m (m.lifted owner)) t) σ =
        M.eval t (σ.override ms fun m => σ (m.lifted owner)) := by
  induction ms with
  | nil => exact fun _ _ _ => rfl
  | cons m ms ih =>
    intro t hnodup hplain hnames
    obtain ⟨hm, hnodup⟩ := List.nodup_cons.1 hnodup
    have hfresh : ∀ n ∈ ms, n.lifted owner ∉ (t.rename m (m.lifted owner)).names := by
      intro n hn hx
      rcases Term.mem_names_rename hx with hx | hx
      · exact hnames n (List.mem_cons_of_mem m hn) hx
      · exact hm (Name.lifted_left_injective owner hx ▸ hn)
    have hparam : m.lifted owner ∉ ms := fun hmem =>
      Name.not_plain_lifted m owner (hplain _ (List.mem_cons_of_mem m hmem))
    rw [List.foldl_cons, ih hnodup (fun n hn => hplain n (List.mem_cons_of_mem m hn)) hfresh,
      M.eval_rename (hnames m List.mem_cons_self), Valuation.override_of_not_mem hparam,
      Valuation.override_cons]

/-- A lifted term, applied to values of the members. -/
theorem applyValues_lift {b : Binding α} {ms : List Name} (hnodup : ms.Nodup)
    (hms : ∀ m ∈ ms, m.Plain) (hnames : ∀ x ∈ b.term.names, x.Plain) :
    M.applyValues (M.eval (b.lift ms) ρ) (ms.map τ) = M.eval b.term (ρ.override ms τ) := by
  have hparams : (ms.map (Name.lifted · b.name)).Nodup :=
    hnodup.map (Name.lifted_left_injective b.name)
  have hlength : (ms.map τ).length = (ms.map (Name.lifted · b.name)).length := by simp
  have hfresh : ∀ m ∈ ms, m.lifted b.name ∉ b.term.names :=
    fun m _ hx => m.not_plain_lifted b.name (hnames _ hx)
  rw [Binding.lift, M.applyValues_lamAll hlength, eval_foldl_rename b.name hnodup hms hfresh]
  -- the parameters have the values of the members, and no other plain name has changed
  obtain ⟨σ, hσ⟩ : ∃ σ, σ = ρ.bind (ms.map (Name.lifted · b.name)) (ms.map τ) := ⟨_, rfl⟩
  have hvalues : ∀ m ∈ ms, σ (m.lifted b.name) = τ m := by
    have hmap := Valuation.map_bind (ρ := ρ) hparams hlength
    rw [← hσ, List.map_map] at hmap
    exact List.map_inj_left.1 hmap
  rw [← hσ, Valuation.override_congr hvalues]
  refine M.eval_congr fun x hx => ?_
  by_cases hxms : x ∈ ms
  · rw [Valuation.override_of_mem hxms, Valuation.override_of_mem hxms]
  · rw [Valuation.override_of_not_mem hxms, Valuation.override_of_not_mem hxms, hσ,
      Valuation.bind_of_not_mem]
    intro hparam
    obtain ⟨m, -, rfl⟩ := List.mem_map.1 hparam
    exact m.not_plain_lifted b.name (hnames _ (Term.free_subset_names _ hx))

end Model

/-! ## Components -/

namespace Group

/-- The bindings of a knot give the names of its group the least values. -/
theorem leastPrefixedAt_run_bindings (hnodup : (g.map Binding.name).Nodup)
    (hname : ∀ b ∈ g, b.name.Plain ∧ b.name.text ≠ "")
    (hterm : ∀ b ∈ g, ∀ x ∈ b.term.names, x.Plain) :
    M.LeastPrefixedAt ρ g (M.run (Knot.ofGroup g).bindings ρ) := by
  have hclosed : (Knot.ofGroup g).Closed := Knot.closed_ofGroup hnodup (fun b hb => (hname b hb).1)
    fun b hb x hx => hterm b hb x (Term.free_subset_names _ hx)
  have hempty : ∀ m ∈ Knot.ofGroup g, m.name.text ≠ "" := by
    intro m hm
    obtain ⟨b, hb, hn, -⟩ := Knot.mem_ofGroup hm
    rw [hn]
    exact (hname b hb).2
  have hplain : ∀ x ∈ g.map Binding.name, x.Plain := by
    intro x hx
    obtain ⟨b, hb, rfl⟩ := List.mem_map.1 hx
    exact (hname b hb).1
  have hleast : M.LeastPrefixed (M.bodies ρ (Knot.ofGroup g)) []
      ((Knot.ofGroup g).map fun n => M.run (Knot.ofGroup g).bindings ρ n.name) :=
    hclosed.leastPrefixed_bindings hempty
  generalize M.run (Knot.ofGroup g).bindings ρ = σ at hleast ⊢
  have hbodies : M.bodies ρ (Knot.ofGroup g) =
      g.map fun b => M.eval (b.lift (g.map Binding.name)) ρ := Knot.map_ofGroup fun _ _ => rfl
  have hvalues : ((Knot.ofGroup g).map fun n => σ n.name) = g.map fun b => σ b.name :=
    Knot.map_ofGroup fun _ _ => rfl
  rw [hbodies, hvalues] at hleast
  -- the equations by position are the equations by name
  have hprefixed : ∀ τ : Valuation D,
      M.Prefixed (g.map fun b => M.eval (b.lift (g.map Binding.name)) ρ) []
        (g.map fun b => τ b.name) ↔ M.PrefixedAt ρ g τ := by
    intro τ
    rw [Model.Prefixed, List.forall₂_map_left_iff, List.forall₂_map_right_iff, List.forall₂_same]
    refine forall₂_congr fun b hb => ?_
    have htuple : ([] : List D) ++ g.map (fun b => τ b.name) = (g.map Binding.name).map τ := by
      rw [List.nil_append, List.map_map]
      rfl
    rw [htuple, Model.applyValues_lift hnodup hplain (hterm b hb)]
  refine ⟨(hprefixed σ).1 hleast.prefixed, fun τ hτ => ?_⟩
  have hle := hleast.least _ ((hprefixed τ).2 hτ)
  rwa [List.forall₂_map_left_iff, List.forall₂_map_right_iff, List.forall₂_same] at hle

theorem run_of_not_refers {b : Binding α} (hnodup : (g.map Binding.name).Nodup)
    (hrefs : ∀ b ∈ g, ∀ c ∈ g, c.name ∉ b.term.free) (hb : b ∈ g) :
    M.run g ρ b.name = M.eval b.term ρ := by
  induction g generalizing ρ with
  | nil => exact absurd hb List.not_mem_nil
  | cons c g ih =>
    rw [List.map_cons, List.nodup_cons] at hnodup
    rw [Model.run_cons]
    rcases List.mem_cons.1 hb with rfl | hb'
    · rw [Model.run_of_not_mem hnodup.1, Valuation.set_self]
    · rw [ih hnodup.2 (fun b hb d hd => hrefs b (List.mem_cons_of_mem c hb) d
        (List.mem_cons_of_mem c hd)) hb',
        M.eval_set_of_not_mem_free (hrefs b hb c List.mem_cons_self)]

section
variable (hnodup : (g.map Binding.name).Nodup)
  (hname : ∀ b ∈ g, b.name.Plain ∧ b.name.text ≠ "")
  (hterm : ∀ b ∈ g, ∀ x ∈ b.term.names, x.Plain)

include hnodup hname hterm

theorem Decomposition.leastPrefixedAt_emit {cs : List Component} (h : g.Decomposition cs)
    {c : Component} (hc : c ∈ cs) :
    M.LeastPrefixedAt ρ (g.select c.members) (M.run (g.emit c).value ρ) := by
  have hnodup' := nodup_select hnodup (h.members_nodup hc)
  unfold emit
  split
  · exact leastPrefixedAt_run_bindings hnodup' (fun b hb => hname b (mem_of_mem_select hb))
      fun b hb => hterm b (mem_of_mem_select hb)
  · next hcyclic =>
    have hrefs : ∀ b ∈ g.select c.members, ∀ d ∈ g.select c.members, d.name ∉ b.term.free := by
      intro b hb d hd hx
      obtain ⟨i, hi, hbi⟩ := mem_select.1 hb
      obtain ⟨j, hj, hdj⟩ := mem_select.1 hd
      exact h.not_refers hc (Bool.eq_false_iff.2 hcyclic) hi hj
        (refers_of_mem_free hnodup hbi hdj hx)
    exact Model.leastPrefixedAt_of_not_refers (fun b hb => run_of_not_refers hnodup' hrefs hb) hrefs

omit hnodup hname hterm in
/-- Plain names other than those of the members keep their values. -/
theorem run_emit_of_not_mem {c : Component} {x : Name} (hx : x.Plain)
    (h : x ∉ (g.select c.members).map Binding.name) : M.run (g.emit c).value ρ x = ρ x := by
  refine Model.run_of_not_mem fun hmem => ?_
  obtain ⟨b, hb, rfl⟩ := List.mem_map.1 hmem
  obtain ⟨i, hi, b', hb', hbname | hbname⟩ := mem_emit hb
  · rw [hbname] at h
    exact h (List.mem_map_of_mem (mem_select.2 ⟨i, hi, hb'⟩))
  · rw [hbname] at hx
    exact b'.name.not_plain_helper hx

/-! ## From component to component -/

omit hname hterm in
/-- What comes before a component has other names and does not refer to it. -/
theorem Decomposition.before_apart {cs before after : List Component} {c : Component}
    (h : g.Decomposition cs) (hcs : cs = before ++ c :: after) {b e : Binding α}
    (hb : b ∈ before.flatMap fun d => g.select d.members) (he : e ∈ g.select c.members) :
    b.name ≠ e.name ∧ e.name ∉ b.term.free := by
  obtain ⟨d, hd, hb⟩ := List.mem_flatMap.1 hb
  obtain ⟨i, hi, hbi⟩ := mem_select.1 hb
  obtain ⟨j, hj, hej⟩ := mem_select.1 he
  refine ⟨fun hname => ?_, fun hx => ?_⟩
  · have hdisjoint := h.disjoint
    rw [hcs, List.pairwise_append] at hdisjoint
    exact hdisjoint.2.2 d hd c List.mem_cons_self i hi (position_unique hnodup hbi hej hname ▸ hj)
  · obtain ⟨k, hk⟩ := List.mem_iff_getElem?.1 hd
    have hlt : k < before.length := (List.getElem?_eq_some_iff.1 hk).1
    have hkcs : cs[k]? = some d := by rw [hcs, List.getElem?_append_left hlt, hk]
    have hccs : cs[before.length]? = some c := by
      rw [hcs, List.getElem?_append_right (Nat.le_refl _), Nat.sub_self, List.getElem?_cons_zero]
    have horder := h.order k before.length d c hkcs hccs (Nat.ne_of_lt hlt) i hi j hj
      (refers_of_mem_free hnodup hbi hej hx)
    omega

/-- One more component: its bindings are solved where those before it are. -/
theorem Decomposition.solved_emit {cs before after : List Component} {c : Component}
    (h : g.Decomposition cs) (hcs : cs = before ++ c :: after)
    (hσ : M.Solved ρ (before.flatMap fun d => g.select d.members) σ) :
    M.Solved ρ ((before.flatMap fun d => g.select d.members) ++ g.select c.members)
      (M.run (g.emit c).value σ) := by
  have hc : c ∈ cs := by simp [hcs]
  refine hσ.append ⟨h.leastPrefixedAt_emit hnodup hname hterm hc, fun x => run_emit_of_not_mem⟩
    (fun b hb => ?_) (fun b hb x hx => ?_) fun b hb e he => h.before_apart hnodup hcs hb he
  · obtain ⟨d, -, hb⟩ := List.mem_flatMap.1 hb
    exact (hname b (mem_of_mem_select hb)).1
  · exact hterm b (mem_of_mem_select hb) x (Term.free_subset_names _ hx)

/-- All components. -/
theorem Decomposition.solved_run {cs after : List Component} (h : g.Decomposition cs) :
    ∀ (before : List Component) {σ : Valuation D}, cs = before ++ after →
      M.Solved ρ (before.flatMap fun c => g.select c.members) σ →
      M.Solved ρ (cs.flatMap fun c => g.select c.members)
        (M.run (after.flatMap fun c => (g.emit c).value) σ) := by
  induction after with
  | nil =>
    intro before σ hcs hσ
    rw [List.append_nil] at hcs
    exact hcs ▸ hσ
  | cons c after ih =>
    intro before σ hcs hσ
    rw [List.flatMap_cons, Model.run_append]
    refine ih (before ++ [c]) (by rw [hcs, List.append_assoc]; rfl) ?_
    rw [List.flatMap_append, List.flatMap_singleton]
    exact h.solved_emit hnodup hname hterm hcs hσ

/-- The bindings of a linear group, one after another, solve the group. -/
theorem solved_linearize : M.Solved ρ g (M.run g.linearize.value ρ) := by
  have hdec := g.decomposition_components
  have hperm : (g.components.flatMap fun c => g.select c.members).Perm g := by
    have hflat : (g.components.flatMap fun c => g.select c.members) =
        g.select (g.components.flatMap Component.members) := List.filterMap_flatMap.symm
    have hselect := hdec.partition.filterMap (g[·]?)
    rw [hflat]
    exact hselect.trans (List.Perm.of_eq (select_range g))
  have hsolved := hdec.solved_run hnodup hname hterm [] rfl (Model.solved_nil (M := M) (ρ := ρ))
  rw [value_linearize]
  refine ⟨hsolved.least.perm hperm, fun x hx hxg => hsolved.other x hx fun hmem => hxg ?_⟩
  exact (hperm.map Binding.name).subset hmem

omit hnodup hname hterm in
/-- Nested lets evaluate their bindings one after another. -/
theorem eval_nest {bindings : Group α} {body : Term α}
    (hself : ∀ b ∈ bindings, b.name ∉ b.term.free) :
    M.eval (nest bindings body) ρ = M.eval body (M.run bindings ρ) := by
  induction bindings generalizing ρ with
  | nil => rfl
  | cons b bindings ih =>
    have hlet : M.eval (nest (b :: bindings) body) ρ =
        M.eval (nest bindings body) (ρ.set b.name (M.eval b.term ρ)) :=
      M.eval_letIn_of_not_mem_free (hself b List.mem_cons_self)
    rw [hlet, ih fun c hc => hself c (List.mem_cons_of_mem b hc), Model.run_cons]

/-- **A group keeps its meaning.** In every model, the bindings of a linear group, evaluated one
after another, give the names of the group the least solution of its equations, and the lets around a
body evaluate it where the names have these values. -/
theorem meaning_letIn (M : Model α D) (ρ : Valuation D) {body : Term α}
    (hbody : ∀ x ∈ body.free, x.Plain) :
    M.LeastSolution ρ g (M.run g.linearize.value ρ) ∧
      M.eval (g.letIn body).value ρ =
        M.eval body (ρ.override (g.map Binding.name) (M.run g.linearize.value ρ)) := by
  have hsolved := solved_linearize (M := M) (ρ := ρ) hnodup hname hterm
  have hself : ∀ b ∈ g.linearize.value, b.name ∉ b.term.free := by
    intro b hb
    rw [value_linearize] at hb
    obtain ⟨c, hc, hb⟩ := List.mem_flatMap.1 hb
    have horder := g.decomposition_components.inOrder_emit hnodup (fun b hb => (hname b hb).1)
      (fun b hb x hx => hterm b hb x (Term.free_subset_names _ hx)) hc
    exact (inOrder_iff.1 horder).1 b hb
  refine ⟨hsolved.least.leastSolution hnodup, ?_⟩
  rw [show (g.letIn body).value = nest g.linearize.value body from rfl, eval_nest hself]
  refine M.eval_congr fun x hx => ?_
  by_cases hxg : x ∈ g.map Binding.name
  · rw [Valuation.override_of_mem hxg]
  · rw [Valuation.override_of_not_mem hxg, hsolved.other x (hbody x hx) hxg]

end

/-! ## Even and odd -/

/-- Whether a number has some parity: of `Zero` it is `zero`, and of a successor `Succ m` it is what
`other` says of `m`. -/
def parity (zero other : Name) : Term Unit :=
  .lam () ⟨"n"⟩ (.caseOf () (.var () false ⟨"n"⟩)
    [(.con ⟨"Zero"⟩ [], .var () false zero),
     (.con ⟨"Succ"⟩ [⟨"m"⟩], .app () (.var () false other) (.var () false ⟨"m"⟩))])

/-- `even` and `odd` on numbers made with `Zero` and `Succ`. -/
def evenOdd : Group Unit :=
  [⟨⟨"even"⟩, parity ⟨"True"⟩ ⟨"odd"⟩⟩, ⟨⟨"odd"⟩, parity ⟨"False"⟩ ⟨"even"⟩⟩]

def numeral : Nat → Term Unit
  | 0 => .var () false ⟨"Zero"⟩
  | n + 1 => .app () (.var () false ⟨"Succ"⟩) (numeral n)

/-- `Succ` makes data of its argument, and all other names stand for data without fields. -/
def constructors : Valuation (Set Token) := fun x =>
  if x = ⟨"Succ"⟩ then Token.abstract (Token.data x) else {.con x}

/-- What is known of a number. -/
def numberTokens : Nat → Set Token
  | 0 => {.con ⟨"Zero"⟩}
  | n + 1 => Token.data ⟨"Succ"⟩ (numberTokens n)

theorem plain_of_mem_free_numeral (n : Nat) : ∀ x ∈ (numeral n).free, x.Plain := by
  induction n with
  | zero =>
    intro x hx
    rw [Term.mem_free_var.1 hx]
    decide
  | succ n ih =>
    intro x hx
    rcases Term.mem_free_app.1 hx with hx | hx
    · rw [Term.mem_free_var.1 hx]
      decide
    · exact ih x hx

theorem tokens_numeral {ρ : Valuation (Set Token)} (hzero : ρ ⟨"Zero"⟩ = constructors ⟨"Zero"⟩)
    (hsucc : ρ ⟨"Succ"⟩ = constructors ⟨"Succ"⟩) (n : Nat) :
    (numeral n).tokens ρ = numberTokens n := by
  induction n with
  | zero => exact hzero
  | succ n ih =>
    show Token.apply (ρ ⟨"Succ"⟩) ((numeral n).tokens ρ) = _
    rw [hsucc, ih]
    exact Token.apply_abstract (Token.finitary_data ⟨"Succ"⟩) (numberTokens n)

theorem parts_con_singleton {c x : Name} {d : Set Token} :
    Pattern.parts (.con c [x]) d x = {u | .field c 0 u ∈ d} := by
  ext u
  simp [Pattern.parts, List.getElem?_singleton]

section
variable {zero other : Name} {ρ : Valuation (Set Token)} (hzero : zero ≠ ⟨"n"⟩)
  (hother : other ≠ ⟨"n"⟩ ∧ other ≠ ⟨"m"⟩)

include hzero hother

/-- A parity is told from the form of the number. -/
theorem mem_apply_parity_iff {d : Set Token} {t : Token} :
    t ∈ Token.apply ((parity zero other).tokens ρ) d ↔
      (.con ⟨"Zero"⟩ ∈ d ∧ t ∈ ρ zero) ∨
        (.con ⟨"Succ"⟩ ∈ d ∧ t ∈ Token.apply (ρ other) {u | .field ⟨"Succ"⟩ 0 u ∈ d}) := by
  have hbeta := (tokenModel Unit).beta () ⟨"n"⟩ (.caseOf () (.var () false ⟨"n"⟩)
    [(.con ⟨"Zero"⟩ [], .var () false zero), (.con ⟨"Succ"⟩ [⟨"m"⟩],
      .app () (.var () false other) (.var () false ⟨"m"⟩))]) ρ d
  have hnumber : (ρ.set ⟨"n"⟩ d) ⟨"n"⟩ = d := Valuation.set_self
  have hfirst : ∀ τ, (ρ.set ⟨"n"⟩ d).override [] τ zero = ρ zero := fun τ => by
    rw [Valuation.override_of_not_mem List.not_mem_nil, Valuation.set_of_ne hzero]
  have hsecond : ∀ τ, (ρ.set ⟨"n"⟩ d).override [⟨"m"⟩] τ other = ρ other := fun τ => by
    rw [Valuation.override_of_not_mem (by simpa using hother.2), Valuation.set_of_ne hother.1]
  have hfield : ∀ τ : Valuation (Set Token),
      (ρ.set ⟨"n"⟩ d).override [⟨"m"⟩] τ ⟨"m"⟩ = τ ⟨"m"⟩ := fun τ =>
    Valuation.override_of_mem List.mem_cons_self
  show t ∈ (tokenModel Unit).ap ((tokenModel Unit).eval (parity zero other) ρ) d ↔ _
  rw [parity, hbeta]
  show t ∈ Term.tokensAlts _ _ ((ρ.set ⟨"n"⟩ d) ⟨"n"⟩) ↔ _
  rw [hnumber, Term.mem_tokensAlts]
  simp only [List.exists_mem_cons_iff, List.not_mem_nil, false_and, exists_false, or_false,
    Pattern.Matches, Pattern.bound, Term.tokens, hfirst, hsecond, hfield, parts_con_singleton]

theorem apply_parity_zero :
    Token.apply ((parity zero other).tokens ρ) (numberTokens 0) = ρ zero := by
  ext t
  rw [mem_apply_parity_iff hzero hother]
  simp [numberTokens]

theorem apply_parity_succ (n : Nat) :
    Token.apply ((parity zero other).tokens ρ) (numberTokens (n + 1)) =
      Token.apply (ρ other) (numberTokens n) := by
  ext t
  rw [mem_apply_parity_iff hzero hother]
  simp [numberTokens, Token.con_mem_data_iff, Token.field_mem_data_iff]

end

/-- Solutions of the equations of `even` and `odd` tell the parity of every number. -/
theorem apply_even_odd {ρ : Valuation (Set Token)}
    (hρ : ∀ x, x ∉ evenOdd.map Binding.name → ρ x = constructors x)
    (hsolves : ∀ b ∈ evenOdd, ρ b.name = b.term.tokens ρ) (n : Nat) :
    Token.apply (ρ ⟨"even"⟩) (numberTokens n) =
        {.con (if n % 2 = 0 then ⟨"True"⟩ else ⟨"False"⟩)} ∧
      Token.apply (ρ ⟨"odd"⟩) (numberTokens n) =
        {.con (if n % 2 = 0 then ⟨"False"⟩ else ⟨"True"⟩)} := by
  have heven : ρ ⟨"even"⟩ = (parity ⟨"True"⟩ ⟨"odd"⟩).tokens ρ := hsolves _ List.mem_cons_self
  have hodd : ρ ⟨"odd"⟩ = (parity ⟨"False"⟩ ⟨"even"⟩).tokens ρ :=
    hsolves _ (List.mem_cons_of_mem _ List.mem_cons_self)
  induction n with
  | zero =>
    rw [heven, hodd, apply_parity_zero (by decide) (by decide),
      apply_parity_zero (by decide) (by decide), hρ _ (by decide), hρ _ (by decide)]
    exact ⟨rfl, rfl⟩
  | succ n ih =>
    have hsucc : Token.apply (ρ ⟨"even"⟩) (numberTokens (n + 1)) =
        Token.apply (ρ ⟨"odd"⟩) (numberTokens n) := by
      rw [heven]
      exact apply_parity_succ (by decide) (by decide) n
    have hsucc' : Token.apply (ρ ⟨"odd"⟩) (numberTokens (n + 1)) =
        Token.apply (ρ ⟨"even"⟩) (numberTokens n) := by
      rw [hodd]
      exact apply_parity_succ (by decide) (by decide) n
    rw [hsucc, hsucc', ih.1, ih.2]
    have hparity : (n + 1) % 2 = 0 ↔ ¬ n % 2 = 0 := by omega
    simp only [hparity, ite_not, and_self]

/-- In the linear form of `even` and `odd`, the parity of every number is told right. -/
theorem meaning_letIn_evenOdd :
    (tokenModel Unit).LeastSolution constructors evenOdd
        ((tokenModel Unit).run evenOdd.linearize.value constructors) ∧
      ∀ n, (tokenModel Unit).eval
          (evenOdd.letIn (.app () (.var () false ⟨"even"⟩) (numeral n))).value constructors =
        {.con (if n % 2 = 0 then ⟨"True"⟩ else ⟨"False"⟩)} := by
  have hbody : ∀ n, ∀ x ∈ (Term.app () (.var () false ⟨"even"⟩) (numeral n)).free, x.Plain := by
    intro n x hx
    rcases Term.mem_free_app.1 hx with hx | hx
    · rw [Term.mem_free_var.1 hx]
      decide
    · exact plain_of_mem_free_numeral n x hx
  have hmeaning := fun n => meaning_letIn (g := evenOdd) (by decide) (by decide) (by decide)
    (tokenModel Unit) constructors (hbody n)
  have hleast := (hmeaning 0).1
  refine ⟨hleast, fun n => ?_⟩
  -- the values of the two names solve their equations, and all other names keep theirs
  obtain ⟨ρ, hρ⟩ : ∃ ρ, ρ = Valuation.override constructors (evenOdd.map Binding.name)
      ((tokenModel Unit).run evenOdd.linearize.value constructors) := ⟨_, rfl⟩
  have hother : ∀ x, x ∉ evenOdd.map Binding.name → ρ x = constructors x := by
    intro x hx
    rw [hρ, Valuation.override_of_not_mem hx]
  have hsolves : ∀ b ∈ evenOdd, ρ b.name = b.term.tokens ρ := by
    intro b hb
    rw [hρ, Valuation.override_of_mem (List.mem_map_of_mem hb)]
    exact hleast.solves b hb
  have hnumeral : (numeral n).tokens ρ = numberTokens n :=
    tokens_numeral (hother ⟨"Zero"⟩ (by decide)) (hother ⟨"Succ"⟩ (by decide)) n
  rw [(hmeaning n).2, ← hρ]
  show Token.apply (ρ ⟨"even"⟩) ((numeral n).tokens ρ) = _
  rw [hnumeral]
  exact (apply_even_odd hother hsolves n).1

end Group

end Letrec
