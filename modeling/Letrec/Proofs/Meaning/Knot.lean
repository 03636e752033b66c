import Letrec.Proofs.Group.Knot
import Letrec.Proofs.Meaning.Solution

/-!
# The meaning of a knot

In the terms of a knot a member is the value of its body, a function of the values of all members
(`bodies`). `Solvers ρ σ i later` says that `σ` holds solvers for the members from number `i` on: each
maps the values of all members before it to the first component of the least tuple that solves its own
equation and those after it. Values found one after another with such solvers solve all of these
equations (`Solvers.leastPrefixed_values`). By induction on the members from the last one, the bound
solvers are solvers in that sense (`Closed.exists_eval_bindSolvers`), and by induction from the first
one, the bindings of a knot give its members the least solution of all equations
(`Closed.leastPrefixed_run`).
-/

universe u

namespace Letrec

variable {α : Type} {D : Type u} [PartialOrder D]

namespace Model

variable (M : Model α D)

/-- The values of the bodies of members. -/
def bodies (ρ : Valuation D) (ms : List (Member α)) : List D := ms.map fun m => M.eval m.body ρ

/-- The values of the members `later`, each its solver applied to the values before it. -/
def values (σ : Valuation D) : List (Member α) → List D → List D
  | [], _ => []
  | n :: later, ds =>
    let d := M.applyValues (σ n.solver) ds
    d :: values σ later (ds ++ [d])

/-- The solver of a member gives the first component of the least tuple for the member and those
after it. -/
def Solvers (ρ σ : Valuation D) : Nat → List (Member α) → Prop
  | _, [] => True
  | i, n :: later =>
    (∀ ds : List D, ds.length = i →
      ∃ xs, M.LeastPrefixed (M.bodies ρ (n :: later)) ds (M.applyValues (σ n.solver) ds :: xs)) ∧
    Solvers ρ σ (i + 1) later

variable {M} {ρ σ σ' : Valuation D}

theorem values_congr {later : List (Member α)} (h : ∀ n ∈ later, σ' n.solver = σ n.solver) :
    ∀ ds, M.values σ' later ds = M.values σ later ds := by
  induction later with
  | nil => exact fun _ => rfl
  | cons n later ih =>
    intro ds
    rw [values, values, h n List.mem_cons_self, ih fun m hm => h m (List.mem_cons_of_mem n hm)]

theorem Solvers.congr {later : List (Member α)} (hσ : ∀ n ∈ later, σ' n.solver = σ n.solver) :
    ∀ {i : Nat}, M.Solvers ρ σ i later → M.Solvers ρ σ' i later := by
  induction later with
  | nil => exact fun _ => trivial
  | cons n later ih =>
    intro i h
    obtain ⟨hn, hlater⟩ := h
    refine ⟨?_, ih (fun m hm => hσ m (List.mem_cons_of_mem n hm)) hlater⟩
    rw [hσ n List.mem_cons_self]
    exact hn

theorem Solvers.leastPrefixed_values {later : List (Member α)} :
    ∀ {i : Nat} {ds : List D}, M.Solvers ρ σ i later → ds.length = i →
      M.LeastPrefixed (M.bodies ρ later) ds (M.values σ later ds) := by
  induction later with
  | nil => exact fun _ _ => leastPrefixed_nil
  | cons n later ih =>
    intro i ds h hds
    obtain ⟨hn, hlater⟩ := h
    obtain ⟨xs, hxs⟩ := hn ds hds
    exact hxs.replace_tail (ih hlater (by simp [hds]))

end Model

/-! ## The names in a knot -/

namespace Member

variable {m n : Member α}

theorem solver_ne_value : m.solver ≠ n.value := Name.solver_ne_value

theorem value_ne_of_plain {x : Name} (hx : x.Plain) : x ≠ m.value :=
  fun h => Name.not_plain_value _ _ (h ▸ hx)

theorem solver_ne_of_plain {x : Name} (hx : x.Plain) : x ≠ m.solver :=
  fun h => Name.not_plain_solver _ _ (h ▸ hx)

end Member

namespace Knot

variable {k pre post : Knot α} {m : Member α}

theorem Closed.nodup_value (h : k.Closed) : (k.map Member.value).Nodup :=
  List.pairwise_map.2 ((List.pairwise_map.1 h.nodup).imp fun hne he => hne (Name.value_inj.1 he).2)

theorem Closed.nodup_solver (h : k.Closed) : (k.map Member.solver).Nodup :=
  List.pairwise_map.2 ((List.pairwise_map.1 h.nodup).imp fun hne he => hne (Name.solver_inj.1 he).2)

/-- `σ` and `ρ` agree on the names that the bodies of the knot may refer to. -/
def Agrees (k : Knot α) (ρ σ : Valuation D) : Prop :=
  ∀ x : Name, x.Plain → x ∉ k.map Member.name → σ x = ρ x

variable {M : Model α D} {ρ σ : Valuation D}

omit [PartialOrder D] in
theorem Agrees.set {x : Name} {d : D} (h : k.Agrees ρ σ)
    (hx : x.Plain → x ∈ k.map Member.name) : k.Agrees ρ (σ.set x d) := by
  intro y hy hyk
  have hne : y ≠ x := by
    rintro rfl
    exact hyk (hx hy)
  rw [Valuation.set_of_ne hne, h y hy hyk]

theorem Closed.eval_body (h : k.Closed) (hσ : k.Agrees ρ σ) (hm : m ∈ k) :
    M.eval m.body σ = M.eval m.body ρ := by
  refine M.eval_congr fun x hx => hσ x (h.plain_body m hm x hx) fun hxk => ?_
  obtain ⟨n, hn, rfl⟩ := List.mem_map.1 hxk
  exact h.lifted m hm n hn hx

/-! ## Applying a head to all values -/

theorem eval_applyToValues {head : Term α} {later : List (Member α)} :
    ∀ (scope : List (Term α)) (σ : Valuation D), (later.map Member.value).Nodup →
      (∀ n ∈ later, n.value ∉ head.free) → (∀ n ∈ later, ∀ t ∈ scope, n.value ∉ t.free) →
      M.eval (m.applyToValues head scope later) σ =
        M.applyValues (M.eval head σ) ((scope.map fun t => M.eval t σ) ++
          M.values σ later (scope.map fun t => M.eval t σ)) := by
  induction later with
  | nil =>
    intro scope σ _ _ _
    rw [Member.applyToValues, M.eval_applyAll, Model.values, List.append_nil]
  | cons n later ih =>
    intro scope σ hnodup hhead hscope
    obtain ⟨hn, hnodup⟩ := List.nodup_cons.1 hnodup
    have hnscope := hscope n List.mem_cons_self
    have hbound : n.value ∉ (Term.applyAll n.ann (n.occurrence n.solver) scope).free := by
      rw [Term.mem_free_applyAll, not_or]
      refine ⟨fun h => Member.solver_ne_value (Term.mem_free_var.1 h).symm, ?_⟩
      rintro ⟨t, ht, h⟩
      exact hnscope t ht h
    -- the value of `n`, bound on the way, changes nothing that was there before
    obtain ⟨d, hd⟩ : ∃ d, d = M.applyValues (σ n.solver) (scope.map fun t => M.eval t σ) := ⟨_, rfl⟩
    have hvalue : M.eval (.applyAll n.ann (n.occurrence n.solver) scope) σ = d := by
      rw [M.eval_applyAll, Member.occurrence, M.eval_var, hd]
    have hscope' : (scope ++ [n.occurrence n.value]).map (fun t => M.eval t (σ.set n.value d)) =
        (scope.map fun t => M.eval t σ) ++ [d] := by
      rw [List.map_append, List.map_singleton, Member.occurrence, M.eval_var, Valuation.set_self]
      congr 1
      exact List.map_congr_left fun t ht => M.eval_set_of_not_mem_free (hnscope t ht)
    have hrest := ih (scope ++ [n.occurrence n.value]) (σ.set n.value d) hnodup
      (fun m hm => hhead m (List.mem_cons_of_mem n hm)) (fun m hm t ht => ?fresh)
    case fresh =>
      rcases List.mem_append.1 ht with ht | ht
      · exact hscope m (List.mem_cons_of_mem n hm) t ht
      · rw [List.mem_singleton.1 ht, Member.occurrence, Term.mem_free_var]
        exact fun he => hn (he ▸ List.mem_map_of_mem hm)
    rw [Member.applyToValues, M.eval_letIn_of_not_mem_free hbound, hvalue, hrest, hscope',
      M.eval_set_of_not_mem_free (hhead n List.mem_cons_self), Model.values, ← hd,
      Model.values_congr fun m _ => Valuation.set_of_ne Member.solver_ne_value, List.append_assoc,
      List.singleton_append]

/-- What the equation of a member computes: its body applied to the values before it, its own value
and the least tuple that solves the members after it. -/
theorem Closed.exists_eval_applyToValues (h : k.Closed) (hk : k = pre ++ m :: post)
    {head : Term α} {f : Member α → Name} (hf : ∀ n ∈ pre, ∀ n' ∈ post, n'.value ≠ f n)
    (hfree : ∀ n ∈ post, n.value ∉ head.free) (hhead : M.eval head σ = M.eval m.body ρ)
    (hsolvers : M.Solvers ρ σ (pre.length + 1) post) :
    ∃ ys, M.LeastPrefixed (M.bodies ρ post) ((pre.map fun n => σ (f n)) ++ [σ m.value]) ys ∧
      M.eval (m.applyToValues head
        ((pre.map fun n => n.occurrence (f n)) ++ [m.occurrence m.value]) post) σ =
        M.applyValues (M.eval m.body ρ) ((pre.map fun n => σ (f n)) ++ σ m.value :: ys) := by
  have hvalues := h.nodup_value
  rw [hk, List.map_append, List.map_cons] at hvalues
  obtain ⟨hm, hpost⟩ := List.nodup_cons.1 (List.nodup_append.1 hvalues).2.1
  have hscope : ((pre.map fun n => n.occurrence (f n)) ++ [m.occurrence m.value]).map
      (fun t => M.eval t σ) = (pre.map fun n => σ (f n)) ++ [σ m.value] := by
    rw [List.map_append, List.map_map, List.map_singleton, Member.occurrence, M.eval_var]
    congr 1
    exact List.map_congr_left fun n _ => M.eval_var n.ann false (f n) σ
  have hlength : ((pre.map fun n => σ (f n)) ++ [σ m.value]).length = pre.length + 1 := by simp
  refine ⟨_, hsolvers.leastPrefixed_values hlength, ?_⟩
  rw [eval_applyToValues _ σ hpost hfree, hscope, hhead, List.append_assoc, List.singleton_append]
  intro n hn t ht
  rcases List.mem_append.1 ht with ht | ht
  · obtain ⟨n', hn', rfl⟩ := List.mem_map.1 ht
    rw [Member.occurrence, Term.mem_free_var]
    exact hf n' hn' n hn
  · rw [List.mem_singleton.1 ht, Member.occurrence, Term.mem_free_var]
    exact fun he => hm (he ▸ List.mem_map_of_mem hn)

/-! ## Solvers -/

/-- A term that solves its equation in a fixed point. -/
theorem ap_eval_equation {k : Knot α} {scope : List (Term α)} {head : Term α}
    {wrap : Term α → Term α} {d : D} :
    M.ap (M.eval (k.equation m scope head wrap) σ) d =
      M.eval (wrap (m.applyToValues head (scope ++ [m.occurrence m.value]) (k.later m)))
        (σ.set m.value d) :=
  M.beta ..

/-- A solver that is evaluated where the solvers after it are bound. -/
theorem Closed.exists_eval_solve (h : k.Closed) (hk : k = pre ++ m :: post) (hσ : k.Agrees ρ σ)
    (hsolvers : M.Solvers ρ σ (pre.length + 1) post) {ds : List D} (hds : ds.length = pre.length) :
    ∃ ys, M.LeastPrefixed (M.bodies ρ (m :: post)) ds
      (M.applyValues (M.eval (k.solve m) σ) ds :: ys) := by
  have hmk : m ∈ k := by simp [hk]
  have hvalues := h.nodup_value
  rw [hk, List.map_append, List.map_cons] at hvalues
  obtain ⟨hpre, -, hdisjoint⟩ := List.nodup_append.1 hvalues
  have hlength : ds.length = (pre.map Member.value).length := by rw [hds, List.length_map]
  rw [solve, h.earlier_eq hk, M.applyValues_lamAll hlength]
  refine Model.LeastPrefixed.cons (fun d => ?_) (M.isLeast_fix _ _ _)
  rw [ap_eval_equation, h.later_eq hk, id]
  -- the values before `m` and its own are bound by now
  obtain ⟨σ', hσ'⟩ : ∃ σ', σ' = (σ.bind (pre.map Member.value) ds).set m.value d := ⟨_, rfl⟩
  have hother : ∀ x, x ∉ pre.map Member.value → x ≠ m.value → σ' x = σ x := by
    intro x hx hxm
    rw [hσ', Valuation.set_of_ne hxm, Valuation.bind_of_not_mem hx]
  have hagrees : k.Agrees ρ σ' := by
    intro x hx hxk
    rw [hother x ?_ (Member.value_ne_of_plain hx), hσ x hx hxk]
    intro hxpre
    obtain ⟨n, -, hn⟩ := List.mem_map.1 hxpre
    exact Member.value_ne_of_plain hx hn.symm
  have hsolver : ∀ n ∈ post, σ' n.solver = σ n.solver := by
    refine fun n _ => hother _ (fun hn => ?_) Member.solver_ne_value
    obtain ⟨q, -, hq⟩ := List.mem_map.1 hn
    exact Member.solver_ne_value hq.symm
  have hds' : (pre.map fun n => σ' n.value) = ds := by
    rw [← Valuation.map_bind (ρ := σ) hpre hlength, List.map_map]
    refine List.map_congr_left fun n hn => ?_
    rw [hσ', Valuation.set_of_ne]
    · rfl
    · exact hdisjoint _ (List.mem_map_of_mem hn) _ List.mem_cons_self
  have hvalue : ∀ n ∈ pre, ∀ n' ∈ post, n'.value ≠ n.value := fun n hn n' hn' =>
    (hdisjoint _ (List.mem_map_of_mem hn) _
      (List.mem_cons_of_mem _ (List.mem_map_of_mem hn'))).symm
  have hbody : ∀ n ∈ post, n.value ∉ m.body.free :=
    fun n _ hn => Name.not_plain_value _ _ (h.plain_body m hmk _ hn)
  obtain ⟨ys, hys, heval⟩ := h.exists_eval_applyToValues hk (f := Member.value) hvalue hbody
    (h.eval_body hagrees hmk) (hsolvers.congr hsolver)
  have hm : σ' m.value = d := by rw [hσ', Valuation.set_self]
  rw [hds', hm] at hys heval
  exact ⟨ys, hys, by rw [← hσ', heval]⟩

/-- Bound around a term, the solvers of the last members of a knot are solvers. -/
theorem Closed.exists_eval_bindSolvers (h : k.Closed) (hσ : k.Agrees ρ σ) {post : List (Member α)} :
    ∀ pre : List (Member α), k = pre ++ post →
      ∃ σ' : Valuation D, (∀ x, x ∉ post.map Member.solver → σ' x = σ x) ∧
        M.Solvers ρ σ' pre.length post ∧
        ∀ t, M.eval (post.foldl (fun t n => .letIn n.ann n.solver (k.solve n) t) t) σ =
          M.eval t σ' := by
  induction post with
  | nil => exact fun _ _ => ⟨σ, fun _ _ => rfl, trivial, fun _ => rfl⟩
  | cons n post ih =>
    intro pre hk
    obtain ⟨σ', hother, hsolvers, heval⟩ := ih (pre ++ [n]) (by simp [hk])
    rw [List.length_append, List.length_singleton] at hsolvers
    have hnodup := h.nodup_solver
    rw [hk, List.map_append, List.map_cons] at hnodup
    have hn := (List.nodup_cons.1 (List.nodup_append.1 hnodup).2.1).1
    have hagrees : k.Agrees ρ σ' := by
      intro x hx hxk
      rw [hother x fun hxs => ?_, hσ x hx hxk]
      obtain ⟨q, -, hq⟩ := List.mem_map.1 hxs
      exact Member.solver_ne_of_plain hx hq.symm
    have hfree : n.solver ∉ (k.solve n).free := by
      intro hx
      rcases mem_free_solve hx with hx | hx
      · exact Name.not_plain_solver _ _ (h.plain_body n (by simp [hk]) _ hx)
      · rw [h.later_eq hk] at hx
        exact hn hx
    refine ⟨σ'.set n.solver (M.eval (k.solve n) σ'), fun x hx => ?_, ⟨fun ds hds => ?_, ?_⟩,
      fun t => ?_⟩
    · rw [List.map_cons, List.mem_cons, not_or] at hx
      rw [Valuation.set_of_ne hx.1, hother x hx.2]
    · rw [Valuation.set_self]
      exact h.exists_eval_solve hk hagrees hsolvers hds
    · refine hsolvers.congr fun q hq => Valuation.set_of_ne fun he => hn ?_
      exact he ▸ List.mem_map_of_mem hq
    · rw [List.foldl_cons, heval, M.eval_letIn_of_not_mem_free hfree]

/-! ## Solutions -/

/-- A solution, evaluated where the members before it are bound, is the first component of the least
tuple for the member and those after it. -/
theorem Closed.exists_eval_solution (h : k.Closed) (hk : k = pre ++ m :: post)
    (hempty : ∀ n ∈ k, n.name.text ≠ "") (hσ : k.Agrees ρ σ)
    (hhelper : σ m.name.helper = M.eval m.body ρ) :
    ∃ ys, M.LeastPrefixed (M.bodies ρ (m :: post)) (pre.map fun n => σ n.name)
      (M.eval (k.solution m) σ :: ys) := by
  rw [solution, h.earlier_eq hk]
  refine Model.LeastPrefixed.cons (fun d => ?_) (M.isLeast_fix _ _ _)
  rw [ap_eval_equation, h.later_eq hk, bindSolvers, h.later_eq hk]
  have hmk : m ∈ k := by simp [hk]
  have hvalue : k.Agrees ρ (σ.set m.value d) :=
    hσ.set fun hx => absurd hx (Name.not_plain_value _ _)
  obtain ⟨σ', hother, hsolvers, heval⟩ :=
    h.exists_eval_bindSolvers hvalue (pre ++ [m]) (by rw [hk, List.append_assoc]; rfl)
  rw [List.length_append, List.length_singleton] at hsolvers
  have hhelper' : σ' m.name.helper = M.eval m.body ρ := by
    rw [hother, Valuation.set_of_ne, hhelper]
    · exact Name.helper_ne_value (h.plain_name m hmk) (hempty m hmk)
    · intro hx
      obtain ⟨n, hn, he⟩ := List.mem_map.1 hx
      exact Name.helper_ne_solver (h.plain_name m hmk) (hempty n (by simp [hk, hn])) he.symm
  have hearlier : (pre.map fun n => σ' n.name) = pre.map fun n => σ n.name := by
    refine List.map_congr_left fun n hn => ?_
    have hplain : n.name.Plain := h.plain_name n (by simp [hk, hn])
    rw [hother, Valuation.set_of_ne (Member.value_ne_of_plain hplain)]
    intro hx
    obtain ⟨q, -, hq⟩ := List.mem_map.1 hx
    exact Member.solver_ne_of_plain hplain hq.symm
  have hm : σ' m.value = d := by
    rw [hother, Valuation.set_self]
    intro hx
    obtain ⟨q, -, hq⟩ := List.mem_map.1 hx
    exact Member.solver_ne_value hq
  have hnames : ∀ n ∈ pre, ∀ n' ∈ post, n'.value ≠ n.name := fun n hn n' _ =>
    (Member.value_ne_of_plain (h.plain_name n (by simp [hk, hn]))).symm
  have hhead : ∀ n ∈ post, n.value ∉ (m.occurrence m.name.helper).free := by
    intro n hn hx
    exact Name.helper_ne_value (h.plain_name m hmk) (hempty n (by simp [hk, hn]))
      (Term.mem_free_var.1 hx).symm
  obtain ⟨ys, hys, hterm⟩ := h.exists_eval_applyToValues hk (f := Member.name) hnames hhead
    ((M.eval_var ..).trans hhelper') hsolvers
  rw [hearlier, hm] at hys hterm
  exact ⟨ys, hys, by rw [heval, hterm]⟩

end Knot

/-! ## Evaluating bindings one after another -/

namespace Model

variable (M : Model α D)

/-- The names of the bindings get the values of their terms, one after another. -/
def run (g : Group α) (ρ : Valuation D) : Valuation D :=
  g.foldl (fun σ b => σ.set b.name (M.eval b.term σ)) ρ

variable {M} {g g' : Group α} {ρ : Valuation D}

theorem run_cons {b : Binding α} : M.run (b :: g) ρ = M.run g (ρ.set b.name (M.eval b.term ρ)) :=
  rfl

theorem run_append : M.run (g ++ g') ρ = M.run g' (M.run g ρ) := List.foldl_append

theorem run_of_not_mem {x : Name} (h : x ∉ g.map Binding.name) : M.run g ρ x = ρ x := by
  induction g generalizing ρ with
  | nil => rfl
  | cons b g ih =>
    rw [List.map_cons, List.mem_cons, not_or] at h
    rw [run_cons, ih h.2, Valuation.set_of_ne h.1]

end Model

namespace Knot

variable {k : Knot α} {M : Model α D} {ρ : Valuation D}

/-- **The bindings of a knot give its members the least solution** of all equations. -/
theorem Closed.leastPrefixed_run (h : k.Closed) (hempty : ∀ n ∈ k, n.name.text ≠ "")
    {post : List (Member α)} : ∀ (pre : List (Member α)) {σ : Valuation D}, k = pre ++ post →
      k.Agrees ρ σ →
      M.LeastPrefixed (M.bodies ρ post) (pre.map fun n => σ n.name)
        (post.map fun n => M.run (k.bindingsOf post) σ n.name) := by
  induction post with
  | nil => exact fun _ _ _ _ => Model.leastPrefixed_nil
  | cons m post ih =>
    intro pre σ hk hσ
    have hmk : m ∈ k := by simp [hk]
    -- the helper is bound, then the member
    obtain ⟨σ₁, hσ₁⟩ : ∃ σ₁, σ₁ = σ.set m.name.helper (M.eval m.body σ) := ⟨_, rfl⟩
    obtain ⟨σ₂, hσ₂⟩ : ∃ σ₂, σ₂ = σ₁.set m.name (M.eval (k.solution m) σ₁) := ⟨_, rfl⟩
    have hrun : M.run (k.bindingsOf (m :: post)) σ = M.run (k.bindingsOf post) σ₂ := by
      rw [bindingsOf_cons, Model.run_cons, Model.run_cons, hσ₂, hσ₁]
    have hagrees₁ : k.Agrees ρ σ₁ := by
      rw [hσ₁]
      exact hσ.set fun hx => absurd hx m.name.not_plain_helper
    have hagrees₂ : k.Agrees ρ σ₂ := by
      rw [hσ₂]
      exact hagrees₁.set fun _ => List.mem_map_of_mem hmk
    have hhelper : σ₁ m.name.helper = M.eval m.body ρ := by
      rw [hσ₁, Valuation.set_self, h.eval_body hσ hmk]
    have hearlier₁ : (pre.map fun n => σ₁ n.name) = pre.map fun n => σ n.name := by
      refine List.map_congr_left fun n hn => ?_
      have hplain := h.plain_name n (by simp [hk, hn])
      rw [hσ₁, Valuation.set_of_ne]
      exact fun he => m.name.not_plain_helper (he ▸ hplain)
    have hearlier₂ : (pre.map fun n => σ₂ n.name) = pre.map fun n => σ n.name := by
      rw [← hearlier₁, hσ₂]
      refine List.map_congr_left fun n hn => Valuation.set_of_ne fun he => ?_
      exact (h.name_not_mem hk).1 (he ▸ List.mem_map_of_mem hn)
    have hm : M.run (k.bindingsOf post) σ₂ m.name = M.eval (k.solution m) σ₁ := by
      rw [Model.run_of_not_mem, hσ₂, Valuation.set_self]
      exact not_mem_name_bindingsOf (h.plain_name m hmk) (h.name_not_mem hk).2
    obtain ⟨ys, hys⟩ := h.exists_eval_solution hk hempty hagrees₁ hhelper
    rw [hearlier₁] at hys
    have hrest := ih (pre ++ [m]) (by simp [hk]) hagrees₂
    rw [List.map_append, hearlier₂, List.map_singleton, hσ₂, Valuation.set_self, ← hσ₂] at hrest
    rw [hrun, List.map_cons, hm]
    exact hys.replace_tail hrest

theorem Closed.leastPrefixed_bindings (h : k.Closed) (hempty : ∀ n ∈ k, n.name.text ≠ "") :
    M.LeastPrefixed (M.bodies ρ k) [] (k.map fun n => M.run k.bindings ρ n.name) :=
  h.leastPrefixed_run hempty [] rfl fun _ _ _ => rfl

end Knot

end Letrec
