import Letrec.Proofs.Group.Free
import Letrec.Proofs.Term.Occurrence

/-!
# Hygiene of nested groups

Groups are made linear from the inside out, so that the terms of an outer group may hold names that
were made for inner ones, over the same members even. `Term.Desugared` describes the terms that come
about in this way from names without `@`.

Lifting renames a member `m` to `m@o` in the term of `o` and does not look at the binders on the
way. Those that could stand in its way are parameters that were made for members of the same names
in an inner group. But a parameter `m@o` is only ever put around a term from which `m` has just been
taken away. So no free occurrence of a name lies in the scope of its own parameter
(`Term.Hygienic`), and every construct keeps this, the linear form of a group included
(`Group.hygienic_letIn`). What is free in a desugared term is plain, since helpers are bound where
they are referred to (`Group.mem_free_letIn`). Hence lifting a desugared term captures nothing
(`lift_of_desugared`).
-/

namespace Letrec

variable {α : Type}

/-! ## Binders -/

namespace Name

/-- A name as it stands in a source text: not empty and without `@`. -/
def Proper (x : Name) : Prop := x.Plain ∧ x.text ≠ ""

instance (x : Name) : Decidable x.Proper := inferInstanceAs (Decidable (_ ∧ _))

/-- A binder that is the parameter of no proper name. -/
def Neutral (y : Name) : Prop := ∀ x : Name, x.Proper → ∀ owner, x.lifted owner ≠ y

theorem Plain.neutral {y : Name} (h : y.Plain) : y.Neutral :=
  fun x _ owner he => x.not_plain_lifted owner (he ▸ h)

/-- Parameters of proper names do not start with `@`. -/
theorem neutral_of_text {y : Name} {rest : String} (h : y.text = "@" ++ rest) : y.Neutral :=
  fun _ hx _ he => hx.2 (text_eq_empty_of_lifted hx.1 ((congrArg text he).trans h))

theorem neutral_helper (m : Name) : m.helper.Neutral :=
  neutral_of_text (String.append_assoc ..)

theorem neutral_value (i : Nat) (m : Name) : (m.value i).Neutral := by
  have h : (m.value i).text = "@" ++ ("F" ++ toString i ++ "@" ++ m.text) := by
    simp [value, ← String.append_assoc]
  exact neutral_of_text h

theorem neutral_solver (i : Nat) (m : Name) : (m.solver i).Neutral := by
  have h : (m.solver i).text = "@" ++ ("S" ++ toString i ++ "@" ++ m.text) := by
    simp [solver, ← String.append_assoc]
  exact neutral_of_text h

end Name

/-! ## Hygienic terms -/

namespace Term

/-- No free occurrence of a proper name lies in the scope of a parameter that stands for it. -/
def Hygienic (t : Term α) : Prop := ∀ x : Name, x.Proper → ∀ owner, t.Apart x (x.lifted owner)

variable {a : α} {y : Name} {f s e b : Term α} {alts : List (Alternative α)}

theorem hygienic_lit (v : Literal) : (lit a v).Hygienic :=
  fun _ _ _ _ h => nomatch h

theorem hygienic_builtin (v : Builtin) : (builtin a v).Hygienic :=
  fun _ _ _ _ h => nomatch h

theorem hygienic_var (m : Bool) : (var a m y).Hygienic := by
  intro x _ owner around h
  cases h
  exact List.not_mem_nil

theorem Hygienic.app (hf : f.Hygienic) (hs : s.Hygienic) : (app a f s).Hygienic := by
  intro x hx owner around h
  cases h with
  | func h => exact hf x hx owner _ h
  | arg h => exact hs x hx owner _ h

theorem Hygienic.lam (hy : y.Neutral) (hb : b.Hygienic) : (lam a y b).Hygienic := by
  intro x hx owner around h
  cases h with
  | lam _ h => exact List.not_mem_cons_of_ne_of_not_mem (hy x hx owner) (hb x hx owner _ h)

theorem Hygienic.letIn (hy : y.Neutral) (he : e.Hygienic) (hb : b.Hygienic) :
    (letIn a y e b).Hygienic := by
  intro x hx owner around h
  cases h with
  | bound _ h => exact List.not_mem_cons_of_ne_of_not_mem (hy x hx owner) (he x hx owner _ h)
  | body _ h => exact List.not_mem_cons_of_ne_of_not_mem (hy x hx owner) (hb x hx owner _ h)

theorem Hygienic.caseOf (hs : s.Hygienic) (hbound : ∀ alt ∈ alts, ∀ y ∈ alt.1.bound, y.Neutral)
    (halts : ∀ alt ∈ alts, alt.2.Hygienic) : (caseOf a s alts).Hygienic := by
  intro x hx owner around h
  cases h with
  | scrutinee h => exact hs x hx owner _ h
  | alt halt _ h =>
    rw [List.mem_append, not_or]
    exact ⟨fun hp => hbound _ halt _ hp x hx owner rfl, halts _ halt x hx owner _ h⟩

theorem Hygienic.fix (hb : b.Hygienic) : (fix a b).Hygienic := by
  intro x hx owner around h
  cases h with
  | fix h => exact hb x hx owner _ h

theorem Hygienic.applyAll {args : List (Term α)} (hf : f.Hygienic)
    (hargs : ∀ t ∈ args, t.Hygienic) : (applyAll a f args).Hygienic := by
  induction args generalizing f with
  | nil => exact hf
  | cons t args ih =>
    rw [List.forall_mem_cons] at hargs
    exact ih (hf.app hargs.1) hargs.2

theorem Hygienic.lamAll {params : List Name} (hparams : ∀ y ∈ params, y.Neutral)
    (hb : b.Hygienic) : (lamAll a params b).Hygienic := by
  induction params with
  | nil => exact hb
  | cons y params ih =>
    rw [List.forall_mem_cons] at hparams
    exact .lam hparams.1 (ih hparams.2)

/-! ## Lifting -/

/-- Lifting leaves the occurrences of other plain names where they are. -/
theorem OccursUnder.of_foldl_rename {x owner : Name} {ms : List Name} {around : List Name}
    (hx : x.Plain) : ∀ {t : Term α},
      OccursUnder x around (ms.foldl (fun t m => t.rename m (m.lifted owner)) t) →
        OccursUnder x around t ∧ x ∉ ms := by
  induction ms with
  | nil => exact fun h => ⟨h, List.not_mem_nil⟩
  | cons m ms ih =>
    intro t h
    obtain ⟨h, hms⟩ := ih h
    have hparam : x ≠ m.lifted owner := fun he => m.not_plain_lifted owner (he ▸ hx)
    obtain ⟨h, hm⟩ := h.of_rename hparam
    exact ⟨h, List.not_mem_cons_of_ne_of_not_mem hm hms⟩

/-- The renamings to the parameters of `owner`, one after another, are one renaming of free leaves if
each of them captures nothing in the original term. -/
theorem nameless_foldl_rename (owner : Name) {ms : List Name} (hms : ∀ m ∈ ms, m.Plain) :
    ∀ {t : Term α}, (∀ m ∈ ms, t.Apart m (m.lifted owner)) →
      (ms.foldl (fun t m => t.rename m (m.lifted owner)) t).nameless [] =
        (t.nameless []).mapFree fun x => if x ∈ ms then x.lifted owner else x := by
  induction ms with
  | nil => exact fun _ => (mapFree_nameless fun y _ _ => by simp).symm
  | cons m ms ih =>
    intro t h
    obtain ⟨hm, hms⟩ := List.forall_mem_cons.1 hms
    have hparam : ∀ n : Name, n.Plain → n ≠ m.lifted owner :=
      fun n hn he => m.not_plain_lifted owner (he ▸ hn)
    have hrest : ∀ n ∈ ms, (t.rename m (m.lifted owner)).Apart n (n.lifted owner) := by
      intro n hn around hocc
      exact h n (List.mem_cons_of_mem m hn) around (hocc.of_rename (hparam n (hms n hn))).1
    rw [List.foldl_cons, ih hms hrest, nameless_rename_of_apart (h m List.mem_cons_self),
      Nameless.mapFree_mapFree]
    congr 1
    funext x
    by_cases hx : x = m
    · have hout : m.lifted owner ∉ ms := fun hmem => hparam _ (hms _ hmem) rfl
      simp [hx, hout]
    · simp [hx]

end Term

theorem Binding.hygienic_lift {b : Binding α} {ms : List Name} (hb : b.term.Hygienic)
    (hms : ∀ m ∈ ms, m.Plain) : (b.lift ms).Hygienic := by
  intro x hx owner around hocc hmem
  rw [Binding.lift] at hocc
  obtain ⟨inner, rfl, -, hocc⟩ := hocc.of_lamAll
  obtain ⟨hocc, hxms⟩ := hocc.of_foldl_rename hx.1
  rcases List.mem_append.1 hmem with hmem | hmem
  · -- a parameter of the lifted term: it stands for a member, and `x` is none
    obtain ⟨m, hm, he⟩ := List.mem_map.1 hmem
    exact hxms (((Name.lifted_inj (hms m hm) hx.1).1 he).1 ▸ hm)
  · exact hb x hx owner inner hocc hmem

/-! ## Knots -/

namespace Knot

open Term

variable {k : Knot α}

theorem hygienic_applyToValues {m : Member α} {head : Term α} {later : List (Member α)}
    (hhead : head.Hygienic) : ∀ {scope : List (Term α)}, (∀ t ∈ scope, t.Hygienic) →
      (m.applyToValues head scope later).Hygienic := by
  induction later with
  | nil => exact fun hscope => hhead.applyAll hscope
  | cons n later ih =>
    intro scope hscope
    refine .letIn (n.name.neutral_value n.index) ((hygienic_var _).applyAll hscope) (ih ?_)
    simpa only [List.forall_mem_append, List.forall_mem_singleton] using
      ⟨hscope, hygienic_var _⟩

theorem hygienic_equation {m : Member α} {head : Term α} {scope : List (Term α)}
    {wrap : Term α → Term α} (hhead : head.Hygienic) (hscope : ∀ t ∈ scope, t.Hygienic)
    (hwrap : ∀ t : Term α, t.Hygienic → (wrap t).Hygienic) :
    (k.equation m scope head wrap).Hygienic := by
  refine .lam (m.name.neutral_value m.index) (hwrap _ (hygienic_applyToValues hhead ?_))
  simpa only [List.forall_mem_append, List.forall_mem_singleton] using ⟨hscope, hygienic_var _⟩

theorem hygienic_occurrences (ms : List (Member α)) (f : Member α → Name) :
    ∀ t ∈ ms.map fun n => n.occurrence (f n), t.Hygienic := by
  intro t ht
  obtain ⟨n, -, rfl⟩ := List.mem_map.1 ht
  exact hygienic_var _

theorem hygienic_solve {m : Member α} (h : m.body.Hygienic) : (k.solve m).Hygienic := by
  refine .lamAll (fun y hy => ?_) (.fix (hygienic_equation h (hygienic_occurrences _ _)
    fun _ ht => ht))
  obtain ⟨n, -, rfl⟩ := List.mem_map.1 hy
  exact n.name.neutral_value n.index

variable (h : ∀ m ∈ k, m.body.Hygienic)
include h

theorem hygienic_bindSolvers (m : Member α) {t : Term α} (ht : t.Hygienic) :
    (k.bindSolvers m t).Hygienic := by
  have hlater : ∀ n ∈ k.later m, n.body.Hygienic := fun n hn => h n (List.mem_of_mem_drop hn)
  unfold bindSolvers
  generalize k.later m = later at hlater
  induction later generalizing t with
  | nil => exact ht
  | cons n later ih =>
    obtain ⟨hn, hlater⟩ := List.forall_mem_cons.1 hlater
    exact ih (.letIn (n.name.neutral_solver n.index) (hygienic_solve hn) ht) hlater

theorem hygienic_bindings {b : Binding α} (hb : b ∈ k.bindings) : b.term.Hygienic := by
  obtain ⟨m, hm, rfl | rfl⟩ := mem_bindingsOf.1 hb
  · exact h m hm
  · exact .fix (hygienic_equation (hygienic_var _) (hygienic_occurrences _ _)
      fun _ ht => hygienic_bindSolvers h m ht)

end Knot

/-! ## Groups -/

namespace Group

variable {g : Group α} {body : Term α} {x : Name}

theorem hygienic_emit (hname : ∀ b ∈ g, b.name.Plain) (hterm : ∀ b ∈ g, b.term.Hygienic)
    {c : Component} {b : Binding α} (hb : b ∈ (g.emit c).value) : b.term.Hygienic := by
  unfold emit at hb
  split at hb
  · refine Knot.hygienic_bindings (fun m hm => ?_) hb
    obtain ⟨b, hb, -, -, hbody⟩ := Knot.mem_ofGroup hm
    rw [hbody]
    refine Binding.hygienic_lift (hterm b (mem_of_mem_select hb)) fun y hy => ?_
    obtain ⟨b', hb', rfl⟩ := List.mem_map.1 hy
    exact hname b' (mem_of_mem_select hb')
  · exact hterm b (mem_of_mem_select hb)

theorem hygienic_nest (hname : ∀ b ∈ g, b.name.Neutral) (hterm : ∀ b ∈ g, b.term.Hygienic)
    (hbody : body.Hygienic) : (g.nest body).Hygienic := by
  induction g with
  | nil => exact hbody
  | cons b g ih =>
    rw [List.forall_mem_cons] at hname hterm
    exact .letIn hname.1 hterm.1 (ih hname.2 hterm.2)

/-- A group of hygienic terms around a hygienic body is hygienic. -/
theorem hygienic_letIn (hname : ∀ b ∈ g, b.name.Plain) (hterm : ∀ b ∈ g, b.term.Hygienic)
    (hbody : body.Hygienic) : (g.letIn body).value.Hygienic := by
  have hemit : ∀ b ∈ g.linearize.value, ∃ c, b ∈ (g.emit c).value := by
    intro b hb
    rw [value_linearize] at hb
    obtain ⟨c, -, hb⟩ := List.mem_flatMap.1 hb
    exact ⟨c, hb⟩
  refine hygienic_nest (fun b hb => ?_) (fun b hb => ?_) hbody
  · obtain ⟨c, hb⟩ := hemit b hb
    obtain ⟨i, -, b', hb', hname' | hname'⟩ := mem_emit hb <;> rw [hname']
    · exact (hname b' (List.mem_of_getElem? hb')).neutral
    · exact b'.name.neutral_helper
  · obtain ⟨c, hb⟩ := hemit b hb
    exact hygienic_emit hname hterm hb

end Group

/-! ## Desugared terms -/

/-- The terms that are made from literals, built-in constructors and proper names by the constructs
of the language and by making groups linear. -/
inductive Term.Desugared : Term α → Prop where
  | lit (a : α) (v : Literal) : Desugared (.lit a v)
  | builtin (a : α) (v : Builtin) : Desugared (.builtin a v)
  | var (a : α) (m : Bool) {x : Name} : x.Proper → Desugared (.var a m x)
  | app (a : α) {f s : Term α} : Desugared f → Desugared s → Desugared (.app a f s)
  | lam (a : α) {x : Name} {b : Term α} : x.Proper → Desugared b → Desugared (.lam a x b)
  | letIn (a : α) {x : Name} {e b : Term α} :
      x.Proper → Desugared e → Desugared b → Desugared (.letIn a x e b)
  | caseOf (a : α) {s : Term α} {alts : List (Alternative α)} :
      Desugared s → (∀ alt ∈ alts, ∀ x ∈ alt.1.bound, x.Proper) →
      (∀ alt ∈ alts, Desugared alt.2) → Desugared (.caseOf a s alts)
  | fix (a : α) {b : Term α} : Desugared b → Desugared (.fix a b)
  | group {g : Group α} {body : Term α} :
      (g.map Binding.name).Nodup → (∀ b ∈ g, b.name.Proper) → (∀ b ∈ g, Desugared b.term) →
      Desugared body → Desugared (g.letIn body).value

namespace Term.Desugared

variable {t : Term α}

theorem hygienic (h : t.Desugared) : t.Hygienic := by
  induction h with
  | lit a v => exact hygienic_lit v
  | builtin a v => exact hygienic_builtin v
  | var a m hx => exact hygienic_var m
  | app a _ _ ihf ihs => exact ihf.app ihs
  | lam a hx _ ih => exact ih.lam hx.1.neutral
  | letIn a hx _ _ ihe ihb => exact ihe.letIn hx.1.neutral ihb
  | caseOf a _ hbound _ ihs ih =>
    exact ihs.caseOf (fun alt halt y hy => (hbound alt halt y hy).1.neutral) ih
  | fix a _ ih => exact ih.fix
  | group _ hname _ _ ih ihbody =>
    exact Group.hygienic_letIn (fun b hb => (hname b hb).1) ih ihbody

/-- Nothing that was made for a knot is left unbound. -/
theorem plain_free (h : t.Desugared) : ∀ x ∈ t.free, x.Plain := by
  induction h with
  | lit | builtin => simp
  | var a m hx =>
    intro y hy
    exact mem_free_var.1 hy ▸ hx.1
  | app a _ _ ihf ihs => exact fun x hx => (mem_free_app.1 hx).elim (ihf x) (ihs x)
  | lam a _ _ ih => exact fun x hx => ih x (mem_free_lam.1 hx).1
  | letIn a _ _ _ ihe ihb => exact fun x hx => (mem_free_letIn.1 hx).1.elim (ihe x) (ihb x)
  | caseOf a _ _ _ ihs ih =>
    intro x hx
    rcases mem_free_caseOf.1 hx with hx | ⟨alt, halt, hx, -⟩
    · exact ihs x hx
    · exact ih alt halt x hx
  | fix a _ ih => exact fun x hx => ih x (mem_free_fix.1 hx)
  | group hnodup hname _ _ ih ihbody =>
    intro x hx
    rcases Group.mem_free_letIn hnodup (fun b hb => (hname b hb).1) ih hx with hx | ⟨b, hb, hx⟩
    · exact ihbody x hx
    · exact ih b hb x hx

end Term.Desugared

/-- The names of the bindings of a component. -/
def Group.namesOf (g : Group α) (c : Component) : List Name :=
  (g.select c.members).map Binding.name

/-- **Lifting a desugared term captures nothing.** What is free in a desugared term is plain, and in
the term of a member of a recursive component no free occurrence of a member lies in the scope of a
binder of its parameter. So the lifted term is a function of the parameters of all members in which
each free occurrence of a member is renamed to its parameter. -/
theorem lift_of_desugared :
    (∀ t : Term α, t.Desugared → ∀ x ∈ t.free, x.Plain) ∧
      ∀ g : Group α, (∀ b ∈ g, b.name.Proper) → (∀ b ∈ g, b.term.Desugared) →
        ∀ c ∈ g.components, c.cyclic = true → ∀ o ∈ g.select c.members,
          (∀ m ∈ g.select c.members, o.term.Apart m.name (m.name.lifted o.name)) ∧
            ∃ body, o.lift (g.namesOf c) =
                .lamAll o.term.ann ((g.namesOf c).map (Name.lifted · o.name)) body ∧
              body.nameless [] = (o.term.nameless []).mapFree fun x =>
                if x ∈ g.namesOf c then x.lifted o.name else x := by
  refine ⟨fun t ht => ht.plain_free, fun g hname hterm c _ _ o ho => ?_⟩
  have hmem : ∀ b ∈ g.select c.members, b ∈ g := fun _ hb => Group.mem_of_mem_select hb
  have hapart : ∀ m ∈ g.select c.members, o.term.Apart m.name (m.name.lifted o.name) :=
    fun m hm => (hterm o (hmem o ho)).hygienic m.name (hname m (hmem m hm)) o.name
  refine ⟨hapart, _, rfl, Term.nameless_foldl_rename o.name (fun m hm => ?_) fun m hm => ?_⟩
  all_goals obtain ⟨b, hb, rfl⟩ := List.mem_map.1 hm
  · exact (hname b (hmem b hb)).1
  · exact hapart b hb

/-- `ping = \x -> pong x; pong = \x -> ping x`. -/
def pingPong : Group Unit :=
  [⟨⟨"ping"⟩, .lam () ⟨"x"⟩ (.app () (.var () false ⟨"pong"⟩) (.var () false ⟨"x"⟩))⟩,
   ⟨⟨"pong"⟩, .lam () ⟨"x"⟩ (.app () (.var () false ⟨"ping"⟩) (.var () false ⟨"x"⟩))⟩]

/-- The group above, made linear around `ping`, and applied to a `pong` from further out. -/
def nestedPing : Term Unit :=
  .app () (pingPong.letIn (.var () false ⟨"ping"⟩)).value (.var () false ⟨"pong"⟩)

/-- A group over the names of the one inside it. -/
def nestedPingPong : Group Unit :=
  [⟨⟨"ping"⟩, nestedPing⟩, ⟨⟨"pong"⟩, .var () false ⟨"ping"⟩⟩]

/-- The parameter `pong@ping` is a binder in the term of `ping` already. -/
theorem lift_of_desugared_nestedPingPong :
    ⟨[0, 1], true⟩ ∈ nestedPingPong.components ∧
      (⟨"pong"⟩ ∈ nestedPing.free ∧ Name.lifted ⟨"pong"⟩ ⟨"ping"⟩ ∈ nestedPing.names) ∧
      (∀ x ∈ nestedPing.free, x.Plain) ∧
      nestedPing.Apart ⟨"pong"⟩ (Name.lifted ⟨"pong"⟩ ⟨"ping"⟩) ∧
      ∃ body, Binding.lift [⟨"ping"⟩, ⟨"pong"⟩] ⟨⟨"ping"⟩, nestedPing⟩ =
          .lamAll () [Name.lifted ⟨"ping"⟩ ⟨"ping"⟩, Name.lifted ⟨"pong"⟩ ⟨"ping"⟩] body ∧
        body.nameless [] = (nestedPing.nameless []).mapFree fun x =>
          if x ∈ [⟨"ping"⟩, ⟨"pong"⟩] then x.lifted ⟨"ping"⟩ else x := by
  have hcomponent : ⟨[0, 1], true⟩ ∈ nestedPingPong.components := by decide +kernel
  have hping : (Name.mk "ping").Proper := by decide
  have hpong : (Name.mk "pong").Proper := by decide
  have hx : (Name.mk "x").Proper := by decide
  have hinner : ∀ b ∈ pingPong, b.term.Desugared := by
    simp only [pingPong, List.forall_mem_cons]
    exact ⟨.lam () hx (.app () (.var () false hpong) (.var () false hx)),
      .lam () hx (.app () (.var () false hping) (.var () false hx)), nofun⟩
  have hterm : nestedPing.Desugared :=
    .app () (.group (by decide) (by decide) hinner (.var () false hping)) (.var () false hpong)
  have houter : ∀ b ∈ nestedPingPong, b.term.Desugared := by
    simp only [nestedPingPong, List.forall_mem_cons]
    exact ⟨hterm, .var () false hping, nofun⟩
  obtain ⟨hapart, hlift⟩ := lift_of_desugared.2 nestedPingPong (by decide) houter _ hcomponent rfl
    ⟨⟨"ping"⟩, nestedPing⟩ List.mem_cons_self
  exact ⟨hcomponent, by decide +kernel, lift_of_desugared.1 nestedPing hterm,
    hapart ⟨⟨"pong"⟩, .var () false ⟨"ping"⟩⟩ (List.mem_cons_of_mem _ List.mem_cons_self), hlift⟩

end Letrec
