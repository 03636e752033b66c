import Letrec.Program
import Letrec.Proofs.Data.Insert

/-!
# The index of constructors

The owners of constructors are an index over the definitions of an environment, but they are stored
and changed apart from them. `Reached` describes the environments that any requests to register
definitions lead to, together with the definitions that were accepted.

What the index says is then true (`index_sound`): the owner of a constructor is a registered type
that declares it. But the index does not cover all definitions, as it is meant to: it misses
constructors that registered types declare (`not_complete`). If a type takes a constructor over from
another one and is then redefined without it, the constructor is not given back to the other type,
which still declares it, and is left to nobody. This is the only way in which a declared constructor
gets lost (`owner?_of_declares`).
-/

namespace Letrec

/-- Whatever the policy, an accepted definition is inserted. -/
theorem CollisionPolicy.eq_insert_of_register {policy : CollisionPolicy} {env : DataEnv}
    {d : DataDef} {r : Logged DataEnv} (h : policy.register env d = .ok r) : r = env.insert d := by
  cases policy with
  | overwrite => exact (Except.ok.inj h).symm
  | reject => exact (DataEnv.tryInsert_eq_ok_iff.1 h).2.symm

/-- `data Bool = True | False` -/
def DataDef.bool : DataDef := ⟨⟨"Bool"⟩, [⟨⟨"True"⟩, []⟩, ⟨⟨"False"⟩, []⟩]⟩

namespace DataEnv

theorem prelude_eq : prelude = (insert {} .bool).value := rfl

/-- Requests lead from the empty environment or from that of truth values to `env`. Each is made
under one of the `policies`. The definitions that were accepted are `ds`, the latest first. -/
inductive Reached (policies : List CollisionPolicy) : DataEnv → List DataDef → Prop where
  | empty : Reached policies {} []
  | prelude : Reached policies prelude [.bool]
  | accepted {env : DataEnv} {ds : List DataDef} {policy : CollisionPolicy} {d : DataDef}
      {r : Logged DataEnv} : Reached policies env ds → policy ∈ policies →
      policy.register env d = .ok r → Reached policies r.value (d :: ds)
  | refused {env : DataEnv} {ds : List DataDef} {policy : CollisionPolicy} {d : DataDef}
      {e : DataEnvError} : Reached policies env ds → policy ∈ policies →
      policy.register env d = .error e → Reached policies env ds

variable {policies : List CollisionPolicy} {env : DataEnv} {ds : List DataDef} {d v : DataDef}
  {c type : Name}

/-- What holds of the empty environment and is kept by insertions holds of every environment. -/
@[elab_as_elim]
theorem Reached.induct {motive : DataEnv → List DataDef → Prop} (h : Reached policies env ds)
    (empty : motive {} [])
    (insert : ∀ env ds d, Reached policies env ds → motive env ds →
      motive (env.insert d).value (d :: ds)) :
    motive env ds := by
  induction h with
  | empty => exact empty
  | prelude => exact insert {} [] .bool .empty empty
  | accepted h _ hr ih => exact CollisionPolicy.eq_insert_of_register hr ▸ insert _ _ _ h ih
  | refused _ _ _ ih => exact ih

/-- `data Fruit = Orange` -/
def fruit : DataDef := ⟨⟨"Fruit"⟩, [⟨⟨"Orange"⟩, []⟩]⟩

/-- `data Colour = Orange | Red` -/
def colour : DataDef := ⟨⟨"Colour"⟩, [⟨⟨"Orange"⟩, []⟩, ⟨⟨"Red"⟩, []⟩]⟩

/-- `data Colour = Red` -/
def red : DataDef := ⟨⟨"Colour"⟩, [⟨⟨"Red"⟩, []⟩]⟩

/-- `Colour` takes `Orange` from `Fruit` and is then redefined without it, which leaves `Orange`
without an owner. -/
def oranges : DataEnv :=
  (insert (insert (insert {} fruit).value colour).value red).value

theorem reached_oranges : Reached [.overwrite] oranges [red, colour, fruit] := by
  have hmem : CollisionPolicy.overwrite ∈ [CollisionPolicy.overwrite] := List.mem_cons_self
  exact .accepted (.accepted (.accepted .empty hmem rfl) hmem rfl) hmem rfl

/-! ## What the index says -/

/-- Definitions stand under their own names, and the owner of a constructor declares it. -/
structure Sound (env : DataEnv) : Prop where
  named : ∀ type d, env.def? type = some d → d.name = type
  declared : ∀ c type, env.owner? c = some type → ∃ d, env.def? type = some d ∧ d.Declares c

theorem Sound.empty : Sound {} where
  named := by simp [def?]
  declared := by simp [owner?]

/-- In a sound environment the type loses what it owned and declares no more. -/
theorem Sound.owner?_insert (h : env.Sound) (d : DataDef) (c : Name) :
    (env.insert d).value.owner? c =
      if d.Declares c then some d.name
      else if env.owner? c = some d.name then none
      else env.owner? c := by
  have hold : ((∃ old, env.def? d.name = some old ∧ old.Declares c) ∧ env.owner? c = some d.name) ↔
      env.owner? c = some d.name :=
    and_iff_right_of_imp (h.declared c d.name)
  rw [DataEnv.owner?_insert]
  simp only [hold]

theorem Sound.insert (h : env.Sound) (d : DataDef) : Sound (env.insert d).value where
  named type e he := by
    rw [def?_insert] at he
    split at he
    · next htype => rw [htype, Option.some.inj he]
    · exact h.named type e he
  declared c type htype := by
    rw [h.owner?_insert] at htype
    split at htype
    · next hc =>
      obtain rfl := Option.some.inj htype
      exact ⟨d, by rw [def?_insert, if_pos rfl], hc⟩
    · split at htype
      · cases htype
      · next hne =>
        have hd : type ≠ d.name := fun he => hne (he ▸ htype)
        obtain ⟨e, he, hc⟩ := h.declared c type htype
        exact ⟨e, by rw [def?_insert, if_neg hd, he], hc⟩

theorem Reached.sound (h : Reached policies env ds) : env.Sound :=
  h.induct Sound.empty fun _ _ d _ ih => ih.insert d

/-- The first constructor of that name in the definition of the owner. -/
theorem Sound.constructorTypes?_eq (h : env.Sound) (howner : env.owner? c = some type) :
    ∃ d con, env.def? type = some d ∧ d.constructor? c = some con ∧
      env.constructorTypes? c = some (.data none type, con.fields) := by
  obtain ⟨d, hd, hc⟩ := h.declared c type howner
  obtain ⟨con, hcon⟩ := Option.isSome_iff_exists.1 (DataDef.isSome_constructor?_iff.2 hc)
  exact ⟨d, con, hd, hcon, by simp [constructorTypes?, howner, hd, hcon]⟩

theorem constructorTypes?_eq_none (h : env.owner? c = none) : env.constructorTypes? c = none := by
  simp [constructorTypes?, h]

/-- **The index of constructors is sound.** -/
theorem index_sound (h : Reached policies env ds) :
    (∀ type d, env.def? type = some d → d.name = type) ∧
      (∀ c type, env.owner? c = some type → ∃ d, env.def? type = some d ∧ d.Declares c) ∧
      (∀ c, (env.constructorTypes? c).isSome ↔ (env.owner? c).isSome) ∧
      ∀ c type, env.owner? c = some type → ∃ d before con after,
        env.def? type = some d ∧ d.constructors = before ++ con :: after ∧ con.name = c ∧
          (∀ con' ∈ before, con'.name ≠ c) ∧
          env.constructorTypes? c = some (.data none type, con.fields) := by
  have hsound := h.sound
  refine ⟨hsound.named, hsound.declared, fun c => ?_, fun c type howner => ?_⟩
  · cases howner : env.owner? c with
    | none => simp [constructorTypes?_eq_none howner]
    | some type =>
      obtain ⟨d, con, -, -, htypes⟩ := hsound.constructorTypes?_eq howner
      simp [htypes]
  · obtain ⟨d, con, hd, hcon, htypes⟩ := hsound.constructorTypes?_eq howner
    obtain ⟨hname, before, after, hsplit, hfirst⟩ := List.find?_eq_some_iff_append.1 hcon
    exact ⟨d, before, con, after, hd, hsplit, by simpa using hname,
      fun con' hcon' => by simpa using hfirst con' hcon', htypes⟩

theorem index_sound_oranges :
    Reached [.overwrite] oranges [red, colour, fruit] ∧
      oranges.def? ⟨"Colour"⟩ = some red ∧ red.name = ⟨"Colour"⟩ ∧
      oranges.owner? ⟨"Red"⟩ = some ⟨"Colour"⟩ ∧
      (∃ d, oranges.def? ⟨"Colour"⟩ = some d ∧ d.Declares ⟨"Red"⟩) ∧
      ((oranges.constructorTypes? ⟨"Red"⟩).isSome ↔ (oranges.owner? ⟨"Red"⟩).isSome) ∧
      ∃ d before con after, oranges.def? ⟨"Colour"⟩ = some d ∧
        d.constructors = before ++ con :: after ∧ con.name = ⟨"Red"⟩ ∧
        (∀ con' ∈ before, con'.name ≠ ⟨"Red"⟩) ∧
        oranges.constructorTypes? ⟨"Red"⟩ = some (.data none ⟨"Colour"⟩, con.fields) := by
  have hdef : oranges.def? ⟨"Colour"⟩ = some red := by decide +kernel
  have howner : oranges.owner? ⟨"Red"⟩ = some ⟨"Colour"⟩ := by decide +kernel
  obtain ⟨hnamed, hdeclared, hsome, htypes⟩ := index_sound reached_oranges
  exact ⟨reached_oranges, hdef, hnamed _ _ hdef, howner, hdeclared _ _ howner, hsome _,
    htypes _ _ howner⟩

/-! ## What the index misses -/

theorem Reached.mem_of_def? (h : Reached policies env ds) :
    env.def? type = some d → d ∈ ds := by
  refine h.induct (by simp [def?]) fun env ds e _ ih hd => ?_
  rw [def?_insert] at hd
  split at hd
  · simp [Option.some.inj hd]
  · exact List.mem_cons_of_mem e (ih hd)

/-- The type of the last definition that declares a constructor owns it, unless the type has been
redefined without it. -/
theorem Reached.owner?_of_last (h : Reached policies env ds) :
    ds.find? (·.Declares c) = some v →
      ∃ e, env.def? v.name = some e ∧
        env.owner? c = if e.Declares c then some v.name else none := by
  refine h.induct (by simp) fun env ds d hreached ih hv => ?_
  have howner := hreached.sound.owner?_insert d c
  by_cases hc : d.Declares c
  · rw [List.find?_cons_of_pos (by simpa using hc)] at hv
    obtain rfl := Option.some.inj hv
    exact ⟨d, by rw [def?_insert, if_pos rfl], by rw [howner, if_pos hc, if_pos hc]⟩
  · rw [List.find?_cons_of_neg (by simpa using hc)] at hv
    rw [if_neg hc] at howner
    obtain ⟨e, he, hlast⟩ := ih hv
    by_cases hname : v.name = d.name
    · -- the owner is redefined and declares `c` no more
      refine ⟨d, by rw [def?_insert, if_pos hname], ?_⟩
      rw [howner, hlast, if_neg hc]
      split <;> simp [hname]
    · refine ⟨e, by rw [def?_insert, if_neg hname, he], ?_⟩
      rw [howner, hlast]
      split <;> simp [hname]

/-- **Which declared constructors the index misses**: those of which the last accepted definition
that declares them is of another type, which has been redefined without them. The redefinition takes
the owner away and does not give the constructor back. The owner of every other declared constructor
is the type of the last accepted definition that declares it. -/
theorem owner?_of_declares (h : Reached policies env ds) (hd : env.def? type = some d)
    (hc : d.Declares c) :
    ∃ v e, ds.find? (·.Declares c) = some v ∧ env.def? v.name = some e ∧
      (e.Declares c → env.owner? c = some v.name ∧ (env.constructorTypes? c).isSome) ∧
      (¬ e.Declares c →
        v.name ≠ type ∧ env.owner? c = none ∧ env.constructorTypes? c = none) := by
  have hsome : (ds.find? (·.Declares c)).isSome :=
    List.find?_isSome.2 ⟨d, h.mem_of_def? hd, by simpa using hc⟩
  obtain ⟨v, hv⟩ := Option.isSome_iff_exists.1 hsome
  obtain ⟨e, he, howner⟩ := h.owner?_of_last hv
  refine ⟨v, e, hv, he, fun hec => ?_, fun hec => ?_⟩
  · rw [if_pos hec] at howner
    obtain ⟨_, _, _, _, htypes⟩ := h.sound.constructorTypes?_eq howner
    exact ⟨howner, by rw [htypes]; rfl⟩
  · rw [if_neg hec] at howner
    refine ⟨fun hname => hec ?_, howner, constructorTypes?_eq_none howner⟩
    rw [hname, hd] at he
    exact Option.some.inj he ▸ hc

theorem owner?_of_declares_oranges :
    oranges.def? ⟨"Fruit"⟩ = some fruit ∧ fruit.Declares ⟨"Orange"⟩ ∧
      ∃ v e, [red, colour, fruit].find? (·.Declares ⟨"Orange"⟩) = some v ∧
        oranges.def? v.name = some e ∧
        (e.Declares ⟨"Orange"⟩ →
          oranges.owner? ⟨"Orange"⟩ = some v.name ∧ (oranges.constructorTypes? ⟨"Orange"⟩).isSome) ∧
        (¬ e.Declares ⟨"Orange"⟩ →
          v.name ≠ ⟨"Fruit"⟩ ∧ oranges.owner? ⟨"Orange"⟩ = none ∧
            oranges.constructorTypes? ⟨"Orange"⟩ = none) := by
  have hd : oranges.def? ⟨"Fruit"⟩ = some fruit := by decide +kernel
  have hc : fruit.Declares ⟨"Orange"⟩ := by decide
  exact ⟨hd, hc, owner?_of_declares reached_oranges hd hc⟩

/-- What the index is meant to be: every constructor that a registered definition declares has an
owner. -/
def Complete (env : DataEnv) : Prop :=
  ∀ type d c, env.def? type = some d → d.Declares c →
    ∃ owner e, env.owner? c = some owner ∧ env.def? owner = some e ∧ e.Declares c ∧
      (env.constructorTypes? c).isSome

/-- The index misses a constructor that is still declared. -/
theorem not_complete : ¬ ∀ policies env ds, Reached policies env ds → env.Complete := by
  intro h
  obtain ⟨owner, _, howner, -⟩ :=
    h _ _ _ reached_oranges ⟨"Fruit"⟩ fruit ⟨"Orange"⟩ (by decide +kernel) (by decide)
  have hnone : oranges.owner? ⟨"Orange"⟩ = none := by decide +kernel
  rw [hnone] at howner
  cases howner

end DataEnv

end Letrec
