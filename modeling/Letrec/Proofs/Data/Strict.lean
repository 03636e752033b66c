import Letrec.Proofs.Data.Index

/-!
# Strict registration

`tryInsert` compares the constructors of a new definition with the index of owners, never with the
other definitions. That is enough, since under strict requests alone the index is exactly the
inverse of the definitions: it is sound in any case, and it has an entry for every declared
constructor (`Exclusive`). Accepted definitions keep this, those that give constructors up included,
so that no constructor is ever declared twice (`unique_of_strict`).
-/

namespace Letrec.DataEnv

variable {env : DataEnv} {ds : List DataDef} {d : DataDef} {c type : Name}

theorem Reached.admitted {policies : List CollisionPolicy} (h : Reached policies env ds)
    (hpolicy : .reject ∈ policies) (hfault : env.fault? d.name [] d.constructors = none) :
    Reached policies (env.insert d).value (d :: ds) :=
  have hregister : CollisionPolicy.reject.register env d = .ok (env.insert d) :=
    tryInsert_eq_ok_iff.2 ⟨hfault, rfl⟩
  h.accepted hpolicy hregister

/-- The constructors of every definition are distinct and belong to its type. -/
structure Exclusive (env : DataEnv) : Prop where
  nodup : ∀ type d, env.def? type = some d → (d.constructors.map DataCon.name).Nodup
  owned : ∀ type d c, env.def? type = some d → d.Declares c → env.owner? c = some type

theorem Exclusive.empty : Exclusive {} where
  nodup := by simp [def?]
  owned := by simp [def?]

/-- A definition that `tryInsert` admits does not touch the constructors of other types. -/
theorem Exclusive.insert (h : env.Exclusive) (hsound : env.Sound)
    (hfault : env.fault? d.name [] d.constructors = none) : Exclusive (env.insert d).value := by
  obtain ⟨hnodup, -, hfree⟩ := fault?_eq_none_iff.1 hfault
  constructor
  case nodup =>
    intro type e he
    rw [def?_insert] at he
    split at he
    · exact Option.some.inj he ▸ hnodup
    · exact h.nodup type e he
  case owned =>
    intro type e c he hc
    rw [def?_insert] at he
    rw [hsound.owner?_insert]
    split at he
    · next htype => rw [if_pos (Option.some.inj he ▸ hc), htype]
    · next htype =>
      have howner := h.owned type e c he hc
      have hd : ¬ d.Declares c := fun hd => htype (hfree c hd type howner)
      rw [if_neg hd, howner, if_neg (by simpa using htype)]

theorem Reached.exclusive (h : Reached [.reject] env ds) : env.Exclusive := by
  induction h with
  | empty => exact Exclusive.empty
  | prelude => exact Exclusive.empty.insert Sound.empty (by decide +kernel)
  | accepted h hpolicy hr ih =>
    obtain rfl := List.mem_singleton.1 hpolicy
    obtain ⟨hfault, rfl⟩ := tryInsert_eq_ok_iff.1 hr
    exact ih.insert h.sound hfault
  | refused _ _ _ ih => exact ih

/-- **Strict registration keeps constructors unique**, within a definition and between types, and
the index is the inverse of the definitions. -/
theorem unique_of_strict (h : Reached [.reject] env ds) :
    (∀ type d, env.def? type = some d → (d.constructors.map DataCon.name).Nodup) ∧
      (∀ type other d e c, env.def? type = some d → env.def? other = some e →
        d.Declares c → e.Declares c → type = other) ∧
      ∀ c type, env.owner? c = some type ↔ ∃ d, env.def? type = some d ∧ d.Declares c := by
  have hexcl := h.exclusive
  refine ⟨hexcl.nodup, ?unique, fun c type => ⟨h.sound.declared c type, ?owned⟩⟩
  case unique =>
    intro type other d e c hd he hdc hec
    have hsame := (hexcl.owned type d c hd hdc).symm.trans (hexcl.owned other e c he hec)
    exact Option.some.inj hsame
  case owned =>
    rintro ⟨d, hd, hc⟩
    exact hexcl.owned type d c hd hc

/-- `data Fruit = Apple` -/
def apple : DataDef := ⟨⟨"Fruit"⟩, [⟨⟨"Apple"⟩, []⟩]⟩

/-- `Colour` gets `Orange` only after `Fruit` has given it up. -/
def exchanged : DataEnv :=
  (insert (insert (insert prelude fruit).value apple).value colour).value

theorem reached_exchanged : Reached [.reject] exchanged [colour, apple, fruit, .bool] := by
  have hmem : CollisionPolicy.reject ∈ [CollisionPolicy.reject] := List.mem_cons_self
  have hfruit : Reached [.reject] (prelude.insert fruit).value [fruit, .bool] :=
    Reached.prelude.admitted hmem (by decide +kernel)
  have hcollision : CollisionPolicy.reject.register (prelude.insert fruit).value colour =
      .error (.constructorCollision ⟨"Orange"⟩ ⟨"Fruit"⟩ ⟨"Colour"⟩) := rfl
  have hrefused := hfruit.refused hmem hcollision
  exact (hrefused.admitted hmem (by decide +kernel)).admitted hmem (by decide +kernel)

theorem unique_of_strict_exchanged :
    Reached [.reject] exchanged [colour, apple, fruit, .bool] ∧
      exchanged.owner? ⟨"Orange"⟩ = some ⟨"Colour"⟩ ∧
      ((∀ type d, exchanged.def? type = some d → (d.constructors.map DataCon.name).Nodup) ∧
        (∀ type other d e c, exchanged.def? type = some d → exchanged.def? other = some e →
          d.Declares c → e.Declares c → type = other) ∧
        ∀ c type, exchanged.owner? c = some type ↔
          ∃ d, exchanged.def? type = some d ∧ d.Declares c) :=
  ⟨reached_exchanged, by decide +kernel, unique_of_strict reached_exchanged⟩

end Letrec.DataEnv
