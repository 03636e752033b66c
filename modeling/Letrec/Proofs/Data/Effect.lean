import Letrec.Proofs.Data.Strict

/-!
# The effect of an insertion

The definitions and the owners of an environment are changed one entry after another, some of them
twice. `insert_effect` says what is found under every name in the end. It speaks about environments
that requests lead to: there a type owns only what it declares, so that everything it owned is
released, whether the replaced definition is looked at or not.
-/

namespace Letrec.DataEnv

variable {policies : List CollisionPolicy} {env : DataEnv} {ds : List DataDef}

/-- **The effect of an insertion, name by name.** The definition stands under the name of its type,
and the other types keep theirs. What it declares belongs to its type; what the type owned besides
has no owner any more; all else belongs to whom it belonged before. So a second insertion of it
changes nothing, and definitions of different types that share no constructor can be inserted in
either order, whatever their types declared before. -/
theorem insert_effect (h : Reached policies env ds) (d : DataDef) :
    (env.insert d).value.def? d.name = some d ∧
      (∀ type, type ≠ d.name → (env.insert d).value.def? type = env.def? type) ∧
      (∀ c, (env.insert d).value.owner? c =
        if d.Declares c then some d.name
        else if env.owner? c = some d.name then none
        else env.owner? c) ∧
      ((env.insert d).value.insert d).value = (env.insert d).value ∧
      ∀ e : DataDef, d.name ≠ e.name → (∀ c, d.Declares c → ¬ e.Declares c) →
        ((env.insert d).value.insert e).value = ((env.insert e).value.insert d).value := by
  refine ⟨?_, fun type htype => ?_, h.sound.owner?_insert d, insert_insert env d,
    fun e hname hdisjoint => insert_comm env hname hdisjoint⟩
  · rw [def?_insert, if_pos rfl]
  · rw [def?_insert, if_neg htype]

/-- `Colour` has taken `Orange` from `Fruit`; both still declare it. -/
def taken : DataEnv := (insert (insert {} fruit).value colour).value

theorem reached_taken : Reached [.overwrite] taken [colour, fruit] := by
  have hmem : CollisionPolicy.overwrite ∈ [CollisionPolicy.overwrite] := List.mem_cons_self
  exact .accepted (.accepted .empty hmem rfl) hmem rfl

/-- Whether `Orange` is released depends on which of the two types gives it up. -/
theorem insert_effect_taken :
    Reached [.overwrite] taken [colour, fruit] ∧
      (taken.insert apple).value.owner? ⟨"Orange"⟩ = some ⟨"Colour"⟩ ∧
      (taken.insert red).value.owner? ⟨"Orange"⟩ = none ∧
      apple.name ≠ red.name ∧ (∀ c, apple.Declares c → ¬ red.Declares c) ∧
      ((taken.insert apple).value.insert red).value =
        ((taken.insert red).value.insert apple).value := by
  have hname : apple.name ≠ red.name := by decide
  have hdisjoint : ∀ c, apple.Declares c → ¬ red.Declares c := by
    intro c hc
    obtain rfl := List.mem_singleton.1 hc
    decide
  obtain ⟨-, -, happle, -, hcomm⟩ := insert_effect reached_taken apple
  obtain ⟨-, -, hred, -, -⟩ := insert_effect reached_taken red
  exact ⟨reached_taken, (happle ⟨"Orange"⟩).trans (by decide +kernel),
    (hred ⟨"Orange"⟩).trans (by decide +kernel), hname, hdisjoint, hcomm red hname hdisjoint⟩

end Letrec.DataEnv
