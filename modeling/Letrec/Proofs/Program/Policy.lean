import Letrec.Program
import Letrec.Proofs.Data.Strict
import Mathlib.Data.Nat.Find

/-!
# The two policies

Under `overwrite` every definition is inserted, and a program is always assembled. Under `reject`
the definitions are inserted one after another as well, up to the first that is refused where those
before it are inserted (`CollisionPolicy.registerAll_reject_eq_error_iff`). Whatever the policy,
definitions that are all accepted are registered as `overwrite` registers them, with the same
reports (`CollisionPolicy.registerAll_eq_overwrite`). So the policies agree on every program that
`reject` assembles (`Program.assemble_policies`).
-/

namespace Letrec

variable {env env' : DataEnv} {ds : List DataDef} {d : DataDef} {e : DataEnvError} {i : Nat}

namespace DataEnv

/-- The environment with all the definitions inserted, whatever they take from other types. -/
def insertAll (env : DataEnv) (ds : List DataDef) : DataEnv :=
  ds.foldl (fun env d => (env.insert d).value) env

/-- Definition number `i` is refused for the reason `e` where the ones before it are inserted. -/
def Refuses (env : DataEnv) (ds : List DataDef) (i : Nat) (e : DataEnvError) : Prop :=
  ∃ d, ds[i]? = some d ∧ (env.insertAll (ds.take i)).tryInsert d = .error e

theorem not_refuses_nil : ¬ env.Refuses [] i e := by
  simp [Refuses]

theorem refuses_cons_zero : env.Refuses (d :: ds) 0 e ↔ env.tryInsert d = .error e := by
  simp [Refuses, insertAll]

theorem refuses_cons_succ :
    env.Refuses (d :: ds) (i + 1) e ↔ (env.insert d).value.Refuses ds i e :=
  Iff.rfl

end DataEnv

namespace CollisionPolicy

theorem value_registerAll_overwrite (env : DataEnv) (ds : List DataDef) :
    (overwrite.registerAll env ds).value = .ok (env.insertAll ds) := by
  induction ds generalizing env with
  | nil => rfl
  | cons d ds ih => exact ih (env.insert d).value

/-- Definitions that are all accepted are registered as under `overwrite`. -/
theorem registerAll_eq_overwrite {policy : CollisionPolicy}
    (h : (policy.registerAll env ds).value = .ok env') :
    policy.registerAll env ds = overwrite.registerAll env ds := by
  induction ds generalizing env with
  | nil => rfl
  | cons d ds ih =>
    cases hd : policy.register env d with
    | error e => simp [registerAll, hd] at h
    | ok r =>
      obtain rfl := eq_insert_of_register hd
      simp only [registerAll, hd, Logged.value_bind] at h
      have hoverwrite : overwrite.register env d = .ok (env.insert d) := rfl
      simp only [registerAll, hd, hoverwrite, bind, ih h]

theorem eq_insertAll_of_registerAll {policy : CollisionPolicy}
    (h : (policy.registerAll env ds).value = .ok env') : env' = env.insertAll ds := by
  rw [registerAll_eq_overwrite h, value_registerAll_overwrite] at h
  exact (Except.ok.inj h).symm

theorem registerAll_reject_of_error (h : env.tryInsert d = .error e) :
    (reject.registerAll env (d :: ds)).value = .error e := by
  have hregister : reject.register env d = .error e := h
  simp [registerAll, hregister]

theorem registerAll_reject_of_ok {r : Logged DataEnv} (h : env.tryInsert d = .ok r) :
    (reject.registerAll env (d :: ds)).value =
      (reject.registerAll (env.insert d).value ds).value := by
  have hregister : reject.register env d = .ok (env.insert d) :=
    h.trans (congrArg Except.ok (DataEnv.tryInsert_eq_ok_iff.1 h).2.symm)
  simp [registerAll, hregister]

/-- The definition that is blamed is the first that is refused. -/
theorem registerAll_reject_eq_error_iff :
    (reject.registerAll env ds).value = .error e ↔
      ∃ i, env.Refuses ds i e ∧ ∀ j < i, ∀ e', ¬ env.Refuses ds j e' := by
  induction ds generalizing env with
  | nil => simp [registerAll, DataEnv.not_refuses_nil]
  | cons d ds ih =>
    cases hd : env.tryInsert d with
    | error e₀ =>
      rw [registerAll_reject_of_error hd]
      have hzero : env.Refuses (d :: ds) 0 e₀ := DataEnv.refuses_cons_zero.2 hd
      constructor
      · intro he
        exact ⟨0, Except.error.inj he ▸ hzero, fun j hj => absurd hj (Nat.not_lt_zero j)⟩
      · rintro ⟨i, hi, hfirst⟩
        cases i with
        | zero =>
          have he := hd.symm.trans (DataEnv.refuses_cons_zero.1 hi)
          exact congrArg Except.error (Except.error.inj he)
        | succ i => exact absurd hzero (hfirst 0 (Nat.succ_pos i) e₀)
    | ok r =>
      have hzero (e' : DataEnvError) : ¬ env.Refuses (d :: ds) 0 e' := fun h =>
        nomatch hd.symm.trans (DataEnv.refuses_cons_zero.1 h)
      rw [registerAll_reject_of_ok hd, ih]
      constructor
      · rintro ⟨i, hi, hfirst⟩
        refine ⟨i + 1, DataEnv.refuses_cons_succ.2 hi, fun j hj e' hj' => ?_⟩
        cases j with
        | zero => exact hzero e' hj'
        | succ j =>
          exact hfirst j (Nat.lt_of_succ_lt_succ hj) e' (DataEnv.refuses_cons_succ.1 hj')
      · rintro ⟨i, hi, hfirst⟩
        cases i with
        | zero => exact absurd hi (hzero e)
        | succ i =>
          refine ⟨i, DataEnv.refuses_cons_succ.1 hi, fun j hj e' hj' => ?_⟩
          exact hfirst (j + 1) (Nat.succ_lt_succ hj) e' (DataEnv.refuses_cons_succ.2 hj')

/-- Strict registration fails if a definition is refused anywhere. -/
theorem exists_registerAll_reject_eq_error_iff :
    (∃ e, (reject.registerAll env ds).value = .error e) ↔ ∃ i e, env.Refuses ds i e := by
  classical
  simp only [registerAll_reject_eq_error_iff]
  constructor
  · rintro ⟨e, i, hi, -⟩
    exact ⟨i, e, hi⟩
  · intro h
    obtain ⟨e, he⟩ := Nat.find_spec h
    exact ⟨e, _, he, fun j hj e' hj' => Nat.find_min h hj ⟨e', hj'⟩⟩

end CollisionPolicy

namespace Program

open CollisionPolicy

variable {α : Type}

/-- Only the registration of the definitions can fail. -/
theorem value_assemble (policy : CollisionPolicy) (g : Group α) (body : Term α)
    (defs : List DataDef) :
    (assemble policy g body defs).value =
      (policy.registerAll .prelude defs).value.map fun env => ⟨(g.letIn body).value, env⟩ := by
  rw [assemble, Logged.value_bind]
  cases (policy.registerAll .prelude defs).value <;> rfl

theorem value_assemble_eq_ok_iff {policy : CollisionPolicy} {g : Group α} {body : Term α}
    {defs : List DataDef} {p : Program α} :
    (assemble policy g body defs).value = .ok p ↔
      p.term = (g.letIn body).value ∧ (policy.registerAll .prelude defs).value = .ok p.dataEnv := by
  obtain ⟨term, env⟩ := p
  rw [value_assemble]
  cases (policy.registerAll .prelude defs).value with
  | error e => simp [Except.map]
  | ok env' => simp [Except.map, eq_comm]

theorem exists_assemble_eq_ok_iff {policy : CollisionPolicy} {g : Group α} {body : Term α}
    {defs : List DataDef} :
    (∃ p, (assemble policy g body defs).value = .ok p) ↔
      ∃ env, (policy.registerAll .prelude defs).value = .ok env := by
  simp only [value_assemble_eq_ok_iff]
  exact ⟨fun ⟨p, _, hp⟩ => ⟨p.dataEnv, hp⟩, fun ⟨env, henv⟩ => ⟨⟨_, env⟩, rfl, henv⟩⟩

theorem value_assemble_eq_error_iff {policy : CollisionPolicy} {g : Group α} {body : Term α}
    {defs : List DataDef} :
    (assemble policy g body defs).value = .error e ↔
      (policy.registerAll .prelude defs).value = .error e := by
  rw [value_assemble]
  cases (policy.registerAll .prelude defs).value <;> simp [Except.map]

/-- **The policies agree wherever the strict one accepts.** Under `overwrite` a program is always
assembled. Under `reject` it is not exactly if some definition is refused where the ones before it
are inserted, and the first such definition gives the reason. Otherwise the program is the one that
is assembled under `overwrite`, with the same reports. -/
theorem assemble_policies (g : Group α) (body : Term α) (defs : List DataDef) :
    (assemble .overwrite g body defs).value =
        .ok ⟨(g.letIn body).value, DataEnv.prelude.insertAll defs⟩ ∧
      ((∃ e, (assemble .reject g body defs).value = .error e) ↔
        ∃ i e, DataEnv.prelude.Refuses defs i e) ∧
      (∀ e, (assemble .reject g body defs).value = .error e ↔
        ∃ i, DataEnv.prelude.Refuses defs i e ∧
          ∀ j < i, ∀ e', ¬ DataEnv.prelude.Refuses defs j e') ∧
      ∀ p, (assemble .reject g body defs).value = .ok p →
        p.term = (g.letIn body).value ∧
          assemble .overwrite g body defs = assemble .reject g body defs := by
  refine ⟨?always, ?fails, fun e => ?first, fun p hp => ?agree⟩
  case always =>
    rw [value_assemble, value_registerAll_overwrite]
    rfl
  case fails =>
    simp only [value_assemble_eq_error_iff, exists_registerAll_reject_eq_error_iff]
  case first =>
    rw [value_assemble_eq_error_iff, registerAll_reject_eq_error_iff]
  case agree =>
    obtain ⟨hterm, henv⟩ := value_assemble_eq_ok_iff.1 hp
    exact ⟨hterm, by rw [assemble, assemble, registerAll_eq_overwrite henv]⟩

/-- `x = x` -/
def loop : Group Unit := [⟨⟨"x"⟩, .var () false ⟨"x"⟩⟩]

/-- `Fruit` is redefined and gives a constructor up before `Colour` declares it. -/
def exchange : List DataDef := [DataEnv.fruit, DataEnv.apple, DataEnv.colour]

theorem assemble_policies_exchange :
    ∃ p, (assemble .reject loop (.var () false ⟨"x"⟩) exchange).value = .ok p ∧
      p.term = (loop.letIn (.var () false ⟨"x"⟩)).value ∧
        assemble .overwrite loop (.var () false ⟨"x"⟩) exchange =
          assemble .reject loop (.var () false ⟨"x"⟩) exchange := by
  have haccepted : (reject.registerAll .prelude exchange).value = .ok .exchanged := rfl
  have hp : (assemble .reject loop (.var () false ⟨"x"⟩) exchange).value =
      .ok ⟨(loop.letIn (.var () false ⟨"x"⟩)).value, .exchanged⟩ := by
    rw [value_assemble, haccepted]
    rfl
  exact ⟨_, hp, (assemble_policies loop (.var () false ⟨"x"⟩) exchange).2.2.2 _ hp⟩

end Program

end Letrec
