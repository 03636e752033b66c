import Letrec.Proofs.Data.Index

/-!
# Admission

`tryInsert` looks at the constructors of a definition from the first to the last, against those
before it and against the index of owners. Those that it lets pass are described by `Admits`, and
what it has against the next one by `Objects`: the first objection is the error
(`fault?_eq_some_iff`). The index is all that is asked, so that a constructor that the index misses
is let pass although another type declares it.

`tryInsertInPlace` is the same request to an environment that is changed in place and stays behind
when the request fails (`run_tryInsertInPlace`). `tryInsert_exact` puts the two together.
-/

namespace Letrec.DataEnv

variable {env : DataEnv} {d : DataDef} {c owner type : Name} {seen : List Name} {con : DataCon}
  {cs : List DataCon} {e : DataEnvError}

/-- The constructors are distinct, and no other type owns one of them. -/
structure Admits (env : DataEnv) (type : Name) (cs : List DataCon) : Prop where
  nodup : (cs.map DataCon.name).Nodup
  free : ∀ c ∈ cs.map DataCon.name, env.owner? c = none ∨ env.owner? c = some type

theorem admits_iff : env.Admits type cs ↔ env.fault? type [] cs = none := by
  have hfree (c : Name) : (env.owner? c = none ∨ env.owner? c = some type) ↔
      ∀ owner, env.owner? c = some owner → owner = type := by
    cases env.owner? c <;> simp
  rw [fault?_eq_none_iff]
  simp only [List.not_mem_nil, not_false_eq_true, implies_true, true_and, ← hfree]
  exact ⟨fun h => ⟨h.nodup, h.free⟩, fun h => ⟨h.1, h.2⟩⟩

/-- An admitted definition takes nothing from another type. -/
theorem Admits.owner?_insert_of_ne (h : env.Admits d.name d.constructors)
    (howner : env.owner? c = some owner) (hne : owner ≠ d.name) :
    (env.insert d).value.owner? c = some owner := by
  have hown : env.owner? c ≠ some d.name := fun htype =>
    hne (Option.some.inj (howner.symm.trans htype))
  have hc : ¬ d.Declares c := by
    intro hc
    rcases h.free c hc with hnone | htype
    · rw [hnone] at howner
      cases howner
    · exact hown htype
  rw [owner?_insert, if_neg hc, if_neg fun h => hown h.2, howner]

/-- `e` is what speaks against a constructor that comes after those in `seen`. -/
def Objects (env : DataEnv) (type : Name) (seen : List Name) (con : DataCon) (e : DataEnvError) :
    Prop :=
  con.name ∈ seen ∧ e = .duplicateConstructor con.name type ∨
    con.name ∉ seen ∧ ∃ owner, env.owner? con.name = some owner ∧ owner ≠ type ∧
      e = .constructorCollision con.name owner type

/-! ## The first objection -/

theorem objects_congr {seen' : List Name} (h : ∀ c, c ∈ seen ↔ c ∈ seen') :
    env.Objects type seen con e ↔ env.Objects type seen' con e := by
  rw [Objects, Objects, h]

theorem fault?_cons_of_objects (h : env.Objects type seen con e) (cs : List DataCon) :
    env.fault? type seen (con :: cs) = some e := by
  rw [fault?]
  rcases h with ⟨hseen, rfl⟩ | ⟨hseen, owner, howner, htype, rfl⟩
  · rw [if_pos hseen]
  · rw [if_neg hseen, howner]
    exact if_neg htype

/-- A constructor that is let pass is held against the later ones. -/
theorem fault?_cons_of_forall_not (h : ∀ e, ¬ env.Objects type seen con e) (cs : List DataCon) :
    env.fault? type seen (con :: cs) = env.fault? type (con.name :: seen) cs := by
  have hseen : con.name ∉ seen := fun hseen => h _ (.inl ⟨hseen, rfl⟩)
  rw [fault?, if_neg hseen]
  cases howner : env.owner? con.name with
  | none => rfl
  | some owner =>
    by_cases htype : owner = type
    · exact if_pos htype
    · exact absurd (.inr ⟨hseen, owner, howner, htype, rfl⟩) (h _)

/-- **The first objection decides.** -/
theorem fault?_eq_some_iff : env.fault? type seen cs = some e ↔
    ∃ before con after, cs = before ++ con :: after ∧ env.fault? type seen before = none ∧
      env.Objects type (before.map DataCon.name ++ seen) con e := by
  induction cs generalizing seen with
  | nil => simp [fault?]
  | cons c cs ih =>
    by_cases hc : ∃ e, env.Objects type seen c e
    · obtain ⟨e₀, he₀⟩ := hc
      rw [fault?_cons_of_objects he₀]
      constructor
      · intro he
        exact ⟨[], c, cs, rfl, rfl, Option.some.inj he ▸ he₀⟩
      · rintro ⟨before, con, after, hsplit, hbefore, hcon⟩
        cases before with
        | nil =>
          obtain ⟨rfl, -⟩ := List.cons.inj hsplit
          exact (fault?_cons_of_objects he₀ []).symm.trans (fault?_cons_of_objects hcon [])
        | cons c' before =>
          obtain ⟨rfl, -⟩ := List.cons.inj hsplit
          rw [fault?_cons_of_objects he₀] at hbefore
          cases hbefore
    · have hc := not_exists.1 hc
      have hseen (before : List DataCon) (con : DataCon) :
          env.Objects type ((c :: before).map DataCon.name ++ seen) con e ↔
            env.Objects type (before.map DataCon.name ++ c.name :: seen) con e :=
        objects_congr fun x => by simp [or_left_comm]
      rw [fault?_cons_of_forall_not hc, ih]
      constructor
      · rintro ⟨before, con, after, rfl, hbefore, hcon⟩
        exact ⟨c :: before, con, after, rfl, (fault?_cons_of_forall_not hc before).trans hbefore,
          (hseen before con).2 hcon⟩
      · rintro ⟨before, con, after, hsplit, hbefore, hcon⟩
        cases before with
        | nil =>
          obtain ⟨rfl, -⟩ := List.cons.inj hsplit
          exact absurd hcon (hc e)
        | cons c' before =>
          obtain ⟨rfl, rfl⟩ := List.cons.inj hsplit
          exact ⟨before, con, after, rfl, (fault?_cons_of_forall_not hc before).symm.trans hbefore,
            (hseen before con).1 hcon⟩

theorem tryInsert_eq_error_iff :
    env.tryInsert d = .error e ↔ env.fault? d.name [] d.constructors = some e := by
  unfold tryInsert
  cases env.fault? d.name [] d.constructors <;> simp

/-! ## Requests in place -/

/-- Lets a constructor pass that is new among `seen` and owned by no other type. -/
def inspect (type : Name) (seen : List Name) (con : DataCon) :
    ExceptT DataEnvError (StateM DataEnv) (List Name) := do
  if con.name ∈ seen then
    throw (.duplicateConstructor con.name type)
  if let some owner := (← get).owner? con.name then
    if owner ≠ type then
      throw (.constructorCollision con.name owner type)
  return con.name :: seen

/-- Changes the environment to one with the definition, unless one of its constructors is declared
twice or owned by another type. -/
def tryInsertInPlace (d : DataDef) : ExceptT DataEnvError (StateM DataEnv) Unit := do
  let _ ← d.constructors.foldlM (inspect d.name) []
  modify fun env => (env.insert d).value

theorem run_get :
    (get : ExceptT DataEnvError (StateM DataEnv) DataEnv).run.run env = (.ok env, env) := rfl

section
variable {β γ : Type} {m : ExceptT DataEnvError (StateM DataEnv) β}
  {k : β → ExceptT DataEnvError (StateM DataEnv) γ} {env' : DataEnv} {b : β}

theorem run_bind_of_ok (h : m.run.run env = (.ok b, env')) :
    (m >>= k).run.run env = (k b).run.run env' := by
  rw [ExceptT.run_bind, StateT.run_bind, h]
  rfl

theorem run_bind_of_error (h : m.run.run env = (.error e, env')) :
    (m >>= k).run.run env = (.error e, env') := by
  rw [ExceptT.run_bind, StateT.run_bind, h]
  rfl

end

theorem run_inspect_of_objects (h : env.Objects type seen con e) :
    (inspect type seen con).run.run env = (.error e, env) := by
  unfold inspect
  rcases h with ⟨hseen, rfl⟩ | ⟨hseen, owner, howner, htype, rfl⟩
  · rw [if_pos hseen]
    rfl
  · rw [if_neg hseen, run_bind_of_ok run_get, howner]
    dsimp only
    rw [if_pos htype]
    rfl

theorem run_inspect_of_forall_not (h : ∀ e, ¬ env.Objects type seen con e) :
    (inspect type seen con).run.run env = (.ok (con.name :: seen), env) := by
  have hseen : con.name ∉ seen := fun hseen => h _ (.inl ⟨hseen, rfl⟩)
  unfold inspect
  rw [if_neg hseen, run_bind_of_ok run_get]
  cases howner : env.owner? con.name with
  | none => rfl
  | some owner =>
    by_cases htype : owner = type
    · dsimp only
      rw [if_neg (not_not_intro htype)]
      rfl
    · exact absurd (.inr ⟨hseen, owner, howner, htype, rfl⟩) (h _)

/-- The constructors are looked at and nothing is changed. -/
theorem run_foldlM_inspect (env : DataEnv) (type : Name) (cs : List DataCon) (seen : List Name) :
    (cs.foldlM (inspect type) seen).run.run env =
      (match env.fault? type seen cs with
        | some e => .error e
        | none => .ok ((cs.map DataCon.name).reverse ++ seen), env) := by
  induction cs generalizing seen with
  | nil => rfl
  | cons c cs ih =>
    rw [List.foldlM_cons]
    by_cases hc : ∃ e, env.Objects type seen c e
    · obtain ⟨e, he⟩ := hc
      rw [run_bind_of_error (run_inspect_of_objects he), fault?_cons_of_objects he]
    · have hc := not_exists.1 hc
      rw [run_bind_of_ok (run_inspect_of_forall_not hc), fault?_cons_of_forall_not hc, ih]
      simp

/-- A request leaves the environment with the definition behind or, if it fails, as it was. -/
theorem run_tryInsertInPlace (env : DataEnv) (d : DataDef) :
    (tryInsertInPlace d).run.run env =
      match env.tryInsert d with
      | .ok r => (.ok (), r.value)
      | .error e => (.error e, env) := by
  have hloop := run_foldlM_inspect env d.name d.constructors []
  unfold tryInsertInPlace tryInsert
  cases hfault : env.fault? d.name [] d.constructors with
  | none =>
    rw [hfault] at hloop
    rw [run_bind_of_ok hloop]
    rfl
  | some e =>
    rw [hfault] at hloop
    rw [run_bind_of_error hloop]

/-- **A strict request is exact and atomic.** It is granted exactly if the constructors of the
definition are distinct and each is owned by its type or by none. The definition is then inserted as
by `insert`, and no other type loses a constructor. If the request is refused, the environment stays
as it is, and the error is about the first constructor that repeats an earlier one or is owned by
another type. -/
theorem tryInsert_exact (env : DataEnv) (d : DataDef) :
    ((∃ r, env.tryInsert d = .ok r) ↔
        (d.constructors.map DataCon.name).Nodup ∧
          ∀ c, d.Declares c → env.owner? c = none ∨ env.owner? c = some d.name) ∧
      (∀ r, env.tryInsert d = .ok r → r = env.insert d ∧
        (tryInsertInPlace d).run.run env = (.ok (), r.value) ∧
        ∀ c owner, env.owner? c = some owner → owner ≠ d.name →
          r.value.owner? c = some owner) ∧
      ∀ e, (env.tryInsert d = .error e → (tryInsertInPlace d).run.run env = (.error e, env)) ∧
        (env.tryInsert d = .error e ↔ ∃ before con after,
          d.constructors = before ++ con :: after ∧ env.Admits d.name before ∧
            env.Objects d.name (before.map DataCon.name) con e) := by
  have hrun := run_tryInsertInPlace env d
  refine ⟨?granted, fun r hr => ?inserted, fun e => ⟨fun he => ?kept, ?refused⟩⟩
  case granted =>
    simp only [tryInsert_eq_ok_iff, exists_and_left, exists_eq', and_true, ← admits_iff]
    exact ⟨fun h => ⟨h.nodup, h.free⟩, fun h => ⟨h.1, h.2⟩⟩
  case inserted =>
    rw [hr] at hrun
    obtain ⟨hfault, rfl⟩ := tryInsert_eq_ok_iff.1 hr
    exact ⟨rfl, hrun, fun c owner howner hne =>
      (admits_iff.2 hfault).owner?_insert_of_ne howner hne⟩
  case kept =>
    rw [he] at hrun
    exact hrun
  case refused =>
    rw [tryInsert_eq_error_iff, fault?_eq_some_iff]
    simp only [List.append_nil, admits_iff]

/-- `data Answer = Yes | Yes | True` -/
def answer : DataDef := ⟨⟨"Answer"⟩, [⟨⟨"Yes"⟩, []⟩, ⟨⟨"Yes"⟩, []⟩, ⟨⟨"True"⟩, []⟩]⟩

/-- Both `Yes` and `True` speak against `answer`; the first of them is blamed. -/
theorem tryInsert_exact_answer :
    prelude.tryInsert answer = .error (.duplicateConstructor ⟨"Yes"⟩ ⟨"Answer"⟩) ∧
      (tryInsertInPlace answer).run.run prelude =
        (.error (.duplicateConstructor ⟨"Yes"⟩ ⟨"Answer"⟩), prelude) ∧
      ∃ r, prelude.tryInsert fruit = .ok r ∧ r = prelude.insert fruit ∧
        r.value.owner? ⟨"True"⟩ = some ⟨"Bool"⟩ := by
  have hanswer : prelude.tryInsert answer =
      .error (.duplicateConstructor ⟨"Yes"⟩ ⟨"Answer"⟩) := rfl
  have hfree : ∀ c, fruit.Declares c →
      prelude.owner? c = none ∨ prelude.owner? c = some fruit.name := by
    intro c hc
    obtain rfl := List.mem_singleton.1 hc
    exact .inl (by decide +kernel)
  obtain ⟨-, -, hrefused⟩ := tryInsert_exact prelude answer
  obtain ⟨hgranted, hinserted, -⟩ := tryInsert_exact prelude fruit
  obtain ⟨r, hr⟩ := hgranted.2 ⟨by decide, hfree⟩
  obtain ⟨heq, -, hkeeps⟩ := hinserted r hr
  exact ⟨hanswer, (hrefused _).1 hanswer, r, hr, heq,
    hkeeps ⟨"True"⟩ ⟨"Bool"⟩ (by decide +kernel) (by decide)⟩

end Letrec.DataEnv
