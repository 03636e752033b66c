import Letrec.Proofs.Program.Policy
import Mathlib.Data.List.Nodup
import Mathlib.Data.List.Pairwise

/-!
# The order of definitions

Under `reject` a definition is compared with those before it only, and which definition is blamed
for a clash depends on the order. Whether there is a clash does not. Definitions of distinct types,
none of which is registered yet, are accepted exactly if no constructor is declared twice, in one
definition or in two, and none has an owner already
(`CollisionPolicy.exists_registerAll_reject_eq_ok_iff`). Definitions of distinct types that share no
constructor can be inserted in any order (`DataEnv.insertAll_perm`). Hence the order of the
definitions changes nothing (`CollisionPolicy.registerAll_reject_of_perm`), and neither does it for
a program, whose definitions are registered after that of the truth values
(`Program.assemble_reject_perm`).
-/

namespace Letrec

variable {env env' : DataEnv} {ds ds' : List DataDef} {d : DataDef} {c : Name}

/-- The names of all constructors that are declared, one entry for each declaration. -/
def DataDef.declared (ds : List DataDef) : List Name :=
  ds.flatMap fun d => d.constructors.map DataCon.name

theorem DataDef.declared_cons (d : DataDef) (ds : List DataDef) :
    declared (d :: ds) = d.constructors.map DataCon.name ++ declared ds := rfl

namespace DataEnv

/-- Definitions that share neither a type nor a constructor can be inserted in any order. -/
theorem insertAll_perm (h : ds.Perm ds') (hname : (ds.map DataDef.name).Nodup)
    (hdeclared : (DataDef.declared ds).Nodup) (env : DataEnv) :
    env.insertAll ds = env.insertAll ds' := by
  have hdisjoint := (List.nodup_flatMap.1 hdeclared).2
  have : Std.Symm
      (Function.onFun List.Disjoint fun d : DataDef => d.constructors.map DataCon.name) :=
    ⟨fun _ _ h _ hc hc' => h hc' hc⟩
  refine h.foldl_eq' (fun d hd e he env => ?_) env
  by_cases hde : d = e
  · rw [hde]
  · exact insert_comm env (fun h => hde (List.inj_on_of_nodup_map hname hd he h))
      fun c hdc hec => hdisjoint.forall hd he hde hdc hec

/-! ## New types -/

section
variable (h : env.Sound) (hnew : env.def? d.name = none)

include h hnew

/-- A type that is not registered owns nothing. -/
theorem Sound.owner?_ne (c : Name) : env.owner? c ≠ some d.name := by
  intro hc
  obtain ⟨old, hold, -⟩ := h.declared c d.name hc
  rw [hnew] at hold
  cases hold

/-- A new type may declare what nobody owns. -/
theorem Sound.fault?_eq_none_iff :
    env.fault? d.name [] d.constructors = none ↔
      (d.constructors.map DataCon.name).Nodup ∧
        ∀ c ∈ d.constructors.map DataCon.name, env.owner? c = none := by
  simp only [DataEnv.fault?_eq_none_iff, List.not_mem_nil, not_false_eq_true, implies_true,
    true_and]
  refine and_congr_right fun _ => forall₂_congr fun c _ => ?_
  cases hc : env.owner? c with
  | none => simp
  | some owner =>
    have hne : owner ≠ d.name := fun he => h.owner?_ne hnew c (he ▸ hc)
    simpa using hne

/-- What is declared by a new type has an owner afterwards; otherwise nothing changes. -/
theorem Sound.owner?_insert_eq_none_iff :
    (env.insert d).value.owner? c = none ↔ ¬ d.Declares c ∧ env.owner? c = none := by
  rw [h.owner?_insert, if_neg (h.owner?_ne hnew c)]
  by_cases hc : d.Declares c <;> simp [hc]

end

end DataEnv

/-! ## Strict registration -/

namespace CollisionPolicy

theorem registerAll_reject_cons_eq_ok_iff :
    (reject.registerAll env (d :: ds)).value = .ok env' ↔
      env.fault? d.name [] d.constructors = none ∧
        (reject.registerAll (env.insert d).value ds).value = .ok env' := by
  cases hd : env.tryInsert d with
  | error e =>
    have hfault : env.fault? d.name [] d.constructors ≠ none := fun h =>
      nomatch hd.symm.trans (DataEnv.tryInsert_eq_ok_iff.2 ⟨h, rfl⟩)
    rw [registerAll_reject_of_error hd]
    simp [hfault]
  | ok r =>
    rw [registerAll_reject_of_ok hd]
    simp [(DataEnv.tryInsert_eq_ok_iff.1 hd).1]

/-- Definitions of new types are accepted exactly if their constructors are new and distinct. -/
theorem exists_registerAll_reject_eq_ok_iff (h : env.Sound) (hname : (ds.map DataDef.name).Nodup)
    (hnew : ∀ d ∈ ds, env.def? d.name = none) :
    (∃ env', (reject.registerAll env ds).value = .ok env') ↔
      (DataDef.declared ds).Nodup ∧ ∀ c ∈ DataDef.declared ds, env.owner? c = none := by
  induction ds generalizing env with
  | nil => simp [registerAll, DataDef.declared]
  | cons d ds ih =>
    rw [List.map_cons, List.nodup_cons] at hname
    rw [List.forall_mem_cons] at hnew
    have hrest : ∀ e ∈ ds, (env.insert d).value.def? e.name = none := by
      intro e he
      have hne : e.name ≠ d.name := fun h => hname.1 (h ▸ List.mem_map_of_mem he)
      rw [DataEnv.def?_insert, if_neg hne, hnew.2 e he]
    simp only [registerAll_reject_cons_eq_ok_iff, exists_and_left, ih (h.insert d) hname.2 hrest,
      h.fault?_eq_none_iff hnew.1, h.owner?_insert_eq_none_iff hnew.1, DataDef.declared_cons,
      List.nodup_append, List.forall_mem_append]
    constructor
    · rintro ⟨⟨hd, hdnew⟩, hds, hdsnew⟩
      exact ⟨⟨hd, hds, fun c hc c' hc' he => (hdsnew c' hc').1 (he ▸ hc)⟩, hdnew,
        fun c hc => (hdsnew c hc).2⟩
    · rintro ⟨⟨hd, hds, hne⟩, hdnew, hdsnew⟩
      exact ⟨⟨hd, hdnew⟩, hds, fun c hc => ⟨fun hdc => hne c hdc c hc rfl, hdsnew c hc⟩⟩

/-- Definitions of new types are accepted in every order, and with the same result. -/
theorem registerAll_reject_of_perm (h : env.Sound) (hperm : ds.Perm ds')
    (hname : (ds.map DataDef.name).Nodup) (hnew : ∀ d ∈ ds, env.def? d.name = none)
    (hok : (reject.registerAll env ds).value = .ok env') :
    (reject.registerAll env ds').value = .ok env' := by
  have hname' : (ds'.map DataDef.name).Nodup := (hperm.map DataDef.name).nodup_iff.1 hname
  have hdeclared : (DataDef.declared ds).Perm (DataDef.declared ds') := hperm.flatMap_right _
  obtain ⟨hnodup, hfree⟩ := (exists_registerAll_reject_eq_ok_iff h hname hnew).1 ⟨env', hok⟩
  obtain ⟨env'', hok'⟩ :=
    (exists_registerAll_reject_eq_ok_iff h hname' fun d hd => hnew d (hperm.mem_iff.2 hd)).2
      ⟨hdeclared.nodup_iff.1 hnodup, fun c hc => hfree c (hdeclared.mem_iff.2 hc)⟩
  rw [hok', eq_insertAll_of_registerAll hok', eq_insertAll_of_registerAll hok,
    DataEnv.insertAll_perm hperm hname hnodup]

/-- The truth values are registered before all else, like any other type. -/
theorem registerAll_reject_prelude_eq_ok_iff :
    (reject.registerAll .prelude ds).value = .ok env' ↔
      (reject.registerAll {} (.bool :: ds)).value = .ok env' := by
  have hfault : DataEnv.fault? {} DataDef.bool.name [] DataDef.bool.constructors = none := rfl
  rw [registerAll_reject_cons_eq_ok_iff, DataEnv.prelude_eq, and_iff_right hfault]

end CollisionPolicy

/-! ## Programs -/

namespace Program

open CollisionPolicy

variable {α : Type}

/-- **Strict assembly does not depend on the order of the definitions.** Definitions of distinct
types other than `Bool` are accepted exactly if no constructor is declared twice, `True` and `False`
included, and in every order they give the same program, data types and owners included. -/
theorem assemble_reject_perm (g : Group α) (body : Term α) {defs : List DataDef}
    (hname : (defs.map DataDef.name).Nodup) (hbool : ⟨"Bool"⟩ ∉ defs.map DataDef.name) :
    ((∃ p, (assemble .reject g body defs).value = .ok p) ↔
        (⟨"True"⟩ :: ⟨"False"⟩ :: DataDef.declared defs).Nodup) ∧
      ∀ defs', defs.Perm defs' → ∀ p,
        (assemble .reject g body defs).value = .ok p ↔
          (assemble .reject g body defs').value = .ok p := by
  have hnames : ((DataDef.bool :: defs).map DataDef.name).Nodup := List.nodup_cons.2 ⟨hbool, hname⟩
  refine ⟨?accepts, fun defs' hperm p => ?same⟩
  case accepts =>
    simp only [exists_assemble_eq_ok_iff, registerAll_reject_prelude_eq_ok_iff]
    rw [exists_registerAll_reject_eq_ok_iff DataEnv.Sound.empty hnames fun _ _ => rfl]
    exact and_iff_left fun _ _ => rfl
  case same =>
    have hperm := hperm.cons DataDef.bool
    simp only [value_assemble_eq_ok_iff, registerAll_reject_prelude_eq_ok_iff]
    refine and_congr_right fun _ => ⟨?_, ?_⟩
    · exact registerAll_reject_of_perm .empty hperm hnames fun _ _ => rfl
    · exact registerAll_reject_of_perm .empty hperm.symm
        ((hperm.map DataDef.name).nodup_iff.1 hnames) fun _ _ => rfl

/-- `data Fruit = Orange` and `data Colour = Red` -/
def fruitAndRed : List DataDef := [DataEnv.fruit, DataEnv.red]

theorem assemble_reject_perm_fruitAndRed :
    (fruitAndRed.map DataDef.name).Nodup ∧ ⟨"Bool"⟩ ∉ fruitAndRed.map DataDef.name ∧
      fruitAndRed.Perm fruitAndRed.reverse ∧
      ∃ p, (assemble .reject loop (.var () false ⟨"x"⟩) fruitAndRed).value = .ok p ∧
        (assemble .reject loop (.var () false ⟨"x"⟩) fruitAndRed.reverse).value = .ok p := by
  have hname : (fruitAndRed.map DataDef.name).Nodup := by decide
  have hbool : ⟨"Bool"⟩ ∉ fruitAndRed.map DataDef.name := by decide
  have hperm : fruitAndRed.Perm fruitAndRed.reverse := (List.reverse_perm fruitAndRed).symm
  obtain ⟨haccepts, hsame⟩ := assemble_reject_perm loop (.var () false ⟨"x"⟩) hname hbool
  obtain ⟨p, hp⟩ := haccepts.2 (by decide)
  exact ⟨hname, hbool, hperm, p, hp, (hsame _ hperm p).1 hp⟩

end Program

end Letrec
