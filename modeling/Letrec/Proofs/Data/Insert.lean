import Letrec.Data.Env

/-!
# What an insertion changes

`DataEnv.insert` changes the definitions and the owners of constructors one by one. Among the
definitions it changes that of the inserted type only (`def?_insert`). A constructor that the new
definition declares belongs to its type afterwards, one that only the replaced definition of that
type declared loses its owner if that was the type, and all others keep theirs (`owner?_insert`). So
definitions of different types can be inserted in either order if they share no constructor
(`insert_comm`), and it makes no difference whether one is inserted once or twice (`insert_insert`).

`tryInsert` inserts a definition exactly if its constructors are distinct and owned by no other type
(`fault?_eq_none_iff`).
-/

namespace Letrec.DataEnv

/-! ## Owners -/

theorem getElem?_release (type c : Name) (cs : List DataCon) (owners : Std.ExtTreeMap Name Name) :
    (release type owners cs)[c]? =
      if c ∈ cs.map DataCon.name ∧ owners[c]? = some type then none else owners[c]? := by
  induction cs generalizing owners with
  | nil => simp [release]
  | cons con cs ih =>
    rw [release, List.foldl_cons, ← release, ih]
    by_cases hcon : owners[con.name]? = some type
    · rw [if_pos hcon, Std.ExtTreeMap.getElem?_erase]
      by_cases hc : con.name = c
      · simp [← hc, hcon]
      · simp [hc, Ne.symm hc]
    · rw [if_neg hcon]
      by_cases hc : con.name = c
      · simp [← hc, hcon]
      · simp [Ne.symm hc]

theorem getElem?_foldl_claim (type c : Name) (cs : List DataCon)
    (owners : Std.ExtTreeMap Name Name) :
    (cs.foldl (fun owners con => (claim type owners con).value) owners)[c]? =
      if c ∈ cs.map DataCon.name then some type else owners[c]? := by
  induction cs generalizing owners with
  | nil => simp
  | cons con cs ih =>
    have hclaim : (claim type owners con).value = owners.insert con.name type := rfl
    rw [List.foldl_cons, ih, hclaim, Std.ExtTreeMap.getElem?_insert]
    by_cases hc : con.name = c
    · simp [hc]
    · simp [hc, Ne.symm hc]

/-! ## Insertion -/

theorem def?_insert (env : DataEnv) (d : DataDef) (type : Name) :
    (env.insert d).value.def? type = if type = d.name then some d else env.def? type := by
  have hdefs : (env.insert d).value.defs = env.defs.insert d.name d := by
    unfold insert
    cases env.def? d.name <;> rfl
  rw [def?, hdefs, Std.ExtTreeMap.getElem?_insert, ← def?]
  by_cases h : type = d.name
  · simp [h]
  · simp [h, Ne.symm h]

theorem owner?_insert (env : DataEnv) (d : DataDef) (c : Name) :
    (env.insert d).value.owner? c =
      if d.Declares c then some d.name
      else if (∃ old, env.def? d.name = some old ∧ old.Declares c) ∧ env.owner? c = some d.name
        then none
      else env.owner? c := by
  unfold insert
  cases hold : env.def? d.name with
  | none =>
    have hvalue := getElem?_foldl_claim d.name c d.constructors env.owners
    simpa [owner?, DataDef.Declares] using hvalue
  | some old =>
    have hvalue :=
      getElem?_foldl_claim d.name c d.constructors (release d.name env.owners old.constructors)
    rw [getElem?_release] at hvalue
    simpa [owner?, DataDef.Declares] using hvalue

/-! ## Two insertions -/

/-- Environments with the same definitions and the same owners are equal. -/
theorem eq_of_lookup {env env' : DataEnv} (hdef : ∀ type, env.def? type = env'.def? type)
    (howner : ∀ c, env.owner? c = env'.owner? c) : env = env' := by
  obtain ⟨defs, owners⟩ := env
  obtain ⟨defs', owners'⟩ := env'
  obtain rfl : defs = defs' := Std.ExtTreeMap.ext_getElem? hdef
  obtain rfl : owners = owners' := Std.ExtTreeMap.ext_getElem? howner
  rfl

/-- Definitions of different types that share no constructor can be inserted in either order. -/
theorem insert_comm (env : DataEnv) {d e : DataDef} (hname : d.name ≠ e.name)
    (hdisjoint : ∀ c, d.Declares c → ¬ e.Declares c) :
    ((env.insert d).value.insert e).value = ((env.insert e).value.insert d).value := by
  refine eq_of_lookup (fun type => ?_) fun c => ?_
  · simp only [def?_insert]
    by_cases hd : type = d.name
    · simp [hd, hname]
    · simp [hd]
  · simp only [owner?_insert, def?_insert, if_neg hname, if_neg hname.symm]
    by_cases hd : d.Declares c
    · simp [hd, hdisjoint c hd, hname]
    · by_cases he : e.Declares c
      · simp [hd, he, hname.symm]
      · -- each of the two types loses the constructor only if it owns it, so at most one does
        simp only [if_neg hd, if_neg he]
        by_cases hown : env.owner? c = some d.name
        · simp [hown, hname]
        · by_cases hown' : env.owner? c = some e.name
          · simp [hown', hname.symm]
          · simp [hown, hown']

/-- A definition can be inserted again without effect. -/
theorem insert_insert (env : DataEnv) (d : DataDef) :
    ((env.insert d).value.insert d).value = (env.insert d).value := by
  refine eq_of_lookup (fun type => ?_) fun c => ?_
  · rw [def?_insert]
    split
    · next htype => rw [def?_insert, if_pos htype]
    · rfl
  · rw [owner?_insert, def?_insert, if_pos rfl]
    by_cases hc : d.Declares c
    · rw [if_pos hc, owner?_insert, if_pos hc]
    · -- the replaced definition is `d` itself, which does not declare `c`
      have hold : ¬ ∃ old, some d = some old ∧ old.Declares c := by
        rintro ⟨old, hold, hc'⟩
        exact hc (Option.some.inj hold ▸ hc')
      rw [if_neg hc, if_neg fun h => hold h.1]

/-! ## Admission -/

theorem fault?_cons_eq_none_iff {env : DataEnv} {type : Name} {seen : List Name} {con : DataCon}
    {cs : List DataCon} :
    env.fault? type seen (con :: cs) = none ↔
      con.name ∉ seen ∧ (∀ owner, env.owner? con.name = some owner → owner = type) ∧
        env.fault? type (con.name :: seen) cs = none := by
  rw [fault?]
  by_cases hseen : con.name ∈ seen
  · simp [hseen]
  · cases howner : env.owner? con.name with
    | none => simp [hseen]
    | some owner => by_cases htype : owner = type <;> simp [hseen, htype]

/-- Nothing speaks against constructors that are distinct, new and owned by no other type. -/
theorem fault?_eq_none_iff {env : DataEnv} {type : Name} {seen : List Name} {cs : List DataCon} :
    env.fault? type seen cs = none ↔
      (cs.map DataCon.name).Nodup ∧ (∀ c ∈ cs.map DataCon.name, c ∉ seen) ∧
        ∀ c ∈ cs.map DataCon.name, ∀ owner, env.owner? c = some owner → owner = type := by
  induction cs generalizing seen with
  | nil => simp [fault?]
  | cons con cs ih =>
    have hcons : (∀ c ∈ cs.map DataCon.name, c ∉ con.name :: seen) ↔
        con.name ∉ cs.map DataCon.name ∧ ∀ c ∈ cs.map DataCon.name, c ∉ seen := by
      simp only [List.mem_cons, not_or, imp_and, forall_and]
      exact and_congr_left fun _ =>
        ⟨fun h hc => h _ hc rfl, fun h c hc he => h (he ▸ hc)⟩
    rw [fault?_cons_eq_none_iff, ih, hcons, List.map_cons, List.nodup_cons, List.forall_mem_cons,
      List.forall_mem_cons]
    constructor
    · rintro ⟨hseen, howner, hnodup, ⟨hnew, hseens⟩, howners⟩
      exact ⟨⟨hnew, hnodup⟩, ⟨hseen, hseens⟩, howner, howners⟩
    · rintro ⟨⟨hnew, hnodup⟩, ⟨hseen, hseens⟩, howner, howners⟩
      exact ⟨hseen, howner, hnodup, ⟨hnew, hseens⟩, howners⟩

theorem tryInsert_eq_ok_iff {env : DataEnv} {d : DataDef} {r : Logged DataEnv} :
    env.tryInsert d = .ok r ↔ env.fault? d.name [] d.constructors = none ∧ env.insert d = r := by
  unfold tryInsert
  cases env.fault? d.name [] d.constructors <;> simp

end Letrec.DataEnv
