import Letrec.Proofs.Data.Index
import Mathlib.Data.List.Basic

/-!
# What an insertion reports

`DataEnv.insert` reports constructors while it changes their owners, and a definition may declare a
constructor several times. In the end the reports say what the environment was before: a constructor
is reported if another type owned it (`takeovers`), once, where the definition first declares it
(`log_insert`). `insert_reports` adds that these are the constructors that go from one type to
another, whatever requests have led to the environment.
-/

namespace Letrec.DataEnv

variable {env : DataEnv} {d : DataDef} {c owner type : Name}

/-- Among the first occurrences, those that pass are the first occurrences of what passes. -/
theorem filter_eraseDups (p : Name → Bool) (l : List Name) :
    l.eraseDups.filter p = (l.filter p).eraseDups := by
  induction hn : l.length using Nat.strongRecOn generalizing l with
  | ind n ih =>
    cases l with
    | nil => rfl
    | cons x l =>
      have hlt : (l.filter fun y => !y == x).length < n := by
        have := List.length_filter_le (fun y => !y == x) l
        simp only [List.length_cons] at hn
        omega
      rw [List.eraseDups_cons, List.filter_cons, ih _ hlt _ rfl, List.filter_filter]
      cases hx : p x with
      | true =>
        simp [hx, List.eraseDups_cons, List.filter_filter, Bool.and_comm]
      | false =>
        -- what passes is not `x` anyway
        have hne : ∀ y ∈ l, (p y && !y == x) = p y := by
          intro y _
          by_cases hy : y = x
          · rw [hy, hx, Bool.false_and]
          · simp [hy]
        simp [hx, List.filter_congr hne]

/-! ## One constructor after another -/

/-- What is reported when `type` takes a constructor. -/
def move? (type : Name) (owners : Std.ExtTreeMap Name Name) (c : Name) : Option Event :=
  (owners[c]?.filter (· ≠ type)).map fun owner => .constructorMoved c owner type

theorem log_claim (type : Name) (owners : Std.ExtTreeMap Name Name) (con : DataCon) :
    (claim type owners con).log = (move? type owners con.name).toList := by
  unfold claim move?
  cases owners[con.name]? with
  | none => rfl
  | some owner => by_cases howner : owner = type <;> simp [howner, Option.filter]

/-- A constructor that `type` has taken is not reported again. -/
theorem move?_insert (type : Name) (owners : Std.ExtTreeMap Name Name) (taken c : Name) :
    move? type (owners.insert taken type) c = if c = taken then none else move? type owners c := by
  unfold move?
  rw [Std.ExtTreeMap.getElem?_insert]
  by_cases hc : c = taken
  · simp [hc, Option.filter]
  · simp [hc, Ne.symm hc]

/-- Giving up its own constructors does not change from which other types `type` takes some. -/
theorem move?_release (type : Name) (owners : Std.ExtTreeMap Name Name) (cs : List DataCon)
    (c : Name) : move? type (release type owners cs) c = move? type owners c := by
  unfold move?
  rw [getElem?_release]
  split
  · next h => simp [h.2, Option.filter]
  · rfl

theorem log_foldlM_claim (type : Name) (cs : List DataCon) (owners : Std.ExtTreeMap Name Name) :
    (cs.foldlM (claim type) owners).log =
      (cs.map DataCon.name).eraseDups.filterMap (move? type owners) := by
  induction cs generalizing owners with
  | nil => rfl
  | cons con cs ih =>
    have hrest : (cs.map DataCon.name).eraseDups.filterMap
          (move? type (owners.insert con.name type)) =
        ((cs.map DataCon.name).filter fun c => !c == con.name).eraseDups.filterMap
          (move? type owners) := by
      rw [← filter_eraseDups, List.filterMap_filter]
      refine List.filterMap_congr fun c _ => ?_
      rw [move?_insert]
      by_cases hc : c = con.name <;> simp [hc]
    have hvalue : (claim type owners con).value = owners.insert con.name type := rfl
    rw [List.foldlM_cons, Logged.log_bind, log_claim, hvalue, ih, hrest, List.map_cons,
      List.eraseDups_cons, List.filterMap_cons]
    cases move? type owners con.name <;> rfl

/-! ## Insertions -/

/-- The constructors that the type of `d` takes from other types, each with its owner until then, in
the order in which `d` first declares them. -/
def takeovers (env : DataEnv) (d : DataDef) : List (Name × Name) :=
  (d.constructors.map DataCon.name).eraseDups.filterMap fun c =>
    ((env.owner? c).filter (· ≠ d.name)).map fun owner => (c, owner)

theorem mem_takeovers : (c, owner) ∈ env.takeovers d ↔
    d.Declares c ∧ env.owner? c = some owner ∧ owner ≠ d.name := by
  simp only [takeovers, List.mem_filterMap, List.mem_eraseDups, Option.map_eq_some_iff,
    Option.filter_eq_some_iff, decide_eq_true_eq, Prod.mk.injEq]
  constructor
  · rintro ⟨c, hc, owner, howner, rfl, rfl⟩
    exact ⟨hc, howner⟩
  · rintro ⟨hc, howner⟩
    exact ⟨c, hc, owner, howner, rfl, rfl⟩

theorem log_insert (env : DataEnv) (d : DataDef) :
    (env.insert d).log =
      (if (env.def? d.name).isSome then [.typeReplaced d.name] else []) ++
        (env.takeovers d).map fun m => .constructorMoved m.1 m.2 d.name := by
  have hmoves : (env.takeovers d).map (fun m => Event.constructorMoved m.1 m.2 d.name) =
      (d.constructors.map DataCon.name).eraseDups.filterMap (move? d.name env.owners) := by
    rw [takeovers, List.map_filterMap]
    simp only [Option.map_map, Function.comp_def]
    rfl
  rw [hmoves]
  unfold insert
  cases hold : env.def? d.name with
  | none => simp [log_foldlM_claim]
  | some old => simp [log_foldlM_claim, move?_release]

theorem constructorMoved_mem_log_insert {new : Name} :
    .constructorMoved c owner new ∈ (env.insert d).log ↔
      new = d.name ∧ (c, owner) ∈ env.takeovers d := by
  have htype : Event.constructorMoved c owner new ∉
      if (env.def? d.name).isSome then [.typeReplaced d.name] else [] := by
    split <;> simp
  rw [log_insert, List.mem_append, or_iff_right htype, List.mem_map]
  constructor
  · rintro ⟨m, hm, heq⟩
    cases heq
    exact ⟨rfl, hm⟩
  · rintro ⟨rfl, hm⟩
    exact ⟨_, hm, rfl⟩

/-- What goes from one type to another is what the type of `d` takes. -/
theorem moves_iff {new : Name} :
    (env.owner? c = some owner ∧ (env.insert d).value.owner? c = some new ∧ owner ≠ new) ↔
      new = d.name ∧ (c, owner) ∈ env.takeovers d := by
  rw [mem_takeovers, owner?_insert]
  constructor
  · rintro ⟨howner, hnew, hne⟩
    split at hnew
    · next hc =>
      obtain rfl := Option.some.inj hnew
      exact ⟨rfl, hc, howner, hne⟩
    · split at hnew
      · cases hnew
      · exact absurd (Option.some.inj (howner.symm.trans hnew)) hne
  · rintro ⟨rfl, hc, howner, hne⟩
    exact ⟨howner, if_pos hc, hne⟩

/-- **Every takeover is reported, and reported once.** An insertion first reports the type if it is
registered already, then every constructor that the definition takes from another type, in the order
of its first declaration, and nothing else. So a constructor goes from one type to another exactly
if that is reported, and a strict request that is granted moves none. -/
theorem insert_reports (env : DataEnv) (d : DataDef) :
    (env.insert d).log =
        (if (env.def? d.name).isSome then [.typeReplaced d.name] else []) ++
          (env.takeovers d).map (fun m => .constructorMoved m.1 m.2 d.name) ∧
      (env.insert d).log.map Event.message =
        (if (env.def? d.name).isSome then ["replacing data type " ++ d.name.text] else []) ++
          (env.takeovers d).map (fun m =>
            "constructor " ++ m.1.text ++ " moves from " ++ m.2.text ++ " to " ++ d.name.text) ∧
      (∀ c old new, .constructorMoved c old new ∈ (env.insert d).log ↔
        env.owner? c = some old ∧ (env.insert d).value.owner? c = some new ∧ old ≠ new) ∧
      ∀ r, env.tryInsert d = .ok r → ∀ c old new, .constructorMoved c old new ∉ r.log := by
  refine ⟨log_insert env d, ?messages, fun c old new => ?moved,
    fun r hr c old new hmoved => ?strict⟩
  case messages =>
    rw [log_insert, List.map_append, List.map_map, apply_ite (List.map Event.message)]
    rfl
  case moved => rw [constructorMoved_mem_log_insert, moves_iff]
  case strict =>
    obtain ⟨hfault, rfl⟩ := tryInsert_eq_ok_iff.1 hr
    obtain ⟨-, -, hfree⟩ := fault?_eq_none_iff.1 hfault
    obtain ⟨hc, howner, hne⟩ := mem_takeovers.1 (constructorMoved_mem_log_insert.1 hmoved).2
    exact hne (hfree c hc old howner)

/-- `data Colour = Orange | Red | True | Orange` -/
def rainbow : DataDef :=
  ⟨⟨"Colour"⟩, [⟨⟨"Orange"⟩, []⟩, ⟨⟨"Red"⟩, []⟩, ⟨⟨"True"⟩, []⟩, ⟨⟨"Orange"⟩, []⟩]⟩

/-- The truth values, and `Orange` as a fruit. -/
def orchard : DataEnv := (prelude.insert fruit).value

/-- `Orange` is taken once, though it is declared twice; that `fruit` is inserted again moves
nothing. -/
theorem insert_reports_rainbow :
    (orchard.insert rainbow).log =
        [.constructorMoved ⟨"Orange"⟩ ⟨"Fruit"⟩ ⟨"Colour"⟩,
          .constructorMoved ⟨"True"⟩ ⟨"Bool"⟩ ⟨"Colour"⟩] ∧
      (orchard.owner? ⟨"Orange"⟩ = some ⟨"Fruit"⟩ ∧
        (orchard.insert rainbow).value.owner? ⟨"Orange"⟩ = some ⟨"Colour"⟩ ∧
        (⟨"Fruit"⟩ : Name) ≠ ⟨"Colour"⟩) ∧
      orchard.tryInsert fruit = .ok (orchard.insert fruit) ∧
      (orchard.insert fruit).log = [.typeReplaced ⟨"Fruit"⟩] ∧
      ∀ c old new, .constructorMoved c old new ∉ (orchard.insert fruit).log := by
  obtain ⟨hlog, -, hmoved, -⟩ := insert_reports orchard rainbow
  obtain ⟨hagain, -, -, hstrict⟩ := insert_reports orchard fruit
  have hlog := hlog.trans (show _ = [.constructorMoved ⟨"Orange"⟩ ⟨"Fruit"⟩ ⟨"Colour"⟩,
    .constructorMoved ⟨"True"⟩ ⟨"Bool"⟩ ⟨"Colour"⟩] by decide +kernel)
  have hok : orchard.tryInsert fruit = .ok (orchard.insert fruit) :=
    tryInsert_eq_ok_iff.2 ⟨by decide +kernel, rfl⟩
  exact ⟨hlog, (hmoved _ _ _).1 (hlog ▸ List.mem_cons_self), hok,
    hagain.trans (by decide +kernel), hstrict _ hok⟩

end Letrec.DataEnv
