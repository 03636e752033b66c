import Letrec.Name.Basic

/-!
# Types

Types without schemes: basic kinds, data types by name, lists, tuples, functions and variables.
Every form but the variable has a slot for an annotation variable, which takes part in equality; an
arrow also carries a flag that means nothing here.
-/

namespace Letrec

/-- The built-in kinds of values. -/
inductive BasicKind where
  | integer
  | char
  | double
  deriving DecidableEq, Repr

namespace BasicKind

/-- All basic kinds. -/
def all : List BasicKind := [integer, char, double]

/-- The name of the type of the values. -/
def name : BasicKind → String
  | integer => "Integer"
  | char => "Char"
  | double => "Double"

/-- The kind of that name. -/
def ofName? (s : String) : Option BasicKind := all.find? (·.name = s)

@[simp] theorem ofName?_name (k : BasicKind) : ofName? k.name = some k := by
  cases k <;> decide

end BasicKind

/-- A type. -/
inductive Ty where
  | basic (slot : Option Name) (kind : BasicKind)
  /-- The data type of that name; whether it exists is not checked. -/
  | data (slot : Option Name) (name : Name)
  | list (slot : Option Name) (elem : Ty)
  | tuple (slot : Option Name) (items : List Ty)
  | arrow (slot : Option Name) (flag : Bool) (dom cod : Ty)
  | var (name : Name)
  deriving Repr

namespace Ty

/-- The type of functions, without annotation and flag. -/
def fn (dom cod : Ty) : Ty := arrow none false dom cod

/-- The type of that name: a basic kind if there is one, a data type otherwise. -/
def named (s : String) : Ty :=
  match BasicKind.ofName? s with
  | some k => basic none k
  | none => data none ⟨s⟩

/-- The annotation in the slot of the type itself. -/
def slot? : Ty → Option Name
  | basic a _ | data a _ | list a _ | tuple a _ | arrow a _ _ _ => a
  | var _ => none

/-- The same type with another annotation in its own slot; a variable has none and stays. -/
def setSlot (a : Option Name) : Ty → Ty
  | basic _ k => basic a k
  | data _ n => data a n
  | list _ t => list a t
  | tuple _ ts => tuple a ts
  | arrow _ flag s t => arrow a flag s t
  | var x => var x

/-! ## Equality -/

mutual

/-- Equality of types, by recursion on both. -/
def same : Ty → Ty → Bool
  | basic a k, basic b l => a == b && k == l
  | data a m, data b n => a == b && m == n
  | list a s, list b t => a == b && same s t
  | tuple a ss, tuple b ts => a == b && sameAll ss ts
  | arrow a f s s', arrow b g t t' => a == b && f == g && same s t && same s' t'
  | var x, var y => x == y
  | _, _ => false

def sameAll : List Ty → List Ty → Bool
  | [], [] => true
  | s :: ss, t :: ts => same s t && sameAll ss ts
  | _, _ => false

end

mutual

theorem same_self : ∀ t : Ty, same t t = true
  | basic .. | data .. | var _ => by simp [same]
  | list _ t => by simp [same, same_self t]
  | tuple _ ts => by simp [same, sameAll_self ts]
  | arrow _ _ s t => by simp [same, same_self s, same_self t]

theorem sameAll_self : ∀ ts : List Ty, sameAll ts ts = true
  | [] => rfl
  | t :: ts => by simp [sameAll, same_self t, sameAll_self ts]

end

mutual

theorem eq_of_same : ∀ {s t : Ty}, same s t = true → s = t
  | basic .., t, h => by cases t <;> simp_all [same]
  | data .., t, h => by cases t <;> simp_all [same]
  | var _, t, h => by cases t <;> simp_all [same]
  | list _ s, t, h => by
    cases t with
    | list _ t =>
      simp only [same, Bool.and_eq_true, beq_iff_eq] at h
      rw [h.1, eq_of_same h.2]
    | _ => simp [same] at h
  | tuple _ ss, t, h => by
    cases t with
    | tuple _ ts =>
      simp only [same, Bool.and_eq_true, beq_iff_eq] at h
      rw [h.1, eq_of_sameAll h.2]
    | _ => simp [same] at h
  | arrow _ _ s s', t, h => by
    cases t with
    | arrow _ _ t t' =>
      simp only [same, Bool.and_eq_true, beq_iff_eq] at h
      rw [h.1.1.1, h.1.1.2, eq_of_same h.1.2, eq_of_same h.2]
    | _ => simp [same] at h

theorem eq_of_sameAll : ∀ {ss ts : List Ty}, sameAll ss ts = true → ss = ts
  | [], [], _ => rfl
  | s :: ss, t :: ts, h => by
    simp only [sameAll, Bool.and_eq_true] at h
    rw [eq_of_same h.1, eq_of_sameAll h.2]
  | [], _ :: _, h => by simp [sameAll] at h
  | _ :: _, [], h => by simp [sameAll] at h

end

instance : DecidableEq Ty := fun s t =>
  decidable_of_iff (same s t = true) ⟨eq_of_same, fun h => h ▸ same_self s⟩

end Ty

end Letrec
