/-!
# Names

A `Name` is the text of an identifier: a variable, a binder, a constructor, a data type or an
annotation variable. Two names are the same name exactly when their texts are, and names are
ordered like their texts, code point by code point.
-/

namespace Letrec

/-- An identifier. -/
@[ext] structure Name where
  /-- How the identifier is spelt. Any text is a name, the empty one included. -/
  text : String
  deriving DecidableEq, Hashable, Repr, Inhabited

namespace Name

instance : ToString Name := ⟨Name.text⟩

instance : Ord Name := ⟨fun x y => compare x.text y.text⟩

theorem compare_def (x y : Name) : compare x y = compare x.text y.text := rfl

instance : Std.TransOrd Name where
  eq_swap {x y} := Std.OrientedOrd.eq_swap (a := x.text) (b := y.text)
  isLE_trans {x y z} := Std.TransOrd.isLE_trans (a := x.text) (b := y.text) (c := z.text)

instance : Std.LawfulEqOrd Name where
  eq_of_compare h := Name.ext (Std.LawfulEqOrd.eq_of_compare h)

end Name

end Letrec
