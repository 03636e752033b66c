import Std.Data.ExtTreeMap
import Letrec.Ty.Basic

/-!
# Type environments

A `TyEnv` gives types to names. The primitive operations have theirs from a table of signatures,
which list the kinds of the arguments and of the result.
-/

namespace Letrec

/-- A name with the kinds of its arguments, in order, and of its result. -/
structure Signature where
  name : Name
  kinds : List BasicKind
  deriving DecidableEq, Repr

namespace Signature

/-- The curried function type, or `none` where not even a result is listed. -/
def ty? (s : Signature) : Option Ty :=
  s.kinds.getLast?.map fun result =>
    s.kinds.dropLast.foldr (fun k t => .fn (.basic none k) t) (.basic none result)

open BasicKind in
/-- The primitive operations. -/
def primitives : List Signature :=
  [⟨⟨"negate"⟩, [integer, integer]⟩,
   ⟨⟨"+"⟩, [integer, integer, integer]⟩,
   ⟨⟨"-"⟩, [integer, integer, integer]⟩,
   ⟨⟨"*"⟩, [integer, integer, integer]⟩,
   ⟨⟨"div"⟩, [integer, integer, integer]⟩,
   ⟨⟨"ord"⟩, [char, integer]⟩,
   ⟨⟨"chr"⟩, [integer, char]⟩,
   ⟨⟨"round"⟩, [double, integer]⟩,
   ⟨⟨"fromIntegral"⟩, [integer, double]⟩,
   ⟨⟨"/"⟩, [double, double, double]⟩]

end Signature

/-- The types of names. -/
abbrev TyEnv := Std.ExtTreeMap Name Ty

namespace TyEnv

/-- The environment of the primitive operations. -/
def primitives : TyEnv :=
  Signature.primitives.foldl (fun env s =>
    match s.ty? with
    | some t => env.insert s.name t
    | none => env) ∅

end TyEnv

end Letrec
