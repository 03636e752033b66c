import Letrec.Data.Env
import Letrec.Group.Linear

/-!
# Programs

A program is one term and the data types that it may mention. `Program.assemble` makes it from a
group of bindings, a body and data definitions, which are registered on top of the truth values in
the order given. The policy says whether a definition may take a constructor from another type.
-/

namespace Letrec

/-- What happens when a data definition declares a constructor of another type. -/
inductive CollisionPolicy where
  /-- The later definition gets the constructor. -/
  | overwrite
  /-- The definition is refused. -/
  | reject
  deriving DecidableEq, Repr, Inhabited

/-- Adds a definition to an environment as the policy wants it. -/
def CollisionPolicy.register (policy : CollisionPolicy) (env : DataEnv) (d : DataDef) :
    Except DataEnvError (Logged DataEnv) :=
  match policy with
  | overwrite => .ok (env.insert d)
  | reject => env.tryInsert d

/-- Adds definitions one after another, up to the first that is refused. -/
def CollisionPolicy.registerAll (policy : CollisionPolicy) (env : DataEnv) :
    List DataDef → Logged (Except DataEnvError DataEnv)
  | [] => pure (.ok env)
  | d :: ds =>
    match policy.register env d with
    | .error e => pure (.error e)
    | .ok result => do
      let env ← result
      policy.registerAll env ds

/-- A term without recursion outside of fixed points, and its data types. -/
structure Program (α : Type) where
  term : Term α
  dataEnv : DataEnv

namespace Program

variable {α : Type}

/-- The program of a group of bindings around a body. -/
def assemble (policy : CollisionPolicy) (g : Group α) (body : Term α) (defs : List DataDef) :
    Logged (Except DataEnvError (Program α)) := do
  match ← policy.registerAll .prelude defs with
  | .error e => return .error e
  | .ok env =>
    Logged.tell (.programAssembled g.length env.size)
    let term ← g.letIn body
    return .ok ⟨term, env⟩

end Program

end Letrec
