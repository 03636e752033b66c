import Letrec.Name.Table
import Letrec.Log
import Letrec.Literal
import Letrec.Pattern
import Letrec.Term.Annotation
import Letrec.Term.Text
import Letrec.Term.Fresh
import Letrec.Term.Scope
import Letrec.Term.Equality
import Letrec.Group.Linear
import Letrec.Ty.Env
import Letrec.Program
import Letrec.Proofs.Graph.Components
import Letrec.Proofs.Group.Components
import Letrec.Proofs.Term.Rename
import Letrec.Proofs.Term.Fresh
import Letrec.Proofs.Name.Reserved
import Letrec.Proofs.Group.Knot
import Letrec.Proofs.Group.Linear
import Letrec.Proofs.Meaning.Knot
import Letrec.Proofs.Meaning.Linear
import Letrec.Proofs.Data.Insert
import Letrec.Proofs.Data.Index
import Letrec.Proofs.Data.Strict
import Letrec.Proofs.Group.Hygiene
import Letrec.Proofs.Group.Closure
import Letrec.Proofs.Group.Annotation
import Letrec.Proofs.Program.Policy
import Letrec.Proofs.Program.Order
import Letrec.Proofs.Graph.Order
import Letrec.Proofs.Group.Emission
import Letrec.Proofs.Group.Lift
import Letrec.Proofs.Group.Stable
import Letrec.Proofs.Group.Shadow
import Letrec.Proofs.Term.Replace
import Letrec.Proofs.Term.Place
import Letrec.Proofs.Group.Size
import Letrec.Proofs.Term.Free
import Letrec.Proofs.Term.Scope
import Letrec.Proofs.Data.Effect
import Letrec.Proofs.Data.Admission
import Letrec.Proofs.Data.Report
import Letrec.Proofs.Data.Reading
import Letrec.Proofs.Term.Reading
import Letrec.Proofs.Term.Traversal
import Letrec.Proofs.Term.LeastFresh
import Letrec.Proofs.Name.Role
import Letrec.Proofs.Group.Position
import Letrec.Proofs.Group.Capture
import Letrec.Proofs.Group.Reference
import Letrec.Proofs.Text.Sign
import Letrec.Proofs.Term.Operand
