import NormalForm.Grammar.Edit
import NormalForm.Load.Error

namespace NormalForm.Load

/-- An edit with the line that asks for it, or none if it is not the file that asks. -/
structure Request where
  line : Option Nat
  edit : Edit
  deriving DecidableEq

/-- The grammar after the requests, and the faults of those that were refused. -/
def carryOut (g : Grammar) : List Request → Grammar × List Fault
  | [] => (g, [])
  | request :: rest =>
    match g.apply request.edit with
    | .ok edited => carryOut edited rest
    | .error e =>
      let (last, faults) := carryOut g rest
      (last, ⟨request.line, .refused e⟩ :: faults)

/-- The grammar after the requests, if none was refused. -/
def grant (g : Grammar) (requests : List Request) : Except (List Fault) Grammar :=
  match carryOut g requests with
  | (last, []) => .ok last
  | (_, faults) => .error faults

end NormalForm.Load
