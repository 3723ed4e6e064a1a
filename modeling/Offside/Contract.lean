/-
Contracts.

Operations such as taking a token from an empty stream have no answer. They fail with a `Violation`,
which is a fault of the caller and never of the Delight program that is being translated; the two
kinds of failure are kept apart everywhere.
-/
import Offside.Text.Basic

set_option autoImplicit false

namespace Offside

/-- Which kind of condition did not hold. -/
inductive Contract
  | precondition
  | invariant
  | postcondition
  deriving DecidableEq, Repr

/-- A condition that callers had to guarantee and did not. -/
structure Violation where
  contract : Contract
  text : Text
  deriving DecidableEq, Repr

namespace Contract

def name : Contract → Text
  | precondition => "PRECONDITION"
  | invariant => "INVARIANT"
  | postcondition => "POSTCONDITION"

def check (contract : Contract) (condition : Bool) (text : Text) : Except Violation Unit :=
  if condition then .ok () else .error ⟨contract, text⟩

/-- Fails if an operation that cannot fail did, naming the operation and its error. -/
def checkNoError (error? : Option Text) (operation : Text) : Except Violation Unit :=
  match error? with
  | none => .ok ()
  | some e => .error ⟨postcondition, operation ++ " must not fail: " ++ e⟩

end Contract

namespace Violation

def message (v : Violation) : Text := v.contract.name ++ " VIOLATION: " ++ v.text

end Violation

end Offside
