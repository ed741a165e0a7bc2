import SharingRecovery.Fault
import SharingRecovery.Term.Closed

set_option autoImplicit false

/-!
Why a program cannot be lowered.
-/

namespace SharingRecovery

inductive LoweringError where
  /-- The tuple layout has not as many paths as the stencil has neighbours. -/
  | pathCount (expected got : Nat)
  | scope (e : ScopeError)
  | fault (f : Fault)
  deriving DecidableEq

namespace LoweringError

def message : LoweringError → String
  | .pathCount expected got =>
    "stencil resolver returned " ++ toString got ++ " projections for " ++ toString expected
      ++ " neighbours"
  | .scope e => e.message
  | .fault f => f.message

def ofFault {α : Type} : Except Fault α → Except LoweringError α :=
  Except.mapError .fault

end LoweringError
end SharingRecovery
