set_option autoImplicit false

/-!
Faults: violated expectations inside the compiler, as values. A fault ends the one computation that
met it.
-/

namespace SharingRecovery

/-- An expectation that did not hold. -/
inductive Fault where
  /-- An array key has no node. -/
  | missingArray
  /-- A scalar key has no node. -/
  | missingScalar
  /-- An identity is not in the table of a view. -/
  | missingNode
  /-- A path is longer than any path of an acyclic view. -/
  | cycle
  /-- A number of occurrences is no machine word. -/
  | countOverflow
  /-- The number of occurrences of an unknown identity has been asked for. -/
  | uncounted
  /-- A number of pending occurrences is no machine word. -/
  | pendingOverflow
  /-- More occurrences have been found below a node than there are. -/
  | overcounted
  /-- An identity to be bound has not been hoisted. -/
  | notHoisted
  /-- An identity is still to be bound at the root. -/
  | pendingAtRoot
  /-- A variable is free at the root. -/
  | freeAtRoot
  /-- A variable has no binding around it. -/
  | unbound
  /-- An operand is missing in a shared tree. -/
  | missingOperand
  /-- An array operand is missing where an operation is lowered. -/
  | missingArrayOperand
  /-- A scalar operand is missing where an operation is lowered. -/
  | missingScalarOperand
  /-- A key has no binder in scope. -/
  | notInScope
  deriving DecidableEq

def Fault.message : Fault → String
  | .missingArray => "array node must belong to the graph"
  | .missingScalar => "scalar node must belong to the graph"
  | .missingNode => "node must belong to the view"
  | .cycle => "the graph must not have a cycle"
  | .countOverflow => "occurrence count must not overflow"
  | .uncounted => "identity must have been counted"
  | .pendingOverflow => "pending count must not overflow"
  | .overcounted => "identity reached more often than counted"
  | .notHoisted => "bound identity must already be placed"
  | .pendingAtRoot => "every shared identity must be bound below the root"
  | .freeAtRoot => "the root must not reference unbound variables"
  | .unbound => "variable must be bound by an enclosing binding"
  | .missingOperand => "every operand must be annotated"
  | .missingArrayOperand => "array operand must be annotated"
  | .missingScalarOperand => "scalar operand must be annotated"
  | .notInScope => "variable must be bound in the layout"

def Fault.require {α : Type} (fault : Fault) : Option α → Except Fault α
  | some a => .ok a
  | none => .error fault

end SharingRecovery
