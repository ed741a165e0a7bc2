import SharingRecovery.Lowering.Scalar

set_option autoImplicit false

/-!
Lowering of array code. Every operation brings its own scalar code, of which each scalar operand and
each function is lowered by itself, from an empty scope.
-/

namespace SharingRecovery

structure Lowering where
  graph : Graph
  tuples : TupleLayout
  shareScalars : Bool

namespace Lowering

/-- A function: the last parameter is the innermost binder. -/
def lowerLambda (l : Lowering) (around : Surroundings) (f : Lambda) :
    Except LoweringError FunTerm := do
  let scope := f.params.foldl Scope.push .empty
  return .ofBody f.arity (← around.lowerScalar l.graph l.shareScalars scope f.body)

/-- The neighbours with their paths, last first, so that a placeholder that is given twice takes the
last one. -/
def neighbourPaths (neighbours : List ScalarKey) (paths : List Path) : List (ScalarKey × Path) :=
  (neighbours.zip paths).reverse

/-- The function of a stencil: its one parameter is the neighbourhood as a tuple. -/
def lowerStencil (l : Lowering) (around : Surroundings) (f : StencilLambda) :
    Except LoweringError FunTerm := do
  let paths := l.tuples f.neighbourhood.rank f.neighbourhood
  if paths.length ≠ f.neighbours.length then
    .error (.pathCount f.neighbours.length paths.length)
  else
    let around := { around with stencil := some (f.argument, neighbourPaths f.neighbours paths) }
    let scope := Scope.empty.push f.argument
    return .ofBody 1 (← around.lowerScalar l.graph l.shareScalars scope f.body)

def lowerNode (l : Lowering) (key : ArrayKey)
    (operands : List (ArrayKey × Except LoweringError ArrayTerm)) :
    Except LoweringError ArrayTerm := do
  let operand (key : ArrayKey) : Except LoweringError ArrayTerm :=
    match operands.lookup key with
    | some result => result
    | none => .error (.fault .missingArrayOperand)
  let around : Surroundings := ⟨operand, none⟩
  let node ← LoweringError.ofFault (l.graph.arrayNode key)
  return .op (← node.mapM operand (around.lowerScalar l.graph l.shareScalars .empty)
    (l.lowerLambda around) (l.lowerStencil around))

mutual

def lowerTree (l : Lowering) (scope : Scope ArrayKey) :
    SharedTree ArrayKey → Except LoweringError ArrayTerm
  | .var key => return .var (← LoweringError.ofFault (scope.index key))
  | .bind key bound body => do
    let bound ← lowerTree l scope bound
    let body ← lowerTree l (scope.push key) body
    return .letIn bound body
  | .plain key operands => l.lowerNode key (lowerOperands l scope operands)

def lowerOperands (l : Lowering) (scope : Scope ArrayKey) :
    List (ArrayKey × SharedTree ArrayKey) → List (ArrayKey × Except LoweringError ArrayTerm)
  | [] => []
  | (key, operand) :: rest => (key, lowerTree l scope operand) :: lowerOperands l scope rest

end

end Lowering
end SharingRecovery
