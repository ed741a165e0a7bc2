import SharingRecovery.Lowering.Error
import SharingRecovery.Scope
import SharingRecovery.SharedTree.Recover
import SharingRecovery.TupleLayout
import SharingRecovery.View.Program

set_option autoImplicit false

/-!
Lowering of scalar code. Its sharing is recovered first; then variables become indices into the
scope, and the arrays it reads come lowered already.
-/

namespace SharingRecovery

/-- What scalar code takes from the array operation around it. -/
structure Surroundings where
  /-- The lowered array operands of the operation, those its scalar code reads included. -/
  array : ArrayKey → Except LoweringError ArrayTerm
  /-- In the function of a stencil: its argument, and the paths of the neighbours in it, of which
  the first one counts. -/
  stencil : Option (ScalarKey × List (ScalarKey × Path))

namespace ScalarTerm

def project (e : ScalarTerm) (path : Path) : ScalarTerm :=
  path.foldl (fun e i => .op (.prj i e)) e

def ofKey (scope : Scope ScalarKey) (key : ScalarKey) : Except LoweringError ScalarTerm := do
  return .var (← LoweringError.ofFault (scope.index key))

end ScalarTerm

namespace Surroundings

/-- A placeholder: a neighbour of a stencil, projected out of the argument, or a parameter. -/
def lowerParam (around : Surroundings) (scope : Scope ScalarKey) (key : ScalarKey) :
    Except LoweringError ScalarTerm :=
  match around.stencil with
  | none => ScalarTerm.ofKey scope key
  | some (argument, paths) =>
    match paths.lookup key with
    | none => ScalarTerm.ofKey scope key
    | some path => return (← ScalarTerm.ofKey scope argument).project path

def lowerNode (around : Surroundings) (g : Graph) (scope : Scope ScalarKey) (key : ScalarKey)
    (operands : List (ScalarKey × Except LoweringError ScalarTerm)) :
    Except LoweringError ScalarTerm := do
  let operand (key : ScalarKey) : Except LoweringError ScalarTerm :=
    match operands.lookup key with
    | some result => result
    | none => .error (.fault .missingScalarOperand)
  match ← LoweringError.ofFault (g.scalarNode key) with
  | .param => around.lowerParam scope key
  | .op operation => return .op (← operation.mapM around.array operand)

mutual

def lowerTree (around : Surroundings) (g : Graph) (scope : Scope ScalarKey) :
    SharedTree ScalarKey → Except LoweringError ScalarTerm
  | .var key => ScalarTerm.ofKey scope key
  | .bind key bound body => do
    let bound ← lowerTree around g scope bound
    let body ← lowerTree around g (scope.push key) body
    return .letIn bound body
  | .plain key operands => around.lowerNode g scope key (lowerOperands around g scope operands)

def lowerOperands (around : Surroundings) (g : Graph) (scope : Scope ScalarKey) :
    List (ScalarKey × SharedTree ScalarKey) → List (ScalarKey × Except LoweringError ScalarTerm)
  | [] => []
  | (key, operand) :: rest =>
    (key, lowerTree around g scope operand) :: lowerOperands around g scope rest

end

def lowerScalar (around : Surroundings) (g : Graph) (share : Bool) (scope : Scope ScalarKey)
    (root : ScalarKey) : Except LoweringError ScalarTerm := do
  let tree ← LoweringError.ofFault ((g.scalarView share).recover root)
  around.lowerTree g scope tree

end Surroundings
end SharingRecovery
