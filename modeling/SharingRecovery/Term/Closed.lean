import SharingRecovery.Term.Basic

set_option autoImplicit false

/-!
Closed programs: every variable refers to a binder around it.

Array variables count the array `let`s around them, through scalar code as well. Scalar variables
count the parameters and scalar `let`s around them within their own scalar operand or function:
each of these starts again from nothing. Operands are checked in order of declaration, and the first
variable that is out of scope is reported.
-/

namespace SharingRecovery

inductive Level where
  | array
  | scalar
  deriving DecidableEq

def Level.name : Level → String
  | .array => "array"
  | .scalar => "scalar"

/-- A variable that points past the outermost of the binders around it. -/
structure ScopeError where
  level : Level
  index : Nat
  depth : Nat
  deriving DecidableEq

def ScopeError.message (e : ScopeError) : String :=
  e.level.name ++ " variable #" ++ toString e.index ++ " is out of scope at depth "
    ++ toString e.depth

namespace Term

def checkVar (level : Level) (index depth : Nat) : Except ScopeError Unit :=
  if index < depth then .ok () else .error ⟨level, index, depth⟩

/-- The check of a term, as a function of the number of array binders around it and, for scalar
code, the number of scalar binders. -/
def checkForm :
    Algebra (Nat → Except ScopeError Unit) (Nat → Nat → Except ScopeError Unit)
      (Nat → Nat → Except ScopeError Unit) where
  arrayLet bound body := fun arrays => do
    bound arrays
    body (arrays + 1)
  arrayVar index := checkVar .array index
  arrayOp operation := fun arrays => do
    let _ ← operation.mapM (· arrays) (· arrays 0) (· arrays 0) (· arrays 0)
  lam inner := fun arrays scalars => inner arrays (scalars + 1)
  body e := e
  scalarLet bound body := fun arrays scalars => do
    bound arrays scalars
    body arrays (scalars + 1)
  scalarVar index := fun _ scalars => checkVar .scalar index scalars
  scalarOp operation := fun arrays scalars => do
    let _ ← operation.mapM (· arrays) (· arrays scalars)

end Term

def ArrayTerm.checkClosed (t : ArrayTerm) : Except ScopeError Unit :=
  t.fold Term.checkForm 0

end SharingRecovery
