import SharingRecovery.OrderedMap
import SharingRecovery.View.Basic

set_option autoImplicit false

/-!
Trees with explicit sharing, and the trees without it that they stand for.
-/

namespace SharingRecovery

inductive SharedTree (ι : Type) where
  /-- A reference to the nearest binding of the identity around it. -/
  | var (id : ι)
  /-- The bound tree stands for the identity in the body. -/
  | bind (id : ι) (bound body : SharedTree ι)
  /-- The node itself, with one entry for every distinct operand in order of first reference. -/
  | plain (id : ι) (operands : List (ι × SharedTree ι))

namespace SharedTree

variable {ι : Type} [DecidableEq ι]

mutual

/-- Two trees are the same up to the order of operands. -/
def same : SharedTree ι → SharedTree ι → Bool
  | .var a, .var b => a = b
  | .bind a bound body, .bind b bound' body' => a = b && same bound bound' && same body body'
  | .plain a xs, .plain b ys => a = b && xs.length = ys.length && sameOperands xs ys
  | _, _ => false

def sameOperands : List (ι × SharedTree ι) → List (ι × SharedTree ι) → Bool
  | [], _ => true
  | (id, x) :: xs, ys =>
    (match ys.lookup id with
    | some y => same x y
    | none => false) && sameOperands xs ys

end

mutual

def toTreeIn (view : View ι) (env : List (ι × Tree ι)) : SharedTree ι → Except Fault (Tree ι)
  | .var id => Fault.require .unbound (env.lookup id)
  | .bind id bound body => do
    let value ← toTreeIn view env bound
    toTreeIn view ((id, value) :: env) body
  | .plain id operands => do
    let references ← view.operands id
    let trees := operandTreesIn view env operands
    let tree (reference : ι) : Except Fault (Tree ι) :=
      match trees.lookup reference with
      | some result => result
      | none => .error .missingOperand
    return .node id (← references.mapM tree)

def operandTreesIn (view : View ι) (env : List (ι × Tree ι)) :
    List (ι × SharedTree ι) → List (ι × Except Fault (Tree ι))
  | [] => []
  | (id, operand) :: rest => (id, toTreeIn view env operand) :: operandTreesIn view env rest

end

/-- Puts every bound tree in the place of its variables. The view tells how often and in which order
a node refers to its operands. -/
def toTree (view : View ι) (tree : SharedTree ι) : Except Fault (Tree ι) :=
  toTreeIn view [] tree

end SharedTree
end SharingRecovery
