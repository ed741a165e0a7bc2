import SharingRecovery.Graph.Basic
import SharingRecovery.View.Basic
import SharingRecovery.View.Walk

set_option autoImplicit false

/-!
The two views of a program graph. In the array view the operands of an array node are its array
operands and the arrays its scalar code reads, once for every path through that code. In the scalar
view arrays are no operands.
-/

namespace SharingRecovery.Graph

def arrayNode (g : Graph) (key : ArrayKey) : Except Fault ArrayNode :=
  Fault.require .missingArray (g.array? key)

def scalarNode (g : Graph) (key : ScalarKey) : Except Fault ScalarNode :=
  Fault.require .missingScalar (g.scalar? key)

def scalarDepth (g : Graph) : Nat :=
  g.scalars.size + 1

def scalarOperands (g : Graph) (key : ScalarKey) : Except Fault (List ScalarKey) := do
  let node ← g.scalarNode key
  return node.operands

def readNode (g : Graph) (read : Array ArrayKey) (key : ScalarKey) :
    Except Fault (Array ArrayKey) := do
  let node ← g.scalarNode key
  return read ++ node.array?.toList

/-- The arrays that scalar code reads, in preorder and once for every path. -/
def arraysRead (g : Graph) (root : ScalarKey) : Except Fault (List ArrayKey) := do
  let read ← walk g.readNode g.scalarOperands #[] [(g.scalarDepth, root)]
  return read.toList

/-- The array operands of a node, then the arrays its scalar code reads. -/
def arrayOperands (g : Graph) (key : ArrayKey) : Except Fault (List ArrayKey) := do
  let node ← g.arrayNode key
  let read ← node.scalarCode.mapM g.arraysRead
  return node.arrays ++ read.flatten

/-- The array view. Without sharing every node is trivial, so nothing is ever bound. -/
def arrayView (g : Graph) (share : Bool) : View ArrayKey where
  identify key := do
    let _ ← g.arrayNode key
    return key
  operands := g.arrayOperands
  isTrivial key := do
    let _ ← g.arrayNode key
    return !share
  depth := g.arrays.size + 1

def scalarView (g : Graph) (share : Bool) : View ScalarKey where
  identify key := do
    let _ ← g.scalarNode key
    return key
  operands := g.scalarOperands
  isTrivial key := do
    let node ← g.scalarNode key
    return !share || node.isTrivial
  depth := g.scalarDepth

end SharingRecovery.Graph
