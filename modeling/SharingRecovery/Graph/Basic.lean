import SharingRecovery.Graph.Arena
import SharingRecovery.Graph.Node

set_option autoImplicit false

/-!
Program graphs: an arena of array nodes and an arena of scalar nodes that refer to each other by
key. A node that several others refer to is shared.
-/

namespace SharingRecovery

structure Graph where
  arrays : Arena ArrayNode
  scalars : Arena ScalarNode
  deriving BEq

namespace Graph

def empty : Graph :=
  ⟨.empty, .empty⟩

def array? (g : Graph) (key : ArrayKey) : Option ArrayNode :=
  g.arrays.get? key.slot

def scalar? (g : Graph) (key : ScalarKey) : Option ScalarNode :=
  g.scalars.get? key.slot

def insertArray (g : Graph) (node : ArrayNode) : ArrayKey × Graph :=
  let (slot, arrays) := g.arrays.insert node
  (⟨slot⟩, { g with arrays })

def insertScalar (g : Graph) (node : ScalarNode) : ScalarKey × Graph :=
  let (slot, scalars) := g.scalars.insert node
  (⟨slot⟩, { g with scalars })

def toJson (g : Graph) : Json :=
  .obj [("accs", g.arrays.toJson ArrayNode.toJson), ("exps", g.scalars.toJson ScalarNode.toJson)]

/-- Reads a graph. Keys are not checked. -/
def ofJson? (json : Json) : Option Graph := do
  match ← json.record? ["accs", "exps"] with
  | [arrays, scalars] =>
    return ⟨← Arena.ofJson? ArrayNode.ofJson? arrays, ← Arena.ofJson? ScalarNode.ofJson? scalars⟩
  | _ => none

end Graph
end SharingRecovery
