import SharingRecovery.Graph.Key
import SharingRecovery.Neighbourhood
import SharingRecovery.Operation.Array
import SharingRecovery.Operation.Scalar

set_option autoImplicit false

/-!
The nodes of a program graph. Operands are keys, and a function is the placeholders it was called
with together with the scalar node it returned.
-/

namespace SharingRecovery

structure Lambda where
  params : List ScalarKey
  body : ScalarKey
  deriving DecidableEq

/-- A function of the neighbourhood of an element: a placeholder for the neighbourhood as a whole,
and one for every neighbour in row-major order. -/
structure StencilLambda where
  neighbourhood : Neighbourhood
  argument : ScalarKey
  neighbours : List ScalarKey
  body : ScalarKey
  deriving DecidableEq

abbrev ArrayNode := ArrayOp ArrayKey ScalarKey Lambda StencilLambda

/-- A scalar node: a placeholder, or an operation. -/
inductive ScalarNode where
  | param
  | op (operation : ScalarOp ArrayKey ScalarKey)
  deriving DecidableEq, BEq

namespace Lambda

def arity (f : Lambda) : Nat :=
  f.params.length

def toJson (f : Lambda) : Json :=
  .obj [("params", .ofList ScalarKey.toJson f.params), ("body", f.body.toJson)]

def ofJson? (json : Json) : Option Lambda := do
  match ← json.record? ["params", "body"] with
  | [params, body] => return ⟨← params.list? ScalarKey.ofJson?, ← ScalarKey.ofJson? body⟩
  | _ => none

end Lambda

namespace StencilLambda

def toJson (f : StencilLambda) : Json :=
  .obj [("neighbourhood", f.neighbourhood.toJson), ("arg", f.argument.toJson),
    ("neighbours", .ofList ScalarKey.toJson f.neighbours), ("body", f.body.toJson)]

def ofJson? (json : Json) : Option StencilLambda := do
  match ← json.record? ["neighbourhood", "arg", "neighbours", "body"] with
  | [neighbourhood, argument, neighbours, body] =>
    return ⟨← Neighbourhood.ofJson? neighbourhood, ← ScalarKey.ofJson? argument,
      ← neighbours.list? ScalarKey.ofJson?, ← ScalarKey.ofJson? body⟩
  | _ => none

end StencilLambda

namespace ArrayNode

/-- The scalar code of a node in order of declaration: scalar operands, and the bodies of
functions. -/
def scalarCode (node : ArrayNode) : List ScalarKey :=
  node.parts.filterMap fun
    | .array _ => none
    | .scalar e => some e
    | .function f => some f.body
    | .stencil f => some f.body

def toJson (node : ArrayNode) : Json :=
  ArrayOp.toJson ArrayKey.toJson ScalarKey.toJson Lambda.toJson StencilLambda.toJson node

def ofJson? (json : Json) : Option ArrayNode := do
  let (tag, payload) ← json.tagged?
  ArrayOp.ofTagged? ArrayKey.ofJson? ScalarKey.ofJson? Lambda.ofJson? StencilLambda.ofJson?
    tag payload

end ArrayNode

namespace ScalarNode

def operands : ScalarNode → List ScalarKey
  | .param => []
  | .op operation => operation.scalars

def array? : ScalarNode → Option ArrayKey
  | .param => none
  | .op operation => operation.array?

/-- Placeholders and constants are never worth a name. -/
def isTrivial : ScalarNode → Bool
  | .param => true
  | .op (.const _) => true
  | .op _ => false

def toJson : ScalarNode → Json
  | .param => .str "Param"
  | .op operation => operation.toJson ArrayKey.toJson ScalarKey.toJson

def ofJson? (json : Json) : Option ScalarNode :=
  if json.bareTag? = some "Param" then some .param
  else do
    let (tag, payload) ← json.tagged?
    return .op (← ScalarOp.ofTagged? ArrayKey.ofJson? ScalarKey.ofJson? tag payload)

end ScalarNode
end SharingRecovery
