import SharingRecovery.Boundary
import SharingRecovery.Decimal.Nearest
import SharingRecovery.Decimal.Shortest
import SharingRecovery.Decimal.Text
import SharingRecovery.Fault
import SharingRecovery.Graph.Arena
import SharingRecovery.Graph.Basic
import SharingRecovery.Graph.Builder
import SharingRecovery.Graph.Key
import SharingRecovery.Graph.Node
import SharingRecovery.HostArray
import SharingRecovery.Json.Basic
import SharingRecovery.Json.Decode
import SharingRecovery.Json.Lexer
import SharingRecovery.Json.Number
import SharingRecovery.Json.Parser
import SharingRecovery.Json.Printer
import SharingRecovery.Json.Quoted
import SharingRecovery.Lowering.Array
import SharingRecovery.Lowering.Basic
import SharingRecovery.Lowering.Error
import SharingRecovery.Lowering.Scalar
import SharingRecovery.Neighbourhood
import SharingRecovery.Operation.Array
import SharingRecovery.Operation.Scalar
import SharingRecovery.OrderedMap
import SharingRecovery.Prim
import SharingRecovery.Scalar
import SharingRecovery.Scope
import SharingRecovery.SharedTree.Basic
import SharingRecovery.SharedTree.Hoist
import SharingRecovery.SharedTree.Recover
import SharingRecovery.SharedTree.Thin
import SharingRecovery.Tally
import SharingRecovery.Term.Basic
import SharingRecovery.Term.Closed
import SharingRecovery.Term.Json
import SharingRecovery.TupleLayout
import SharingRecovery.View.Basic
import SharingRecovery.View.Program
import SharingRecovery.View.Table
import SharingRecovery.Word
import SharingRecovery.Proofs.Outcome
import SharingRecovery.Proofs.Unfolding
import SharingRecovery.Proofs.Counting
import SharingRecovery.Proofs.Subtrees
import SharingRecovery.Proofs.Thinning
import SharingRecovery.Proofs.Hoisting
import SharingRecovery.Proofs.Standing
import SharingRecovery.Proofs.Dominance
import SharingRecovery.Proofs.Expansion
import SharingRecovery.Proofs.FinishOrder
import SharingRecovery.Proofs.Covering
import SharingRecovery.Proofs.Placement
import SharingRecovery.Proofs.Recovered
import SharingRecovery.Proofs.Inlining
import SharingRecovery.Proofs.Closing
import SharingRecovery.Proofs.Unshared
import SharingRecovery.Proofs.Lowered
import SharingRecovery.Proofs.Completion
import SharingRecovery.Proofs.Scoping
import SharingRecovery.Proofs.Acyclic
import SharingRecovery.Proofs.References
import SharingRecovery.Proofs.Acceptance
import SharingRecovery.Proofs.WellFormed
import SharingRecovery.Proofs.Weighing
import SharingRecovery.Proofs.Emission
import SharingRecovery.Proofs.ArrayWork
import SharingRecovery.Proofs.Usage
import SharingRecovery.Proofs.Renaming
import SharingRecovery.Proofs.Relocation
import SharingRecovery.Proofs.Building
import SharingRecovery.Proofs.RoundTrip
import SharingRecovery.Proofs.Extents
import SharingRecovery.Proofs.FreeIndices
import SharingRecovery.Proofs.NestedTuples
import SharingRecovery.Proofs.Census
import SharingRecovery.Proofs.Pending
import SharingRecovery.Proofs.Visiting
import SharingRecovery.Proofs.Walking
