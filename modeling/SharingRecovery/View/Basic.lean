import SharingRecovery.Fault

set_option autoImplicit false

/-!
Views of a graph as a tree. A view names the nodes by identities and lists the operands of each; a
node that is shared in the graph occurs in the tree once for every path that leads to it.

Views are meant to be acyclic. Since nothing enforces that, every walk is bounded by the length of
the longest path an acyclic view can have, and a longer path is a fault.
-/

namespace SharingRecovery

structure View (ι : Type) where
  /-- The identity of a node, which has to exist. -/
  identify : ι → Except Fault ι
  /-- The operands of a node in order, one for every reference. -/
  operands : ι → Except Fault (List ι)
  /-- Whether a node is never worth a name. -/
  isTrivial : ι → Except Fault Bool
  /-- A bound on the number of nodes on a path, a missing one at its end included. -/
  depth : Nat

inductive Tree (ι : Type) where
  | node (id : ι) (operands : List (Tree ι))

namespace Tree

variable {ι : Type} [DecidableEq ι]

mutual

def same : Tree ι → Tree ι → Bool
  | .node a xs, .node b ys => a = b && sameAll xs ys

def sameAll : List (Tree ι) → List (Tree ι) → Bool
  | [], [] => true
  | x :: xs, y :: ys => same x y && sameAll xs ys
  | _, _ => false

end

end Tree

namespace View

variable {ι : Type}

def treeWithin (view : View ι) : Nat → ι → Except Fault (Tree ι)
  | 0, _ => .error .cycle
  | depth + 1, root => do
    let id ← view.identify root
    let operands ← view.operands id
    return .node root (← operands.mapM (view.treeWithin depth))

def tree (view : View ι) (root : ι) : Except Fault (Tree ι) :=
  view.treeWithin view.depth root

end View
end SharingRecovery
