import SharingRecovery.SharedTree.Basic
import SharingRecovery.Tally

set_option autoImplicit false

/-!
The second pass of sharing recovery works downwards and thins the tree out: an operand that occurs
more often than the node at the start of its scope becomes a variable, and a binding whose identity
is not used is dropped.
-/

namespace SharingRecovery.SharedTree

variable {ι : Type} [DecidableEq ι]

mutual

/-- Thins a tree out and lists the identities that are free in the result. The context is the
multiplicity of the node at the start of the scope; at the root and at the start of a bound tree
there is none yet. -/
def thin (view : View ι) (tally : Tally ι) (context : Option Nat) :
    SharedTree ι → Except Fault (SharedTree ι × List ι)
  | .var id => return (.var id, [id])
  | .bind id bound body => do
    let (body, live) ← thin view tally context body
    if id ∈ live then
      let (bound, boundLive) ← thin view tally none bound
      return (.bind id bound body, live.filter (· ≠ id) ++ boundLive)
    else
      return (body, live)
  | .plain id operands => do
    let outer ← match context with
      | some outer => pure outer
      | none => view.multiplicity tally id
    let (operands, live) ← thinOperands view tally outer operands
    return (.plain id operands, live)

def thinOperands (view : View ι) (tally : Tally ι) (outer : Nat) :
    List (ι × SharedTree ι) → Except Fault (List (ι × SharedTree ι) × List ι)
  | [] => return ([], [])
  | (id, operand) :: rest => do
    let multiplicity ← view.multiplicity tally id
    let (operand, live) ←
      if outer < multiplicity then pure (.var id, [id])
      else thin view tally (some outer) operand
    let (rest, restLive) ← thinOperands view tally outer rest
    return ((id, operand) :: rest, live ++ restLive)

end

end SharingRecovery.SharedTree
