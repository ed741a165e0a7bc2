import SharingRecovery.Neighbourhood

set_option autoImplicit false

/-!
How the neighbourhood of a stencil is laid out as the one tuple its lowered function takes: every
neighbour is reached by a path of projections.
-/

namespace SharingRecovery

/-- Components of nested tuples, outermost first. -/
abbrev Path := List Nat

/-- From the rank and the neighbourhood, a path for every neighbour in row-major order. -/
abbrev TupleLayout := Nat → Neighbourhood → List Path

namespace TupleLayout

/-- The position after a given one in row-major order, and whether it runs over the end and starts
again. The last dimension moves fastest. -/
def advance : List Nat → Path → Path × Bool
  | extent :: extents, digit :: digits =>
    let (digits, carry) := advance extents digits
    if carry then
      if digit + 1 < extent then ((digit + 1) :: digits, false) else (0 :: digits, true)
    else (digit :: digits, false)
  | _, _ => ([], true)

def positions (extents : List Nat) : Nat → Path → List Path
  | 0, _ => []
  | n + 1, position => position :: positions extents n (advance extents position).1

/-- A tuple for every dimension, the outermost outermost: the path of a neighbour is its position.
-/
def nested : TupleLayout := fun _ n =>
  positions n.extents n.size (List.replicate n.rank 0)

end TupleLayout
end SharingRecovery
