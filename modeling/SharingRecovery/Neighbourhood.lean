import SharingRecovery.Json.Decode

set_option autoImplicit false

/-!
Stencil neighbourhoods: an extent for every dimension, outermost first.
-/

namespace SharingRecovery

structure Neighbourhood where
  extents : List Nat
  deriving DecidableEq

inductive NeighbourhoodError where
  /-- There is no dimension. -/
  | empty
  /-- An extent is even, so that there is no centre. -/
  | evenExtent (extent : Nat)
  /-- The number of neighbours is no machine word. -/
  | tooLarge
  deriving DecidableEq

def NeighbourhoodError.message : NeighbourhoodError → String
  | .empty => "stencil neighbourhood must have at least one dimension"
  | .evenExtent extent => "stencil extent " ++ toString extent ++ " is not odd"
  | .tooLarge => "stencil neighbourhood is too large"

namespace Neighbourhood

/-- The neighbourhood with these extents. The first even extent is reported before the size. -/
def ofExtents (extents : List Nat) : Except NeighbourhoodError Neighbourhood :=
  if extents.isEmpty then .error .empty
  else
    match extents.find? fun extent => extent % 2 = 0 with
    | some extent => .error (.evenExtent extent)
    | none =>
      match Word.product? extents with
      | some _ => .ok ⟨extents⟩
      | none => .error .tooLarge

def rank (n : Neighbourhood) : Nat :=
  n.extents.length

/-- The number of neighbours, the centre included. Extents that have been read may multiply to more
than a machine word; the product is then taken modulo `2 ^ 64`. -/
def size (n : Neighbourhood) : Nat :=
  Word.wrappingProduct n.extents

def toJson (n : Neighbourhood) : Json :=
  .obj [("extents", .ofList .ofNat n.extents)]

/-- Reads a neighbourhood. The extents are not checked. -/
def ofJson? (json : Json) : Option Neighbourhood := do
  match ← json.record? ["extents"] with
  | [extents] => return ⟨← extents.list? Json.word?⟩
  | _ => none

end Neighbourhood
end SharingRecovery
