import SharingRecovery.Lowering.Array

set_option autoImplicit false

/-!
From a program graph to a closed term in which every shared node is bound once.
-/

namespace SharingRecovery

structure Options where
  /-- How the neighbourhoods of stencils are laid out as tuples. -/
  tuples : TupleLayout := TupleLayout.nested
  /-- Whether array nodes that occur more than once are bound. -/
  shareArrays : Bool := true
  /-- Whether scalar nodes that occur more than once are bound. -/
  shareScalars : Bool := true
  /-- Whether the result is checked to be closed. -/
  checked : Bool := false

namespace Graph

def recoverArrays (g : Graph) (options : Options) (root : ArrayKey) :
    Except LoweringError (SharedTree ArrayKey) :=
  LoweringError.ofFault ((g.arrayView options.shareArrays).recover root)

def lower (g : Graph) (options : Options) (root : ArrayKey) : Except LoweringError ArrayTerm := do
  let tree ← g.recoverArrays options root
  let t ← Lowering.lowerTree ⟨g, options.tuples, options.shareScalars⟩ .empty tree
  if options.checked then
    t.checkClosed.mapError .scope
  return t

end Graph
end SharingRecovery
