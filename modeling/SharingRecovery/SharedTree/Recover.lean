import SharingRecovery.SharedTree.Hoist
import SharingRecovery.SharedTree.Thin

set_option autoImplicit false

/-!
Sharing recovery: count the occurrences, hoist, thin out.
-/

namespace SharingRecovery.View

variable {ι : Type} [DecidableEq ι]

def recover (view : View ι) (root : ι) : Except Fault (SharedTree ι) := do
  let tally ← view.tally root
  let (hoisted, _) ← view.hoist tally root
  if !hoisted.pending.isEmpty then .error .pendingAtRoot
  else
    let (tree, live) ← hoisted.node.thin view tally none
    if !live.isEmpty then .error .freeAtRoot else return tree

end SharingRecovery.View
