import SharingRecovery.OrderedMap
import SharingRecovery.View.Basic
import SharingRecovery.View.Walk
import SharingRecovery.Word

set_option autoImplicit false

/-!
How often each identity occurs in the tree of a view. Trivial identities are passed through and not
counted.
-/

namespace SharingRecovery

/-- Numbers of occurrences, in the order in which the identities are first met. -/
structure Tally (ι : Type) where
  counts : OrderedMap ι Nat

namespace Tally

variable {ι : Type} [DecidableEq ι]

def empty : Tally ι :=
  ⟨[]⟩

def get? (tally : Tally ι) (id : ι) : Option Nat :=
  tally.counts.get? id

def count (tally : Tally ι) (id : ι) : Except Fault Nat :=
  Fault.require .uncounted (tally.get? id)

def size (tally : Tally ι) : Nat :=
  tally.counts.length

def shared (tally : Tally ι) : Nat :=
  tally.counts.countP fun entry => 1 < entry.2

def add (tally : Tally ι) (id : ι) : Except Fault (Tally ι) := do
  let n ← Fault.require .countOverflow (Word.add? ((tally.get? id).getD 0) 1)
  return ⟨tally.counts.insert id n⟩

end Tally

namespace View

variable {ι : Type} [DecidableEq ι]

def countNode (view : View ι) (tally : Tally ι) (id : ι) : Except Fault (Tally ι) := do
  if ← view.isTrivial id then return tally else tally.add id

/-- Counts the occurrences in the tree from a root, one for every path. -/
def tally (view : View ι) (root : ι) : Except Fault (Tally ι) := do
  let id ← view.identify root
  walk view.countNode view.operands .empty [(view.depth, id)]

/-- How often an identity occurs. A trivial one is never shared. -/
def multiplicity (view : View ι) (tally : Tally ι) (id : ι) : Except Fault Nat := do
  if ← view.isTrivial id then return 1 else tally.count id

end View
end SharingRecovery
