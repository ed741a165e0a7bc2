import SharingRecovery.SharedTree.Basic
import SharingRecovery.Tally

set_option autoImplicit false

/-!
The first pass of sharing recovery works upwards and hoists shared nodes into bindings: an identity
that occurs more than once is bound at the first node whose instances cover all its occurrences.

An identity that is pending with `n` occurrences below one instance of a node is covered by the node
if `n` times the multiplicity of the node is the number of all its occurrences.
-/

namespace SharingRecovery

/-- A subtree in which all that it covers is bound. -/
structure Hoisted (ι : Type) where
  node : SharedTree ι
  /-- The identities below the node still to be bound, with the number of occurrences below one
  instance of the node, in the order in which they were found. -/
  pending : OrderedMap ι Nat

/-- The subtrees hoisted so far, last first. -/
abbrev Memo (ι : Type) := List (ι × Hoisted ι)

namespace Hoisted

variable {ι : Type} [DecidableEq ι]

def addPending (pending : OrderedMap ι Nat) (entry : ι × Nat) :
    Except Fault (OrderedMap ι Nat) := do
  let found := (pending.get? entry.1).getD 0
  let total ← Fault.require .pendingOverflow (Word.add? found entry.2)
  return pending.insert entry.1 total

/-- Whether a node of the given multiplicity covers all occurrences of a pending identity. -/
def covers (tally : Tally ι) (multiplicity : Nat) (id : ι) (n : Nat) : Except Fault Bool := do
  let total ← tally.count id
  let reached ← Fault.require .pendingOverflow (Word.mul? n multiplicity)
  if total < reached then .error .overcounted else return reached = total

def covered (tally : Tally ι) (multiplicity : Nat) : OrderedMap ι Nat → Except Fault (List ι)
  | [] => return []
  | (id, n) :: rest => do
    let isCovered ← covers tally multiplicity id n
    let others ← covered tally multiplicity rest
    return if isCovered then id :: others else others

/-- Wraps a node in bindings, the first identity outermost. -/
def wrap (memo : Memo ι) (node : SharedTree ι) : List ι → Except Fault (SharedTree ι)
  | [] => return node
  | id :: rest => do
    let body ← wrap memo node rest
    let hoisted ← Fault.require .notHoisted (memo.lookup id)
    return .bind id hoisted.node body

end Hoisted

structure Gathered (ι : Type) where
  /-- The hoisted operands, in order of first reference. -/
  operands : OrderedMap ι (SharedTree ι)
  pending : OrderedMap ι Nat

namespace Gathered

variable {ι : Type} [DecidableEq ι]

def empty : Gathered ι :=
  ⟨[], []⟩

def add (gathered : Gathered ι) (operand : ι) (hoisted : Hoisted ι) :
    Except Fault (Gathered ι) := do
  let pending ← hoisted.pending.foldlM Hoisted.addPending gathered.pending
  return ⟨gathered.operands.insert operand hoisted.node, pending⟩

/-- Completes a node: binds what it covers, and lets it be pending itself if it occurs more than
once. -/
def close (gathered : Gathered ι) (tally : Tally ι) (memo : Memo ι) (multiplicity : Nat) (id : ι) :
    Except Fault (Hoisted ι) := do
  let complete ← Hoisted.covered tally multiplicity gathered.pending
  let node ← Hoisted.wrap memo (.plain id gathered.operands) complete
  let rest := complete.foldl OrderedMap.erase gathered.pending
  return ⟨node, if 1 < multiplicity then rest.insert id 1 else rest⟩

end Gathered

namespace View

variable {ι : Type} [DecidableEq ι]

/-- Hoists the subtree below a node, on paths of at most so many nodes. Every node is worked on
once. -/
def hoistWithin (view : View ι) (tally : Tally ι) :
    Nat → ι → Memo ι → Except Fault (Hoisted ι × Memo ι)
  | 0, _, _ => .error .cycle
  | depth + 1, id, memo =>
    match memo.lookup id with
    | some hoisted => .ok (hoisted, memo)
    | none => do
      let multiplicity ← view.multiplicity tally id
      let references ← view.operands id
      let (gathered, memo) ← references.foldlM
        (fun (gathered, memo) operand => do
          let (hoisted, memo) ← view.hoistWithin tally depth operand memo
          return (← gathered.add operand hoisted, memo))
        (Gathered.empty, memo)
      let hoisted ← gathered.close tally memo multiplicity id
      return (hoisted, (id, hoisted) :: memo)

def hoist (view : View ι) (tally : Tally ι) (root : ι) : Except Fault (Hoisted ι × Memo ι) :=
  view.hoistWithin tally view.depth root []

end View
end SharingRecovery
