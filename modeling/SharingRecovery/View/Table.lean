import SharingRecovery.View.Basic

set_option autoImplicit false

/-!
Views given by a table: node `k` has the operands in row `k`.
-/

namespace SharingRecovery

/-- A table of operands, and the nodes that are never worth a name. -/
structure Table where
  rows : Array (List Nat)
  trivial : List Nat

namespace Table

def row (table : Table) (id : Nat) : Except Fault (List Nat) :=
  Fault.require .missingNode table.rows[id]?

def view (table : Table) : View Nat where
  identify id := do
    let _ ← table.row id
    return id
  operands := table.row
  isTrivial id := do
    let _ ← table.row id
    return table.trivial.contains id
  depth := table.rows.size + 1

end Table
end SharingRecovery
