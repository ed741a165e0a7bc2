import SharingRecovery.Fault

set_option autoImplicit false

/-!
Walks in preorder by an explicit stack. The node on top is taken off the stack and visited; then its
operands are pushed, the last one first, so that the first one is on top.

Every node on the stack comes with a bound on the number of nodes on a path from it. A node that has
nothing left of the bound is a fault, so a walk ends also where there are cycles.
-/

namespace SharingRecovery

variable {ι σ : Type}

/-- The nodes still to be visited, the next one first. -/
abbrev Stack (ι : Type) := List (Nat × ι)

namespace Stack

def push (stack : Stack ι) (depth : Nat) (ids : List ι) : Stack ι :=
  ids.foldl (fun stack id => (depth, id) :: stack) stack

def visitsFrom (operands : ι → Except Fault (List ι)) : Nat → ι → Nat
  | 0, _ => 1
  | depth + 1, id =>
    match operands id with
    | .error _ => 1
    | .ok ids => ids.foldr (fun id n => visitsFrom operands depth id + n) 1

/-- How many visits a stack takes. Each visit leaves one less. -/
def visits (operands : ι → Except Fault (List ι)) : Stack ι → Nat
  | [] => 0
  | (depth, id) :: stack => visitsFrom operands depth id + visits operands stack

theorem visits_push (operands : ι → Except Fault (List ι)) (stack : Stack ι) (depth : Nat)
    (ids : List ι) : visits operands (push stack depth ids.reverse) + 1 =
      ids.foldr (fun id n => visitsFrom operands depth id + n) 1 + visits operands stack := by
  rw [push, List.foldl_reverse]
  induction ids with
  | nil => exact Nat.add_comm _ _
  | cons id ids ih =>
    rw [List.foldr_cons, List.foldr_cons, visits]
    omega

end Stack

/-- Visits what is on a stack and everything below it. -/
@[semireducible]
def walk (visit : σ → ι → Except Fault σ) (operands : ι → Except Fault (List ι)) (state : σ)
    (stack : Stack ι) : Except Fault σ :=
  match stack with
  | [] => .ok state
  | (0, _) :: _ => .error .cycle
  | (depth + 1, id) :: stack => do
    let state ← visit state id
    match _listed : operands id with
    | .error fault => .error fault
    | .ok ids => walk visit operands state (Stack.push stack depth ids.reverse)
termination_by Stack.visits operands stack
decreasing_by
  have pushed := Stack.visits_push operands stack depth ids
  simp only [Stack.visits, Stack.visitsFrom, _listed]
  omega

end SharingRecovery
