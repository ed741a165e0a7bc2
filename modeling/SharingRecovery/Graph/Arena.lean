import SharingRecovery.Json.Decode

set_option autoImplicit false

/-!
Append-only storage. Every insertion takes the next slot and slots are never reused, so a slot
stands for one insertion.
-/

namespace SharingRecovery

/-- Values in slots numbered from zero. -/
structure Arena (α : Type) where
  slots : Array α
  deriving BEq

structure OutOfRange where
  size : Nat
  slot : Nat
  deriving DecidableEq

def OutOfRange.message (e : OutOfRange) : String :=
  "index out of bounds: the len is " ++ toString e.size ++ " but the index is " ++ toString e.slot

namespace Arena

variable {α : Type}

def empty : Arena α :=
  ⟨#[]⟩

def size (arena : Arena α) : Nat :=
  arena.slots.size

def get? (arena : Arena α) (slot : Nat) : Option α :=
  arena.slots[slot]?

def fetch (arena : Arena α) (slot : Nat) : Except OutOfRange α :=
  match arena.get? slot with
  | some value => .ok value
  | none => .error ⟨arena.size, slot⟩

def insert (arena : Arena α) (value : α) : Nat × Arena α :=
  (arena.size, ⟨arena.slots.push value⟩)

def items (arena : Arena α) : List (Nat × α) :=
  (List.range arena.size).zip arena.slots.toList

def toJson (value : α → Json) (arena : Arena α) : Json :=
  .ofList value arena.slots.toList

def ofJson? (value : Json → Option α) (json : Json) : Option (Arena α) :=
  (json.list? value).map fun values => ⟨values.toArray⟩

theorem get?_insert (arena : Arena α) (value : α) (slot : Nat) :
    (arena.insert value).2.get? slot =
      if slot = arena.size then some value else arena.get? slot := by
  unfold get? insert size
  split <;> simp_all [Array.getElem?_push]

end Arena
end SharingRecovery
