set_option autoImplicit false

/-!
JSON values. Numbers written as integers stay integers; all others are doubles. Objects keep their
fields in order, repeated ones included.

A text may hold values that cannot be read and still do no harm where nobody reads them. They stand
in the value around them as `unreadable`.
-/

namespace SharingRecovery

inductive Json.Number where
  | int (n : Int)
  | float (x : Float)
  deriving DecidableEq

inductive Json where
  | null
  | bool (b : Bool)
  | num (n : Json.Number)
  | str (s : String)
  | arr (items : List Json)
  | obj (fields : List (String × Json))
  /-- A well-formed value that can be passed over and not read. No reader accepts it. -/
  | unreadable
  deriving Inhabited

namespace Json

def ofNat (n : Nat) : Json :=
  .num (.int n)

/-- A double. JSON has no infinities and no NaN: they are written as null. -/
def ofFloat (x : Float) : Json :=
  if x.isFinite then .num (.float x) else .null

def ofList {α : Type} (item : α → Json) (items : List α) : Json :=
  .arr (items.map item)

def ofOption {α : Type} (item : α → Json) : Option α → Json
  | some a => item a
  | none => .null

def tagged (tag : String) (payload : Json) : Json :=
  .obj [(tag, payload)]

mutual

def depth : Json → Nat
  | .arr items => depthItems items + 1
  | .obj fields => depthFields fields + 1
  | _ => 0

def depthItems : List Json → Nat
  | [] => 0
  | item :: rest => max item.depth (depthItems rest)

def depthFields : List (String × Json) → Nat
  | [] => 0
  | (_, value) :: rest => max value.depth (depthFields rest)

end

end Json
end SharingRecovery
