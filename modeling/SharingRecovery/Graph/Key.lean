import SharingRecovery.Json.Decode

set_option autoImplicit false

/-!
Keys of nodes. A key names a slot of the arena its node lives in.
-/

namespace SharingRecovery

structure ArrayKey where
  slot : Nat
  deriving DecidableEq

structure ScalarKey where
  slot : Nat
  deriving DecidableEq

inductive NodeKey where
  | array (key : ArrayKey)
  | scalar (key : ScalarKey)
  deriving DecidableEq

namespace ArrayKey

def shown (key : ArrayKey) : String :=
  "a" ++ toString key.slot

def toJson (key : ArrayKey) : Json :=
  .ofNat key.slot

def ofJson? (json : Json) : Option ArrayKey :=
  json.word?.map .mk

end ArrayKey

namespace ScalarKey

def shown (key : ScalarKey) : String :=
  "e" ++ toString key.slot

def toJson (key : ScalarKey) : Json :=
  .ofNat key.slot

def ofJson? (json : Json) : Option ScalarKey :=
  json.word?.map .mk

end ScalarKey

namespace NodeKey

/-- Array keys come before scalar keys; keys of one kind are ordered by slot. -/
def le : NodeKey → NodeKey → Bool
  | .array a, .array b => a.slot ≤ b.slot
  | .array _, .scalar _ => true
  | .scalar _, .array _ => false
  | .scalar a, .scalar b => a.slot ≤ b.slot

def shown : NodeKey → String
  | .array key => key.shown
  | .scalar key => key.shown

def toJson : NodeKey → Json
  | .array key => .tagged "Acc" key.toJson
  | .scalar key => .tagged "Exp" key.toJson

def ofJson? (json : Json) : Option NodeKey := do
  match ← json.tagged? with
  | ("Acc", payload) => (ArrayKey.ofJson? payload).map .array
  | ("Exp", payload) => (ScalarKey.ofJson? payload).map .scalar
  | _ => none

end NodeKey
end SharingRecovery
