import SharingRecovery.Decimal.Nearest
import SharingRecovery.Json.Basic
import SharingRecovery.Word

set_option autoImplicit false

/-!
Reading typed values out of JSON: words, integers, doubles, lists, variants and records.
-/

namespace SharingRecovery.Json

def word? : Json → Option Nat
  | .num (.int n) => if 0 ≤ n then Word.checked n.toNat else none
  | _ => none

def int64? : Json → Option Int64
  | .num (.int n) =>
    if Int64.minValue.toInt ≤ n ∧ n ≤ Int64.maxValue.toInt then some (Int64.ofInt n) else none
  | _ => none

/-- A finite double. Integers are rounded to the nearest one. -/
def float? : Json → Option Float
  | .num (.int n) => some (Decimal.ofInt n)
  | .num (.float x) => if x.isFinite then some x else none
  | _ => none

def bool? : Json → Option Bool
  | .bool b => some b
  | _ => none

def str? : Json → Option String
  | .str s => some s
  | _ => none

def list? {α : Type} (item : Json → Option α) : Json → Option (List α)
  | .arr items => items.mapM item
  | _ => none

/-- The tag and the payload of a variant: an object of one field. -/
def tagged? : Json → Option (String × Json)
  | .obj [(tag, payload)] => some (tag, payload)
  | _ => none

/-- The tag of a variant without payload: a string, or an object of one field that is null. -/
def bareTag? : Json → Option String
  | .str tag => some tag
  | .obj [(tag, .null)] => some tag
  | _ => none

def only? (fields : List (String × Json)) (name : String) : Option Json :=
  match fields.filter fun field => field.1 = name with
  | [(_, value)] => some value
  | _ => none

/-- The fields of a record in the order of their names: an object that has each of them once and
perhaps others, or a list of exactly these values. -/
def record? (names : List String) : Json → Option (List Json)
  | .arr items => if items.length = names.length then some items else none
  | .obj fields => names.mapM (only? fields)
  | _ => none

end SharingRecovery.Json
