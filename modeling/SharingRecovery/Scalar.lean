import SharingRecovery.Decimal.Text
import SharingRecovery.Json.Decode

set_option autoImplicit false

/-!
Scalar constants: integers of 64 bits, doubles and truth values.
-/

namespace SharingRecovery

inductive Scalar where
  | int (n : Int64)
  | float (x : Float)
  | bool (b : Bool)
  deriving DecidableEq

namespace Scalar

/-- Constants of different kinds differ. Doubles compare by value, so the two zeros are equal and a
NaN differs from itself. -/
instance : BEq Scalar where
  beq
    | .int m, .int n => m = n
    | .float x, .float y => x == y
    | .bool a, .bool b => a = b
    | _, _ => false

/-- Shown doubles are positional from `0.0001` up to `10 ^ 16`, a positive exponent has no sign, and
of two equally near digits the greater one is shown. -/
def shownStyle : Decimal.Style :=
  { positionalFrom := -4, positionalBelow := 16, plusSign := false, tie := .up }

def showFloat (x : Float) : String :=
  if x.isNaN then "NaN"
  else if x.isInf then (if x < Float.ofBits 0 then "-inf" else "inf")
  else Decimal.render shownStyle x

def shown : Scalar → String
  | .int n => toString n.toInt
  | .float x => showFloat x
  | .bool b => if b then "true" else "false"

def toJson : Scalar → Json
  | .int n => .tagged "Int" (.num (.int n.toInt))
  | .float x => .tagged "Float" (.ofFloat x)
  | .bool b => .tagged "Bool" (.bool b)

def ofJson? (json : Json) : Option Scalar := do
  let (tag, payload) ← json.tagged?
  match tag with
  | "Int" => payload.int64?.map .int
  | "Float" => payload.float?.map .float
  | "Bool" => payload.bool?.map .bool
  | _ => none

end Scalar
end SharingRecovery
