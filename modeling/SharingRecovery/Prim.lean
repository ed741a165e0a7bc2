import SharingRecovery.Json.Decode

set_option autoImplicit false

/-!
Primitive operations on scalars.
-/

namespace SharingRecovery

inductive Prim where
  | add | sub | mul | div | neg | abs | min | max | eq | lt | gt | and | or | not | sin | cos | sqrt
  deriving DecidableEq

namespace Prim

def all : List Prim :=
  [.add, .sub, .mul, .div, .neg, .abs, .min, .max, .eq, .lt, .gt, .and, .or, .not, .sin, .cos,
    .sqrt]

def arity : Prim → Nat
  | .neg | .abs | .not | .sin | .cos | .sqrt => 1
  | _ => 2

def name : Prim → String
  | .add => "Add"
  | .sub => "Sub"
  | .mul => "Mul"
  | .div => "Div"
  | .neg => "Neg"
  | .abs => "Abs"
  | .min => "Min"
  | .max => "Max"
  | .eq => "Eq"
  | .lt => "Lt"
  | .gt => "Gt"
  | .and => "And"
  | .or => "Or"
  | .not => "Not"
  | .sin => "Sin"
  | .cos => "Cos"
  | .sqrt => "Sqrt"

def toJson (p : Prim) : Json :=
  .str p.name

def ofJson? (json : Json) : Option Prim := do
  let tag ← json.bareTag?
  all.find? fun p => p.name = tag

end Prim
end SharingRecovery
