import SharingRecovery.Scalar

set_option autoImplicit false

/-!
What a stencil reads beyond the border of its array.
-/

namespace SharingRecovery

inductive Boundary where
  /-- The nearest element. -/
  | clamp
  /-- The element on the other side of the border. -/
  | reflect
  /-- The element at the opposite end. -/
  | wrap
  /-- A fixed value. -/
  | constant (value : Scalar)
  deriving DecidableEq, BEq

namespace Boundary

def toJson : Boundary → Json
  | .clamp => .str "Clamp"
  | .reflect => .str "Mirror"
  | .wrap => .str "Wrap"
  | .constant value => .tagged "Constant" value.toJson

def ofJson? (json : Json) : Option Boundary :=
  match json.bareTag? with
  | some "Clamp" => some .clamp
  | some "Mirror" => some .reflect
  | some "Wrap" => some .wrap
  | _ =>
    match json.tagged? with
    | some ("Constant", payload) => (Scalar.ofJson? payload).map .constant
    | _ => none

end Boundary
end SharingRecovery
