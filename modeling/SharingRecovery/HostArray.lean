import SharingRecovery.Scalar

set_option autoImplicit false

/-!
Arrays that are given with the program, as a shape and the elements in row-major order.
-/

namespace SharingRecovery

structure HostArray where
  shape : List Nat
  data : List Scalar
  deriving DecidableEq, BEq

structure SizeMismatch where
  expected : Nat
  got : Nat
  deriving DecidableEq

def SizeMismatch.message (e : SizeMismatch) : String :=
  "array shape holds " ++ toString e.expected ++ " elements but " ++ toString e.got ++ " were given"

namespace HostArray

/-- An array of the given shape. The number of elements of the shape is multiplied out from the
left; if that leaves the words, the largest word is reported as expected. -/
def ofShape (shape : List Nat) (data : List Scalar) : Except SizeMismatch HostArray :=
  match Word.product? shape with
  | none => .error ⟨Word.largest, data.length⟩
  | some expected =>
    if expected = data.length then .ok ⟨shape, data⟩ else .error ⟨expected, data.length⟩

def vector (data : List Scalar) : HostArray :=
  ⟨[data.length], data⟩

def toJson (a : HostArray) : Json :=
  .obj [("shape", .ofList .ofNat a.shape), ("data", .ofList Scalar.toJson a.data)]

/-- Reads an array. Whether the data fill the shape is not checked. -/
def ofJson? (json : Json) : Option HostArray := do
  match ← json.record? ["shape", "data"] with
  | [shape, data] => return ⟨← shape.list? Json.word?, ← data.list? Scalar.ofJson?⟩
  | _ => none

end HostArray
end SharingRecovery
