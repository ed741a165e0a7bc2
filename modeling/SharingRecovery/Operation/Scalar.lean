import SharingRecovery.Prim
import SharingRecovery.Scalar

set_option autoImplicit false

/-!
Scalar operations over any kind of operands, for the nodes of a graph and for terms alike.
-/

namespace SharingRecovery

/-- A scalar operation with array operands in `A` and scalar operands in `E`. -/
inductive ScalarOp (A E : Type) where
  | const (value : Scalar)
  | tuple (es : List E)
  | prj (i : Nat) (e : E)
  | cond (c t e : E)
  | primApp (p : Prim) (es : List E)
  | index (xs : A) (ix : E)
  | shape (xs : A)
  | size (xs : A)
  deriving DecidableEq, BEq

namespace ScalarOp

variable {A E : Type}

def scalars : ScalarOp A E → List E
  | .tuple es | .primApp _ es => es
  | .prj _ e | .index _ e => [e]
  | .cond c t e => [c, t, e]
  | .const _ | .shape _ | .size _ => []

def array? : ScalarOp A E → Option A
  | .index xs _ | .shape xs | .size xs => some xs
  | _ => none

def mapM {A' E' : Type} {m : Type → Type} [Monad m] (array : A → m A') (scalar : E → m E') :
    ScalarOp A E → m (ScalarOp A' E')
  | .const value => return .const value
  | .tuple es => return .tuple (← es.mapM scalar)
  | .prj i e => return .prj i (← scalar e)
  | .cond c t e => return .cond (← scalar c) (← scalar t) (← scalar e)
  | .primApp p es => return .primApp p (← es.mapM scalar)
  | .index xs ix => return .index (← array xs) (← scalar ix)
  | .shape xs => return .shape (← array xs)
  | .size xs => return .size (← array xs)

def toJson (array : A → Json) (scalar : E → Json) : ScalarOp A E → Json
  | .const value => .tagged "Const" value.toJson
  | .tuple es => .tagged "Tuple" (.ofList scalar es)
  | .prj i e => .tagged "Prj" (.arr [.ofNat i, scalar e])
  | .cond c t e => .tagged "Cond" (.arr [scalar c, scalar t, scalar e])
  | .primApp p es => .tagged "PrimApp" (.arr [p.toJson, .ofList scalar es])
  | .index xs ix => .tagged "Index" (.arr [array xs, scalar ix])
  | .shape xs => .tagged "Shape" (array xs)
  | .size xs => .tagged "Size" (array xs)

def ofTagged? (array : Json → Option A) (scalar : Json → Option E) (tag : String) (payload : Json) :
    Option (ScalarOp A E) :=
  match tag, payload with
  | "Const", value => return .const (← Scalar.ofJson? value)
  | "Tuple", es => return .tuple (← es.list? scalar)
  | "Prj", .arr [i, e] => return .prj (← i.word?) (← scalar e)
  | "Cond", .arr [c, t, e] => return .cond (← scalar c) (← scalar t) (← scalar e)
  | "PrimApp", .arr [p, es] => return .primApp (← Prim.ofJson? p) (← es.list? scalar)
  | "Index", .arr [xs, ix] => return .index (← array xs) (← scalar ix)
  | "Shape", xs => return .shape (← array xs)
  | "Size", xs => return .size (← array xs)
  | _, _ => none

end ScalarOp
end SharingRecovery
