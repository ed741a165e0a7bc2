set_option autoImplicit false

/-!
Decimals and the doubles nearest to them.
-/

namespace SharingRecovery

/-- The number `digits · 10 ^ exponent`, or its negative. -/
structure Decimal where
  negative : Bool
  digits : Nat
  exponent : Int
  deriving DecidableEq

def digitCount (n : Nat) : Nat :=
  (Nat.toDigits 10 n).length

namespace Decimal

def infinity : Float := Float.ofBits 0x7FF0000000000000

def notANumber : Float := Float.ofBits 0x7FF8000000000000

/-- The double nearest to `digits · 10 ^ exponent`, a half going to the even neighbour; infinity
where that is beyond the largest double. Decimals far outside the range of doubles are settled by
their magnitude alone, so that no power of ten grows out of hand. -/
def magnitude (digits : Nat) (exponent : Int) : Float :=
  let top := exponent + digitCount digits
  if digits = 0 ∨ top < -330 then Float.ofBits 0
  else if top > 330 then infinity
  else
    match exponent with
    | .ofNat e => Float.ofScientific digits false e
    | .negSucc e => Float.ofScientific digits true (e + 1)

/-- The double nearest to a decimal. Zero keeps its sign. -/
def toFloat (d : Decimal) : Float :=
  if d.negative then -magnitude d.digits d.exponent else magnitude d.digits d.exponent

def ofInt (n : Int) : Float :=
  toFloat ⟨n < 0, n.natAbs, 0⟩

end Decimal
end SharingRecovery
