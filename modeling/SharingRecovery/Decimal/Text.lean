import SharingRecovery.Decimal.Shortest

set_option autoImplicit false

/-!
Decimal text of doubles: the shortest digits that read back, written positionally or with an
exponent.
-/

namespace SharingRecovery.Decimal

/-- How a finite double is written. The exponent of a number is that of its leading digit. -/
structure Style where
  /-- The least exponent written positionally. -/
  positionalFrom : Int
  /-- The least exponent above it that is not. -/
  positionalBelow : Int
  /-- Positive exponents carry a plus sign. -/
  plusSign : Bool
  /-- The choice between two equally near digits. -/
  tie : Tie
  deriving DecidableEq

def zeros (n : Nat) : String :=
  String.ofList (List.replicate n '0')

/-- Positional text: always with a point and a digit on both sides of it. -/
def positional (digits : List Char) (exponent : Int) : String :=
  match exponent with
  | .negSucc gap => "0." ++ zeros gap ++ String.ofList digits
  | .ofNat e =>
    let whole := digits.take (e + 1)
    let fraction := digits.drop (e + 1)
    String.ofList whole ++ zeros (e + 1 - whole.length) ++ "."
      ++ (if fraction.isEmpty then "0" else String.ofList fraction)

/-- Text with an exponent: one digit before the point, and no point if that is all. -/
def scientific (plusSign : Bool) (digits : List Char) (exponent : Int) : String :=
  let mantissa :=
    match digits with
    | [] => "0"
    | [digit] => String.ofList [digit]
    | digit :: rest => String.ofList [digit] ++ "." ++ String.ofList rest
  let sign := if plusSign ∧ 0 ≤ exponent then "+" else ""
  mantissa ++ "e" ++ sign ++ toString exponent

def render (style : Style) (x : Float) : String :=
  let d := shortest style.tie x
  let sign := if d.negative then "-" else ""
  if d.digits = 0 then sign ++ "0.0"
  else
    let digits := Nat.toDigits 10 d.digits
    let exponent := d.exponent + digits.length - 1
    sign ++
      (if style.positionalFrom ≤ exponent ∧ exponent < style.positionalBelow then
        positional digits exponent
      else
        scientific style.plusSign digits exponent)

end SharingRecovery.Decimal
