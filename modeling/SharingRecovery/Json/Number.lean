import SharingRecovery.Decimal.Text
import SharingRecovery.Json.Basic

set_option autoImplicit false

/-!
JSON numbers as text.
-/

namespace SharingRecovery.Json

/-- Doubles are positional from `0.00001` up to `10 ^ 16`, an exponent has its sign, and of two
equally near digits the even one is written. -/
def numberStyle : Decimal.Style :=
  { positionalFrom := -5, positionalBelow := 16, plusSign := true, tie := .toEven }

namespace Number

def text : Number → String
  | .int n => toString n
  | .float x => if x.isFinite then Decimal.render numberStyle x else "null"

/-- An integer literal: an integer if it is at least `-2 ^ 63` and below `2 ^ 64`, else a double.
Negative zero is a double. -/
def ofInteger (negative : Bool) (digits : Nat) : Number :=
  if negative then
    if digits = 0 ∨ Nat.pow 2 63 < digits then .float (Decimal.toFloat ⟨true, digits, 0⟩)
    else .int (-digits)
  else
    if digits < Nat.pow 2 64 then .int digits else .float (Decimal.toFloat ⟨false, digits, 0⟩)

def natOfDigits (digits : List Char) : Nat :=
  digits.foldl (fun n c => 10 * n + (c.toNat - '0'.toNat)) 0

/-- The digits before the point: no zero in front of another digit. -/
def whole? (cs : List Char) : Option (List Char × List Char) :=
  match cs.span Char.isDigit with
  | ([], _) => none
  | ('0' :: _ :: _, _) => none
  | parts => some parts

def fraction? : List Char → Option (List Char × List Char)
  | '.' :: cs =>
    match cs.span Char.isDigit with
    | ([], _) => none
    | parts => some parts
  | cs => some ([], cs)

def exponentDigits? (cs : List Char) : Option Int :=
  if cs ≠ [] ∧ cs.all Char.isDigit then some (natOfDigits cs) else none

def exponent? : List Char → Option (Option Int)
  | [] => some none
  | mark :: cs =>
    if mark = 'e' ∨ mark = 'E' then
      match cs with
      | '+' :: ds => (exponentDigits? ds).map some
      | '-' :: ds => (exponentDigits? ds).map fun n => some (-n)
      | ds => (exponentDigits? ds).map some
    else none

def unsigned? (negative : Bool) (cs : List Char) : Option Number := do
  let (whole, cs) ← whole? cs
  let (fraction, cs) ← fraction? cs
  let exponent ← exponent? cs
  if fraction = [] ∧ exponent = none then
    return ofInteger negative (natOfDigits whole)
  else
    let digits := natOfDigits (whole ++ fraction)
    return .float (Decimal.toFloat ⟨negative, digits, exponent.getD 0 - fraction.length⟩)

/-- Reads a number. A literal beyond the largest double reads as an infinity, which no reader of
values accepts. -/
def ofText? : List Char → Option Number
  | '-' :: cs => unsigned? true cs
  | cs => unsigned? false cs

end Number
end SharingRecovery.Json
