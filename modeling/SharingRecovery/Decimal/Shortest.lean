import SharingRecovery.Decimal.Nearest

set_option autoImplicit false

/-!
The shortest decimal that reads back as a given double.

A finite double is `m · 2 ^ q`, and every real number near enough rounds to it. Among the decimals
in that interval those with the fewest digits are wanted, and of these the one nearest to the
double. For a given number of digits only the two neighbours of the double on that decimal grid
matter, so the search tries one digit, then two, and so on; seventeen always suffice. All
comparisons are exact.
-/

namespace SharingRecovery.Decimal

inductive Tie where
  | up
  | toEven
  deriving DecidableEq

/-- The real numbers that round to a positive double, in units of `2 ^ exponent`: the double itself
and the ends of the interval, which belong to it or not. -/
structure Interval where
  low : Nat
  value : Nat
  high : Nat
  closed : Bool
  exponent : Int

/-- The interval of the double with this bit pattern, its sign set aside. Right above a power of two
the next smaller double is only half as far away. -/
def interval (bits : Nat) : Interval :=
  let field : Nat := bits / Nat.pow 2 52 % Nat.pow 2 11
  let fraction : Nat := bits % Nat.pow 2 52
  let m := if field = 0 then fraction else Nat.pow 2 52 + fraction
  let q : Int := if field = 0 then -1074 else (field : Int) - 1075
  { low := if fraction = 0 ∧ 1 < field then 4 * m - 1 else 4 * m - 2
    value := 4 * m
    high := 4 * m + 2
    closed := m % 2 = 0
    exponent := q - 2 }

/-- A power of ten above `2 ^ bits`, by its exponent: `10 ^ 31` is above `2 ^ 100`. -/
def headroom (bits : Nat) : Nat :=
  31 * bits / 100 + 1

/-- The exponent `e` with `10 ^ e ≤ value < 10 ^ (e + 1)`. The digits are counted after a shift that
leaves at least one of them before the point. -/
def Interval.scale (i : Interval) : Int :=
  let bits := (-i.exponent).toNat
  let shift := headroom bits
  let part := i.value * Nat.pow 2 i.exponent.toNat * Nat.pow 10 shift / Nat.pow 2 bits
  (digitCount part : Int) - 1 - shift

/-- The two neighbours of the value on the grid of multiples of `10 ^ place`, if they lie in the
interval, and the choice between them. -/
def Interval.onGrid (tie : Tie) (i : Interval) (place : Int) : Option Nat :=
  let binary := Nat.pow 2 i.exponent.toNat * Nat.pow 10 (-place).toNat
  let decimal := Nat.pow 10 place.toNat * Nat.pow 2 (-i.exponent).toNat
  let inside (d : Nat) : Bool :=
    if i.closed then i.low * binary ≤ d * decimal ∧ d * decimal ≤ i.high * binary
    else i.low * binary < d * decimal ∧ d * decimal < i.high * binary
  let below := i.value * binary / decimal
  let rest := i.value * binary % decimal
  let above := below + 1
  match inside below, inside above with
  | true, true =>
    if 2 * rest < decimal then some below
    else if 2 * rest > decimal then some above
    else
      match tie with
      | .up => some above
      | .toEven => some (if below % 2 = 0 then below else above)
  | true, false => some below
  | false, true => some above
  | false, false => none

def trim : Nat → Nat → Int → Nat × Int
  | 0, digits, exponent => (digits, exponent)
  | steps + 1, digits, exponent =>
    if digits ≠ 0 ∧ digits % 10 = 0 then trim steps (digits / 10) (exponent + 1)
    else (digits, exponent)

def maxDigits : Nat := 17

/-- The shortest decimal that reads back as a finite double. -/
def shortest (tie : Tie) (x : Float) : Decimal :=
  let bits := x.toBits.toNat
  let negative : Bool := bits / Nat.pow 2 63 = 1
  let i := interval (bits % Nat.pow 2 63)
  if i.value = 0 then ⟨negative, 0, 0⟩
  else
    let top := i.scale
    let found := (List.range maxDigits).findSome? fun (n : Nat) =>
      let place := top - n
      (i.onGrid tie place).map fun digits => (digits, place)
    let (digits, exponent) := found.getD (0, 0)
    let (digits, exponent) := trim (maxDigits + 1) digits exponent
    ⟨negative, digits, exponent⟩

end SharingRecovery.Decimal
