set_option autoImplicit false

/-!
String literals. An escape by code gives one unit of UTF-16, so a character beyond `0xFFFF` takes
two escapes, the halves of a pair. A literal may be well formed and still have no text: when it
holds half of a pair without the other.
-/

namespace SharingRecovery.Json.Quoted

inductive Piece where
  | char (c : Char)
  | code (n : Nat)

def hexDigit? (c : Char) : Option Nat :=
  if c.isDigit then some (c.toNat - '0'.toNat)
  else if 'a' ≤ c ∧ c ≤ 'f' then some (c.toNat - 'a'.toNat + 10)
  else if 'A' ≤ c ∧ c ≤ 'F' then some (c.toNat - 'A'.toNat + 10)
  else none

def escaped? (c : Char) : Option Char :=
  if c = '"' ∨ c = '\\' ∨ c = '/' then some c
  else if c = 'b' then some '\x08'
  else if c = 'f' then some '\x0c'
  else if c = 'n' then some '\n'
  else if c = 'r' then some '\r'
  else if c = 't' then some '\t'
  else none

/-- The code is the upper half of a pair, which comes first. -/
def isUpper (n : Nat) : Bool :=
  0xD800 ≤ n && n < 0xDC00

def isLower (n : Nat) : Bool :=
  0xDC00 ≤ n && n < 0xE000

def joined (upper lower : Nat) : Char :=
  Char.ofNat (0x10000 + (upper - 0xD800) * 0x400 + (lower - 0xDC00))

/-- The characters of pieces that are given last first, before those that are known already. Every
lower half needs its upper half directly before it, and no upper half may be left over. -/
def charsBefore? (known : List Char) : List Piece → Option (List Char)
  | [] => some known
  | .char c :: rest => charsBefore? (c :: known) rest
  | .code n :: rest =>
    if isLower n then
      match rest with
      | .code m :: rest => if isUpper m then charsBefore? (joined m n :: known) rest else none
      | _ => none
    else if isUpper n then none
    else charsBefore? (Char.ofNat n :: known) rest

def text? (pieces : List Piece) : Option String :=
  (charsBefore? [] pieces).map String.ofList

end SharingRecovery.Json.Quoted
