set_option autoImplicit false

/-!
Machine words: the natural numbers below `2 ^ 64`. Slots, extents, indices and counters are words.
Arithmetic on them is checked, so that a result that is no word is noticed, or taken modulo
`2 ^ 64`.
-/

namespace SharingRecovery.Word

/-- The least number that is no word. -/
def limit : Nat := 0x10000000000000000

def largest : Nat := limit - 1

/-- `n` itself, provided it is a word. -/
def checked (n : Nat) : Option Nat :=
  if n < limit then some n else none

def add? (a b : Nat) : Option Nat :=
  checked (a + b)

def mul? (a b : Nat) : Option Nat :=
  checked (a * b)

/-- The product of a list of words, taken from the left. The first partial product that is no word
ends the computation, even where a zero follows. -/
def product? (factors : List Nat) : Option Nat :=
  factors.foldlM mul? 1

def wrappingProduct (factors : List Nat) : Nat :=
  factors.foldl (fun total factor => total * factor % limit) 1

theorem checked_eq_some_iff {n w : Nat} : checked n = some w ↔ n = w ∧ n < limit := by
  unfold checked
  split <;> simp <;> omega

end SharingRecovery.Word
