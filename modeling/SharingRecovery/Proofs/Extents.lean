import Mathlib.Algebra.BigOperators.Ring.List
import Mathlib.Algebra.Order.Ring.Nat
import Mathlib.Data.List.TakeWhile
import SharingRecovery.HostArray

set_option autoImplicit false

/-!
Products of extents. The product of words is multiplied out from the left and given up at the first
partial product that is no word, so a zero decides only if the extents in front of it have a product
that is a word. Host arrays therefore take exactly the data that fill their shape, except for shapes
in which a zero comes too late.
-/

namespace SharingRecovery

namespace Word

theorem limit_pos : 0 < limit := by decide

private theorem prod_takeWhile_pos (factors : List Nat) : 0 < (factors.takeWhile (· ≠ 0)).prod := by
  refine Nat.pos_of_ne_zero fun zero => ?_
  have inside := List.prod_eq_zero_iff.mp zero
  simpa using List.mem_takeWhile_imp inside

/-- Multiplying on from a word succeeds if the product with the factors in front of the first zero
is a word. -/
theorem foldlM_mul?_eq (factors : List Nat) (start : Nat) (word : start < limit) :
    factors.foldlM mul? start =
      if start * (factors.takeWhile (· ≠ 0)).prod < limit then some (start * factors.prod)
      else none := by
  induction factors generalizing start with
  | nil => simp [word]
  | cons factor factors ih =>
    have positive := prod_takeWhile_pos factors
    rw [List.foldlM_cons, mul?, checked, List.prod_cons, ← Nat.mul_assoc]
    by_cases zero : factor = 0
    · subst zero
      simpa [limit_pos, word] using ih 0 limit_pos
    · rw [List.takeWhile_cons_of_pos (by simpa using zero), List.prod_cons, ← Nat.mul_assoc]
      by_cases fits : start * factor < limit
      · rw [if_pos fits]
        exact ih _ fits
      · have larger := Nat.le_mul_of_pos_right (start * factor) positive
        rw [if_neg fits, if_neg (by omega)]
        rfl

theorem product?_eq (factors : List Nat) : product? factors =
    if (factors.takeWhile (· ≠ 0)).prod < limit then some factors.prod else none := by
  have run := foldlM_mul?_eq factors 1 (by decide)
  rwa [Nat.one_mul, Nat.one_mul] at run

theorem product?_eq_of_pos {factors : List Nat} (positive : 0 ∉ factors) :
    product? factors = if factors.prod < limit then some factors.prod else none := by
  have all : factors.takeWhile (· ≠ 0) = factors := by
    rw [List.takeWhile_eq_self_iff]
    intro factor inside
    simpa using fun zero : factor = 0 => positive (zero ▸ inside)
  rw [product?_eq, all]

end Word

namespace HostArray

variable {shape : List Nat} {data : List Scalar}

/-- What a check of the exact number of elements says about a shape and its data. A number that is
no word is reported as the largest word. -/
def ofExactShape (shape : List Nat) (data : List Scalar) : Except SizeMismatch HostArray :=
  if shape.prod = data.length then .ok ⟨shape, data⟩
  else .error ⟨if shape.prod < Word.limit then shape.prod else Word.largest, data.length⟩

/-- No zero follows extents whose product is no word. -/
def ZeroInTime (shape : List Nat) : Prop :=
  0 ∈ shape → (shape.takeWhile (· ≠ 0)).prod < Word.limit

instance (shape : List Nat) : Decidable (ZeroInTime shape) :=
  inferInstanceAs (Decidable (0 ∈ shape → _))

theorem ofShape_of_zeroInTime (held : data.length < Word.limit) (inTime : ZeroInTime shape) :
    ofShape shape data = ofExactShape shape data := by
  unfold ofShape ofExactShape
  by_cases zero : 0 ∈ shape
  · have empty := List.prod_eq_zero zero
    rw [Word.product?_eq, if_pos (inTime zero), empty]
    simp [Word.limit_pos]
  · rw [Word.product?_eq_of_pos zero]
    by_cases fits : shape.prod < Word.limit
    · simp [fits]
    · have different : shape.prod ≠ data.length := by omega
      simp [fits, different]

theorem ofShape_of_not_zeroInTime (late : ¬ZeroInTime shape) (data : List Scalar) :
    ofShape shape data = .error ⟨Word.largest, data.length⟩ ∧ shape.prod = 0 := by
  obtain ⟨zero, large⟩ := Classical.not_imp.mp late
  refine ⟨?_, List.prod_eq_zero zero⟩
  rw [ofShape, Word.product?_eq, if_neg large]

private theorem isOk_ofExactShape : (ofExactShape shape data).isOk ↔ shape.prod = data.length := by
  unfold ofExactShape
  split <;> simp [Except.isOk, Except.toBool, *]

/-- The check of an array agrees with a check of the exact number of elements unless a zero follows
extents whose product is no word. Such a shape has no elements, but no data are accepted for it;
among the other shapes the order of the extents does not matter. -/
theorem ofShape_eq_ofExactShape_iff (shape : List Nat) (data : List Scalar)
    (held : data.length < Word.limit) :
    (ofShape shape data = ofExactShape shape data ↔ ZeroInTime shape) ∧
      (¬ZeroInTime shape →
        shape.prod = 0 ∧ ofShape shape data = .error ⟨Word.largest, data.length⟩) ∧
      ∀ order : List Nat, order.Perm shape → ZeroInTime shape → ZeroInTime order →
        (ofShape order data).isOk = (ofShape shape data).isOk := by
  refine ⟨⟨fun agree => ?_, ofShape_of_zeroInTime held⟩, fun late => ?_,
    fun order same inTime inTime' => ?_⟩
  · by_contra late
    obtain ⟨rejected, empty⟩ := ofShape_of_not_zeroInTime late data
    rw [rejected, ofExactShape, empty, if_pos Word.limit_pos] at agree
    split at agree
    · cases agree
    · have same : Word.largest = 0 := congrArg SizeMismatch.expected (Except.error.inj agree)
      exact absurd same (by decide)
  · exact (ofShape_of_not_zeroInTime late data).symm
  · rw [ofShape_of_zeroInTime held inTime, ofShape_of_zeroInTime held inTime', Bool.eq_iff_iff,
      isOk_ofExactShape, isOk_ofExactShape, same.prod_eq]

/-- A shape with a zero in the last place, behind extents that multiply to `2 ^ 64`, and the same
extents with the zero in front. -/
theorem ofShape_zero_in_front :
    let late := [2 ^ 63, 2, 0]
    let inTime := [0, 2 ^ 63, 2]
    inTime.Perm late ∧ ¬ZeroInTime late ∧ ZeroInTime inTime ∧
      ofShape late [] ≠ ofExactShape late [] ∧ ofShape inTime [] = ofExactShape inTime [] := by
  intro late inTime
  have held : ([] : List Scalar).length < Word.limit := Word.limit_pos
  have failed : ¬ZeroInTime late := by decide
  have passed : ZeroInTime inTime := by decide
  refine ⟨by decide, failed, passed, ?_, ?_⟩
  · exact fun agree => failed ((ofShape_eq_ofExactShape_iff late [] held).1.mp agree)
  · exact (ofShape_eq_ofExactShape_iff inTime [] held).1.mpr passed

/-- The shape has no elements and there are none, but `2 ^ 64 - 1` are said to be missing. -/
theorem ofShape_zero_too_late :
    ([2 ^ 63, 2, 0] : List Nat).prod = ([] : List Scalar).length ∧
      ofShape [2 ^ 63, 2, 0] [] = .error ⟨2 ^ 64 - 1, 0⟩ :=
  ⟨by decide, rfl⟩

end HostArray
end SharingRecovery
