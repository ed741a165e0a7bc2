import Mathlib.Data.List.Forall2
import Mathlib.Data.List.Nodup
import SharingRecovery.Lowering.Scalar
import SharingRecovery.Proofs.Extents

set_option autoImplicit false

/-!
The paths of a neighbourhood. Positions in row-major order are numbers in mixed radix, the outermost
dimension most significant; stepping from one position to the next adds one, with a carry out of the
front at the end. The paths of the nested layout are therefore the positions of all neighbours, and
a path leads from the outermost tuple to its own neighbour.
-/

namespace SharingRecovery

namespace Word

private theorem foldl_wrapping_eq (factors : List Nat) (start : Nat) (word : start < limit) :
    factors.foldl (fun total factor => total * factor % limit) start =
    start * factors.prod % limit := by
  induction factors generalizing start with
  | nil => simp [Nat.mod_eq_of_lt word]
  | cons factor factors ih =>
    rw [List.foldl_cons, ih _ (Nat.mod_lt _ limit_pos), List.prod_cons, ← Nat.mul_assoc,
      Nat.mod_mul_mod]

theorem wrappingProduct_eq (factors : List Nat) :
    wrappingProduct factors = factors.prod % limit := by
  have run := foldl_wrapping_eq factors 1 (by decide)
  rwa [Nat.one_mul] at run

end Word

namespace Neighbourhood

theorem ofExtents_eq_ok_iff {extents : List Nat} {n : Neighbourhood} : ofExtents extents = .ok n ↔
    n = ⟨extents⟩ ∧ extents ≠ [] ∧ (∀ extent ∈ extents, extent % 2 = 1) ∧
      extents.prod < Word.limit := by
  unfold ofExtents
  by_cases empty : extents = []
  · simp [empty]
  rw [if_neg (by simpa using empty)]
  cases found : extents.find? fun extent => extent % 2 = 0 with
  | some even =>
    have member := List.mem_of_find?_eq_some found
    have zero : even % 2 = 0 := by simpa using List.find?_some found
    refine iff_of_false nofun fun ⟨_, _, odd, _⟩ => ?_
    have := odd even member
    omega
  | none =>
    have odd : ∀ extent ∈ extents, extent % 2 = 1 := by
      intro extent inside
      have := List.find?_eq_none.mp found extent inside
      simp only [decide_eq_true_eq] at this
      omega
    have positive : 0 ∉ extents := fun zero => absurd (odd 0 zero) (by decide)
    simp only [Word.product?_eq_of_pos positive]
    by_cases fits : extents.prod < Word.limit
    · rw [if_pos fits]
      exact ⟨fun done => ⟨(Except.ok.inj done).symm, empty, odd, fits⟩,
        fun ⟨same, _⟩ => by rw [same]⟩
    · simp [fits]

theorem size_eq {n : Neighbourhood} (fits : n.extents.prod < Word.limit) :
    n.size = n.extents.prod := by
  rw [size, Word.wrappingProduct_eq, Nat.mod_eq_of_lt fits]

end Neighbourhood

inductive Nested (α : Type) where
  | leaf (a : α)
  | tuple (components : List (Nested α))

namespace Nested

variable {α : Type}

def component? : Nested α → Nat → Option (Nested α)
  | .leaf _, _ => none
  | .tuple components, i => components[i]?

def follow? (value : Nested α) (path : Path) : Option (Nested α) :=
  path.foldlM component? value

/-- The tuple of given extents with the elements in row-major order: each component of the outermost
tuple has the next block of them. -/
def ofRowMajor : List Nat → (Nat → α) → Nested α
  | [], v => .leaf (v 0)
  | extent :: extents, v =>
    .tuple ((List.range extent).map fun k => ofRowMajor extents fun i => v (k * extents.prod + i))

mutual

def elements : Nested α → List α
  | .leaf a => [a]
  | .tuple components => elementsOfAll components

def elementsOfAll : List (Nested α) → List α
  | [] => []
  | component :: components => component.elements ++ elementsOfAll components

end

private theorem elements_tuple (components : List (Nested α)) :
    (tuple components).elements = components.flatMap elements := by
  rw [elements]
  induction components with
  | nil => rfl
  | cons component components ih => rw [elementsOfAll, ih, List.flatMap_cons]

private theorem flatMap_blocks (count size : Nat) (v : Nat → α) :
    ((List.range count).flatMap fun k => (List.range size).map fun i => v (k * size + i)) =
      (List.range (count * size)).map v := by
  induction count with
  | zero => simp
  | succ count ih =>
    rw [List.range_succ, List.flatMap_append, ih, Nat.succ_mul, List.range_add, List.map_append,
      List.map_map, List.flatMap_singleton]
    rfl

theorem elements_ofRowMajor (extents : List Nat) (v : Nat → α) :
    (ofRowMajor extents v).elements = (List.range extents.prod).map v := by
  induction extents generalizing v with
  | nil => simp [ofRowMajor, elements]
  | cons extent extents ih =>
    rw [ofRowMajor, elements_tuple, List.flatMap_map, List.prod_cons, ← flatMap_blocks]
    exact congrArg (List.flatMap · _) (funext fun k => ih _)

end Nested

namespace TupleLayout

def position : List Nat → Path → Nat
  | _ :: extents, digit :: digits => digit * extents.prod + position extents digits
  | _, _ => 0

variable {extents : List Nat} {path : Path}

/-- One step adds one. What runs over the end is carried out of the front. -/
theorem advance_eq (within : List.Forall₂ (· < ·) path extents) :
    List.Forall₂ (· < ·) (advance extents path).1 extents ∧
      position extents path + 1 = position extents (advance extents path).1 +
        if (advance extents path).2 then extents.prod else 0 := by
  induction within with
  | nil => simp [advance, position]
  | @cons digit extent digits extents below rest ih =>
    rw [advance]
    generalize advance extents digits = next at ih ⊢
    obtain ⟨digits', carry⟩ := next
    obtain ⟨within, sum⟩ := ih
    cases carry with
    | false =>
      refine ⟨.cons below within, ?_⟩
      simp only [position, Bool.false_eq_true, if_false] at sum ⊢
      omega
    | true =>
      by_cases room : digit + 1 < extent
      · simp only [if_true, if_pos room]
        refine ⟨.cons room within, ?_⟩
        simp only [position, Nat.succ_mul, Bool.false_eq_true, if_false, if_true] at sum ⊢
        omega
      · obtain rfl : extent = digit + 1 := by omega
        simp only [if_true, if_neg room]
        refine ⟨.cons digit.succ_pos within, ?_⟩
        simp only [position, List.prod_cons, Nat.succ_mul, if_true] at sum ⊢
        omega

private theorem advance_of_room (within : List.Forall₂ (· < ·) path extents)
    (room : position extents path + 1 < extents.prod) :
    List.Forall₂ (· < ·) (advance extents path).1 extents ∧
      position extents (advance extents path).1 = position extents path + 1 := by
  obtain ⟨within', sum⟩ := advance_eq within
  refine ⟨within', ?_⟩
  split at sum <;> omega

theorem length_positions (extents : List Nat) (n : Nat) (path : Path) :
    (positions extents n path).length = n := by
  induction n generalizing path with
  | zero => rfl
  | succ n ih => rw [positions, List.length_cons, ih]

private theorem getElem?_positions {n i : Nat} {later : Path}
    (within : List.Forall₂ (· < ·) path extents) (room : position extents path + n ≤ extents.prod)
    (found : (positions extents n path)[i]? = some later) :
    List.Forall₂ (· < ·) later extents ∧ position extents later = position extents path + i := by
  induction n generalizing path i with
  | zero => simp [positions] at found
  | succ n ih =>
    rw [positions] at found
    cases i with
    | zero =>
      obtain rfl : path = later := by simpa using found
      exact ⟨within, rfl⟩
    | succ i =>
      rw [List.getElem?_cons_succ] at found
      have inside := (List.getElem?_eq_some_iff.mp found).1
      rw [length_positions] at inside
      obtain ⟨within', next⟩ := advance_of_room within (by omega)
      obtain ⟨below, equal⟩ := ih within' (by omega) found
      exact ⟨below, by omega⟩

private theorem within_zero (positive : ∀ extent ∈ extents, 0 < extent) :
    List.Forall₂ (· < ·) (List.replicate extents.length 0) extents := by
  induction extents with
  | nil => exact .nil
  | cons extent extents ih =>
    obtain ⟨here, rest⟩ := List.forall_mem_cons.mp positive
    exact .cons here (ih rest)

private theorem position_zero (extents : List Nat) :
    position extents (List.replicate extents.length 0) = 0 := by
  induction extents with
  | nil => rfl
  | cons extent extents ih => rw [List.length_cons, List.replicate_succ, position, ih, Nat.zero_mul]

/-- A path leads through a nested tuple to the element with its number. -/
theorem follow?_ofRowMajor {α : Type} (within : List.Forall₂ (· < ·) path extents) (v : Nat → α) :
    (Nested.ofRowMajor extents v).follow? path = some (.leaf (v (position extents path))) := by
  induction within generalizing v with
  | nil => rfl
  | @cons digit extent digits extents below _ ih =>
    have step : (Nested.ofRowMajor (extent :: extents) v).component? digit =
        some (Nested.ofRowMajor extents fun i => v (digit * extents.prod + i)) := by
      simp [Nested.ofRowMajor, Nested.component?, below]
    rw [Nested.follow?, List.foldlM_cons, step]
    exact ih _

end TupleLayout

def ScalarTerm.projected? {α : Type} (env : Nat → Nested α) : ScalarTerm → Option (Nested α)
  | .var index => some (env index)
  | .op (.prj i e) => (e.projected? env).bind (·.component? i)
  | _ => none

theorem ScalarTerm.projected?_project {α : Type} (env : Nat → Nested α) (e : ScalarTerm)
    (path : Path) : (e.project path).projected? env = (e.projected? env).bind (·.follow? path) := by
  induction path generalizing e with
  | nil =>
    rw [project, List.foldl_nil]
    cases e.projected? env <;> rfl
  | cons i path ih =>
    rw [project, List.foldl_cons]
    refine (ih _).trans ?_
    rw [projected?, Option.bind_assoc]
    rfl

namespace TupleLayout

/-- A path is that of the neighbour with a given number. It has a component for every dimension,
below the extent of the dimension, and is the number in mixed radix. It leads from the outermost
tuple to the element with that number, and so do the projections along it in scalar code. -/
structure Addresses (extents : List Nat) (path : Path) (i : Nat) : Prop where
  within : List.Forall₂ (· < ·) path extents
  position_eq : position extents path = i
  follow?_eq : ∀ {α : Type} (v : Nat → α),
    (Nested.ofRowMajor extents v).follow? path = some (.leaf (v i))
  projected?_eq : ∀ {α : Type} (v : Nat → α) (env : Nat → Nested α) (index : Nat),
    env index = Nested.ofRowMajor extents v →
      ((ScalarTerm.var index).project path).projected? env = some (.leaf (v i))

variable {n : Neighbourhood}

private theorem addresses_of_getElem? (positive : ∀ extent ∈ n.extents, 0 < extent)
    (fits : n.extents.prod < Word.limit) {rank i : Nat} {path : Path}
    (found : (nested rank n)[i]? = some path) : Addresses n.extents path i := by
  have start := position_zero n.extents
  have room : position n.extents (List.replicate n.extents.length 0) + n.size ≤ n.extents.prod := by
    rw [start, Neighbourhood.size_eq fits, Nat.zero_add]
  obtain ⟨within, number⟩ := getElem?_positions (within_zero positive) room found
  rw [start, Nat.zero_add] at number
  have followed {α : Type} (v : Nat → α) :
      (Nested.ofRowMajor n.extents v).follow? path = some (.leaf (v i)) := by
    rw [follow?_ofRowMajor within, number]
  refine ⟨within, number, followed, fun v env index argument => ?_⟩
  rw [ScalarTerm.projected?_project, ScalarTerm.projected?, argument]
  exact followed v

theorem nodup_nested (positive : ∀ extent ∈ n.extents, 0 < extent)
    (fits : n.extents.prod < Word.limit) (rank : Nat) : (nested rank n).Nodup := by
  rw [List.nodup_iff_getElem?_ne_getElem?]
  intro i j before inside same
  obtain ⟨path, found⟩ : ∃ path, (nested rank n)[j]? = some path :=
    ⟨_, List.getElem?_eq_getElem inside⟩
  have first := (addresses_of_getElem? positive fits (same.trans found)).position_eq
  have second := (addresses_of_getElem? positive fits found).position_eq
  omega

/-- Extents are accepted exactly if there are some, all are odd, and their product is a word. The
nested layout of an accepted neighbourhood has one path for every neighbour, all different, and the
path at each place is that of the neighbour with this number in row-major order. -/
theorem nested_addresses_of_ofExtents (extents : List Nat) :
    ((∃ n, Neighbourhood.ofExtents extents = .ok n) ↔
      extents ≠ [] ∧ (∀ extent ∈ extents, extent % 2 = 1) ∧ extents.prod < Word.limit) ∧
    ∀ n, Neighbourhood.ofExtents extents = .ok n →
      n.extents = extents ∧ n.size = extents.prod ∧
      (∀ {α : Type} (v : Nat → α),
        (Nested.ofRowMajor extents v).elements = (List.range n.size).map v) ∧
      ∀ rank, (nested rank n).length = n.size ∧ (nested rank n).Nodup ∧
        ∀ i path, (nested rank n)[i]? = some path → Addresses extents path i := by
  simp only [Neighbourhood.ofExtents_eq_ok_iff, exists_and_right, exists_eq, true_and]
  rintro n ⟨rfl, _, odd, fits⟩
  have positive : ∀ extent ∈ extents, 0 < extent := by
    intro extent inside
    have := odd extent inside
    omega
  have size := Neighbourhood.size_eq (n := ⟨extents⟩) fits
  refine ⟨rfl, size, fun v => ?_, fun rank => ⟨?_, ?_, fun i path => ?_⟩⟩
  · rw [size, Nested.elements_ofRowMajor]
  · exact length_positions _ _ _
  · exact nodup_nested positive fits rank
  · exact addresses_of_getElem? positive fits

/-- Three dimensions, the middle one flat: the eighth neighbour is the third one of the second row.
-/
theorem nested_addresses_three_one_five :
    Neighbourhood.ofExtents [3, 1, 5] = .ok ⟨[3, 1, 5]⟩ ∧
      (nested 3 ⟨[3, 1, 5]⟩)[7]? = some [1, 0, 2] ∧ Addresses [3, 1, 5] [1, 0, 2] 7 := by
  have accepted : Neighbourhood.ofExtents [3, 1, 5] = .ok ⟨[3, 1, 5]⟩ := by decide
  have found : (nested 3 ⟨[3, 1, 5]⟩)[7]? = some [1, 0, 2] := by decide
  obtain ⟨_, _, _, paths⟩ := (nested_addresses_of_ofExtents [3, 1, 5]).2 _ accepted
  exact ⟨accepted, found, (paths 3).2.2 7 _ found⟩

end TupleLayout
end SharingRecovery
