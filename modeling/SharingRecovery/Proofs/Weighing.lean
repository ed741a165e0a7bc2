import Mathlib.Algebra.BigOperators.Group.Finset.Basic
import Mathlib.Tactic.Ring
import SharingRecovery.Proofs.Recovered

set_option autoImplicit false

/-!
The weight of a tree when it is written out: bindings and plain nodes have weights, and an operand
counts as often as it is written. In a recovered tree everything counts once, since an operand that
is written more than once is a variable or weighs nothing. Where nothing is worth a name, everything
counts as often as it occurs in the tree of the view.
-/

namespace SharingRecovery

private theorem sum_map_eq_of_count {ι : Type} [DecidableEq ι] {keys emitted : List ι}
    {weight : ι → Nat} (nodup : keys.Nodup) (inside : emitted ⊆ keys)
    (once : ∀ key ∈ keys, weight key = 0 ∨ emitted.count key = 1) :
    (emitted.map weight).sum = (keys.map weight).sum := by
  have term : ∀ key ∈ keys, emitted.count key • weight key = weight key := by
    intro key member
    rcases once key member with zero | one
    · rw [zero, nsmul_zero]
    · rw [one, one_nsmul]
  have absent : ∀ key ∈ keys.toFinset, key ∉ emitted.toFinset →
      emitted.count key • weight key = 0 := by
    intro key _ missing
    rw [List.mem_toFinset] at missing
    rw [List.count_eq_zero.mpr missing, zero_nsmul]
  have subset : emitted.toFinset ⊆ keys.toFinset := by
    intro key member
    exact List.mem_toFinset.mpr (inside (List.mem_toFinset.mp member))
  rw [Finset.sum_list_map_count, Finset.sum_subset subset absent, ← List.sum_toFinset weight nodup]
  exact Finset.sum_congr rfl fun key member => term key (List.mem_toFinset.mp member)

private theorem sum_written_eq {ι α : Type} [DecidableEq ι] {operands : OrderedMap ι α}
    {written : List ι} {weight : ι → Nat} {load : α → Nat}
    (nodup : (OrderedMap.keys operands).Nodup) (inside : written ⊆ OrderedMap.keys operands)
    (weight_eq : ∀ entry ∈ operands, entry.1 ∈ written → weight entry.1 = load entry.2)
    (once : ∀ entry ∈ operands, load entry.2 = 0 ∨ written.count entry.1 = 1) :
    (written.map weight).sum = (operands.map fun entry => load entry.2).sum := by
  let value (ref : ι) : Nat := ((OrderedMap.get? operands ref).map load).getD 0
  have value_eq : ∀ entry ∈ operands, value entry.1 = load entry.2 := by
    intro entry member
    simp only [value, OrderedMap.get?_of_mem nodup member, Option.map_some, Option.getD_some]
  have entries : ∀ ref ∈ OrderedMap.keys operands, ∃ entry ∈ operands, entry.1 = ref :=
    fun ref member => List.mem_map.mp member
  calc (written.map weight).sum = (written.map value).sum := by
        refine congrArg List.sum (List.map_congr_left fun ref member => ?_)
        obtain ⟨entry, among, rfl⟩ := entries ref (inside member)
        rw [weight_eq entry among member, value_eq entry among]
    _ = ((OrderedMap.keys operands).map value).sum := by
        refine sum_map_eq_of_count nodup inside fun ref member => ?_
        obtain ⟨entry, among, rfl⟩ := entries ref member
        rw [value_eq entry among]
        exact once entry among
    _ = (operands.map fun entry => load entry.2).sum := by
        rw [OrderedMap.keys, List.map_map]
        exact congrArg List.sum (List.map_congr_left value_eq)

namespace SharedTree

variable {ι : Type} [DecidableEq ι]

/-- The weight of a tree, if each plain node writes out the given operands, one for every mention.
-/
inductive Weighs (binding : Nat) (own : ι → Nat) (emitted : ι → List ι) : SharedTree ι → Nat → Prop
  | var (id : ι) : Weighs binding own emitted (.var id) 0
  | bind {id : ι} {bound body : SharedTree ι} {a b : Nat} : Weighs binding own emitted bound a →
      Weighs binding own emitted body b →
      Weighs binding own emitted (.bind id bound body) (binding + a + b)
  | plain {id : ι} {operands : List (ι × SharedTree ι)} (operand : ι → SharedTree ι)
      (weight : ι → Nat) :
      (∀ ref ∈ emitted id, OrderedMap.get? operands ref = some (operand ref)) →
      (∀ ref ∈ emitted id, Weighs binding own emitted (operand ref) (weight ref)) →
      Weighs binding own emitted (.plain id operands) (own id + ((emitted id).map weight).sum)

def load (binding : Nat) (own : ι → Nat) (tree : SharedTree ι) : Nat :=
  binding * tree.binders.length + (tree.plains.map own).sum

variable {binding : Nat} {own : ι → Nat} {emitted : ι → List ι}

private theorem Weighs.eq_zero {id : ι} {n : Nat}
    (weighs : Weighs binding own emitted (.var id) n) :
    n = 0 := by
  cases weighs
  rfl

theorem Weighs.of_operands {id : ι} {operands : List (ι × SharedTree ι)} {weight : ι → Nat}
    (each : ∀ ref ∈ emitted id, ∃ operand, OrderedMap.get? operands ref = some operand ∧
      Weighs binding own emitted operand (weight ref)) :
    Weighs binding own emitted (.plain id operands) (own id + ((emitted id).map weight).sum) := by
  refine .plain (fun ref => (OrderedMap.get? operands ref).getD (.var ref)) weight
    (fun ref member => ?_) fun ref member => ?_
  all_goals
    obtain ⟨operand, here, weighs⟩ := each ref member
    rw [here, Option.getD_some]
  exact weighs

omit [DecidableEq ι] in
theorem load_var (id : ι) : (var id).load binding own = 0 := by
  simp [load]

omit [DecidableEq ι] in
theorem load_bind (id : ι) (bound body : SharedTree ι) : (bind id bound body).load binding own =
    binding + bound.load binding own + body.load binding own := by
  simp only [load, binders_bind, plains_bind, List.length_cons, List.length_append, List.map_append,
    List.sum_append]
  ring

omit [DecidableEq ι] in
theorem load_plain (id : ι) (operands : List (ι × SharedTree ι)) :
    (plain id operands).load binding own =
      own id + (operands.map fun entry => entry.2.load binding own).sum := by
  simp only [load, binders_plain, plains_plain, List.length_flatMap, List.map_cons, List.sum_cons,
    List.map_flatMap, List.sum_map_add, List.sum_map_mul_left]
  rw [List.flatMap_def, List.sum_flatten, List.map_map]
  simp only [Function.comp_def]
  ring

omit [DecidableEq ι] in
theorem Stands.reaches_of_mem_plains {view : View ι} {tree : SharedTree ι} {id other : ι}
    (stands : tree.Stands view id) (plain : other ∈ tree.plains) : view.Reaches id other := by
  induction stands with
  | var id => simp at plain
  | bind _ below _ _ ihBound ihBody =>
    rw [plains_bind, List.mem_append] at plain
    exact plain.elim (fun inside => below.trans (ihBound inside)) ihBody
  | @plain id refs operands listed covers _ ih =>
    rw [plains_plain, List.mem_cons, List.mem_flatMap] at plain
    rcases plain with rfl | ⟨entry, member, inside⟩
    · exact .refl other
    · have ref := (covers entry.1).mp (List.mem_map_of_mem member)
      exact (View.Reaches.of_reference (View.references_eq listed ▸ ref)).trans
        (ih entry member inside)

private theorem Arranged.load_eq_zero {view : View ι} {chain : ι → List ι} {named : ι → Prop}
    {tree : SharedTree ι} {id : ι} (arranged : tree.Arranged view chain named id [])
    (leaf : view.references id = []) (weightless : own id = 0) : tree.load binding own = 0 := by
  cases arranged with
  | @plain _ operands keys _ _ =>
    rw [leaf] at keys
    obtain rfl : operands = [] := List.map_eq_nil_iff.mp keys
    rw [load_plain, weightless]
    rfl

end SharedTree

namespace View

variable {ι : Type} [DecidableEq ι] {view : View ι} {tally : Tally ι} {root : ι} {binding : Nat}
  {own : ι → Nat} {emitted : ι → List ι}

private theorem boundAt_eq_nil (leaves : view.TrivialLeaves) (tallies : view.Tallies tally root)
    {id : ι} (reached : view.Reaches root id) (leaf : view.references id = []) :
    view.boundAt root id = [] := by
  refine List.eq_nil_iff_forall_not_mem.mpr fun target member => ?_
  obtain ⟨_, below, immediate⟩ := (mem_coveredBy_iff leaves tallies reached).mp
      (mem_boundAt.mp member).1
  rcases reaches_iff.mp (immediate.dominates.reaches below).2 with same | ⟨ref, inside, _⟩
  · exact immediate.ne same
  · simp [leaf] at inside

theorem count_references_eq_one {source target : ι} (reached : view.Reaches root source)
    (member : target ∈ view.references source) (nameable : view.Nameable target)
    (unnamed : ¬view.Named root target) : (view.references source).count target = 1 := by
  have most := count_references_le_one reached fun several => unnamed ⟨nameable, several⟩
  have least := List.count_pos_iff.mpr member
  omega

section Recovered

variable {tree : SharedTree ι} (leaves : view.TrivialLeaves) (run : view.recover root = .ok tree)
include leaves run

theorem count_plains_of_recover {id : ι} (nameable : view.Nameable id)
    (reached : view.Reaches root id) : tree.plains.count id = 1 := by
  classical
  obtain ⟨tally, _, tallies, arranged, _⟩ := arranged_of_recover leaves run
  rw [count_plains leaves tallies arranged (.refl root) (List.Subset.refl _) reached nameable,
    countP_placedAt leaves tallies (.refl root) reached nameable, if_pos (dominates_root id)]

theorem count_binders_of_recover {id : ι} (named : view.Named root id) :
    tree.binders.count id = 1 := by
  obtain ⟨tally, _, tallies, arranged, _⟩ := arranged_of_recover leaves run
  have founded := tallies.founded
  have once := count_plains_of_recover leaves run named.1 (founded.shared_of_named named).2
  have different : root ≠ id := by
    rintro rfl
    obtain ⟨source, reached, found⟩ := named.2.nonempty
    exact (founded.of_reaches reached).not_reaches_back (List.mem_of_getElem? found) reached
  rwa [arranged.count_plains named, if_neg different] at once

theorem named_of_mem_binders {id : ι} (bound : id ∈ tree.binders) : view.Named root id := by
  obtain ⟨_, _, _, arranged, _⟩ := arranged_of_recover leaves run
  exact arranged.named_of_mem_binders (fun _ _ inside => (mem_boundAt.mp inside).2)
    (fun _ inside => (mem_boundAt.mp inside).2) bound

end Recovered

/-- If every operand without a name is written once, or weighs nothing, a tree that follows the plan
weighs what is in it. -/
theorem weight_eq_load (leaves : view.TrivialLeaves) (tallies : view.Tallies tally root)
    (inside : ∀ source, view.Reaches root source → emitted source ⊆ view.references source)
    (once : ∀ source, view.Reaches root source → ∀ ref ∈ view.references source,
      ¬view.Named root ref →
        (view.references ref = [] ∧ own ref = 0) ∨ (emitted source).count ref = 1)
    {tree : SharedTree ι} {id : ι} {ids : List ι}
    (arranged : tree.Arranged view (view.boundAt root) (view.Named root) id ids)
    (reached : view.Reaches root id) (planned : ids ⊆ view.boundAt root id) {n : Nat}
    (weighs : tree.Weighs binding own emitted n) : n = tree.load binding own := by
  induction arranged generalizing n with
  | @plain id operands keys withName below ih =>
    cases weighs with
    | @plain _ _ operand weight found each =>
      have nodup : (OrderedMap.keys operands).Nodup := keys ▸ nodup_firstSeen List.nodup_nil _
      have referred : ∀ entry ∈ operands, entry.1 ∈ view.references id := by
        intro entry member
        have key : entry.1 ∈ OrderedMap.keys operands := List.mem_map_of_mem member
        rw [keys, mem_firstSeen] at key
        exact key.resolve_left List.not_mem_nil
      have weight_eq : ∀ entry ∈ operands, entry.1 ∈ emitted id →
          weight entry.1 = entry.2.load binding own := by
        intro entry member written
        have weighed := each entry.1 written
        rw [Option.some.inj ((found entry.1 written).symm.trans
          (OrderedMap.get?_of_mem nodup member))] at weighed
        by_cases named : view.Named root entry.1
        · rw [withName entry member named] at weighed ⊢
          rw [weighed.eq_zero, SharedTree.load_var]
        · have step := View.Reaches.of_reference (referred entry member)
          exact ih entry member named (reached.trans step) (List.Subset.refl _) weighed
      -- An operand that is written more than once is a variable or a leaf without weight.
      have light : ∀ entry ∈ operands,
          entry.2.load binding own = 0 ∨ (emitted id).count entry.1 = 1 := by
        intro entry member
        by_cases named : view.Named root entry.1
        · rw [withName entry member named]
          exact .inl (SharedTree.load_var entry.1)
        refine (once id reached entry.1 (referred entry member) named).imp_left ?_
        rintro ⟨empty, weightless⟩
        have leaf := below entry member named
        have step := View.Reaches.of_reference (referred entry member)
        rw [boundAt_eq_nil leaves tallies (reached.trans step) empty] at leaf
        exact leaf.load_eq_zero empty weightless
      have written : emitted id ⊆ OrderedMap.keys operands := by
        intro ref member
        rw [keys, mem_firstSeen]
        exact .inr (inside id reached member)
      rw [SharedTree.load_plain, sum_written_eq nodup written weight_eq light]
  | @bind other id rest bound body _ _ ihBound ihBody =>
    cases weighs with
    | bind first second =>
      obtain ⟨here, planned⟩ := List.cons_subset.mp planned
      have reached' := reaches_of_mem_placedAt leaves tallies reached (mem_placedAt.mpr (.inr here))
      rw [SharedTree.load_bind, ihBound reached' (List.Subset.refl _) first,
        ihBody reached planned second]

theorem weight_eq_unfolding (bare : ∀ id, ¬view.Nameable id) {tree : SharedTree ι} {id : ι}
    (stands : tree.Stands view id) (closed : tree.free = []) (founded : view.Founded id)
    (all : ∀ source, view.Reaches id source → emitted source = view.references source) {n : Nat}
    (weighs : tree.Weighs binding own emitted n) :
    n = ((view.unfolding id).labels.map own).sum := by
  induction stands generalizing n with
  | var id => simp [SharedTree.free] at closed
  | bind nameable _ _ _ _ _ => exact absurd nameable (bare _)
  | @plain id refs operands listed covers _ ih =>
    cases weighs with
    | @plain _ _ operand weight found each =>
      have here := all id (.refl id)
      have below : ∀ ref ∈ view.references id,
          weight ref = ((view.unfolding ref).labels.map own).sum := by
        intro ref member
        have written := here ▸ member
        have entry := OrderedMap.mem_of_get? (found ref written)
        have step := View.Reaches.of_reference member
        refine ih _ entry ?_ (founded.of_reference member)
          (fun source reached => all source (step.trans reached)) (each ref written)
        refine List.eq_nil_iff_forall_not_mem.mpr fun other free => ?_
        have outside : other ∈ (SharedTree.plain id operands).free :=
          SharedTree.mem_free_plain.mpr ⟨_, entry, free⟩
        rw [closed] at outside
        cases outside
      rw [here, List.map_congr_left below, founded.labels_unfolding, List.map_cons, List.sum_cons,
        List.map_flatMap, List.flatMap_def, List.sum_flatten, List.map_map]
      rfl

end View
end SharingRecovery
