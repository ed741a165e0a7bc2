import Mathlib.Data.Set.Card
import SharingRecovery.Proofs.Emission

set_option autoImplicit false

/-!
How often array work is done. With sharing of arrays a lowered program computes every array that it
reaches once, and binds those that are referred to more than once. Without any sharing it computes
an array once for every path that leads to it.
-/

namespace SharingRecovery

private theorem encard_eq_length {ι : Type} [DecidableEq ι] (ids : List ι) {members : Set ι}
    (inside : ∀ id ∈ ids, id ∈ members) (once : ∀ id ∈ members, ids.count id = 1) :
    members.encard = ids.length := by
  have nodup : ids.Nodup := by
    refine List.nodup_iff_count_le_one.mpr fun id => ?_
    by_cases listed : id ∈ ids
    · exact (once id (inside id listed)).le
    · rw [List.count_eq_zero.mpr listed]
      exact Nat.zero_le 1
  have same : members = ids.toFinset := by
    ext id
    rw [Finset.mem_coe, List.mem_toFinset]
    exact ⟨fun member => List.count_pos_iff.mp (once id member ▸ Nat.one_pos), inside id⟩
  rw [same, Set.encard_coe_eq_coe_finsetCard, List.toFinset_card_of_nodup nodup]

namespace View

variable {ι : Type} [DecidableEq ι] {view : View ι} {root : ι}

private theorem Counts.mem_keys_iff {tally : Tally ι} {origin id : ι}
    (counts : view.Counts tally origin) :
    id ∈ OrderedMap.keys tally.counts ↔ view.Nameable id ∧ view.Reaches origin id := by
  rw [OrderedMap.mem_keys_iff]
  change (∃ n, tally.get? id = some n) ↔ _
  rw [counts.get?_eq]
  split <;> simp_all

section Tallied

variable {tally : Tally ι} {origin : ι} (counts : view.Counts tally origin)
  (nodup : (OrderedMap.keys tally.counts).Nodup)
  (all : ∀ id, view.Reaches origin id → view.Nameable id)
include counts nodup all

private theorem Counts.encard_reaches : {id | view.Reaches origin id}.encard = tally.size := by
  rw [encard_eq_length (OrderedMap.keys tally.counts) (fun id listed => ?_) fun id reached => ?_,
    OrderedMap.keys, List.length_map]
  · rfl
  · exact (counts.mem_keys_iff.mp listed).2
  · exact List.count_eq_one_of_mem nodup (counts.mem_keys_iff.mpr ⟨all id reached, reached⟩)

private theorem Counts.sum_eq : (tally.counts.map Prod.snd).sum = view.treeSize origin := by
  let labels := (view.unfolding origin).labels
  have value : ∀ entry ∈ tally.counts, entry.2 = labels.count entry.1 := by
    intro entry member
    have found : tally.get? entry.1 = some entry.2 := OrderedMap.get?_of_mem nodup member
    rw [counts.get?_eq, Option.ite_none_right_eq_some, Option.some.injEq] at found
    exact found.2.symm
  have keys : (OrderedMap.keys tally.counts).Perm labels.dedup := by
    refine (List.perm_ext_iff_of_nodup nodup labels.nodup_dedup).mpr fun id => ?_
    rw [counts.mem_keys_iff, List.mem_dedup, counts.founded.mem_labels_iff]
    exact and_iff_right_of_imp (all id)
  calc (tally.counts.map Prod.snd).sum
      = ((OrderedMap.keys tally.counts).map labels.count).sum := by
        rw [List.map_congr_left value, OrderedMap.keys, List.map_map]
        rfl
    _ = (labels.dedup.map labels.count).sum := (keys.map labels.count).sum_eq
    _ = view.treeSize origin := List.sum_map_count_dedup_eq_length labels

end Tallied

section Recovered

variable {tree : SharedTree ι} (leaves : view.TrivialLeaves) (run : view.recover root = .ok tree)
include leaves run

theorem encard_reaches_of_recover (all : ∀ id, view.Reaches root id → view.Nameable id) :
    {id | view.Reaches root id}.encard = tree.plains.length :=
  encard_eq_length _ (fun _ plain => (stands_of_recover run).1.reaches_of_mem_plains plain)
    fun id reached => count_plains_of_recover leaves run (all id reached) reached

theorem encard_named_of_recover : {id | view.Named root id}.encard = tree.binders.length :=
  encard_eq_length _ (fun _ bound => named_of_mem_binders leaves run bound)
    fun _ named => count_binders_of_recover leaves run named

end Recovered
end View

namespace Graph

variable {g : Graph} {options : Options} {root : ArrayKey} {t : ArrayTerm}

private theorem nameable_arrayView {key : ArrayKey} {trivial : Bool}
    (decided : (g.arrayView true).isTrivial key = .ok trivial) :
    (g.arrayView true).Nameable key := by
  obtain ⟨_, found, _⟩ := bind_eq_ok_iff.mp decided
  exact bind_eq_ok_iff.mpr ⟨_, found, rfl⟩

theorem not_nameable_arrayView_false (key : ArrayKey) : ¬(g.arrayView false).Nameable key := by
  intro nameable
  obtain ⟨_, _, no⟩ := bind_eq_ok_iff.mp nameable
  cases no

theorem weight_of_lower_shared (shared : options.shareArrays = true)
    (run : g.lower options root = .ok t) :
    ∃ tree, (g.arrayView true).recover root = .ok tree ∧ ∀ binding operation : Nat,
      t.weight binding operation =
        binding * tree.binders.length + tree.plains.length * operation := by
  obtain ⟨_, accepts⟩ := exists_lower_iff.mp ⟨t, run⟩
  obtain ⟨tree, recovered, lowered⟩ := lower_eq_ok run
  rw [shared] at accepts recovered
  refine ⟨tree, recovered, fun binding operation => ?_⟩
  have leaves := g.trivialLeaves_arrayView
  obtain ⟨tally, _, tallies, arranged, _⟩ := View.arranged_of_recover leaves recovered
  have stands := (View.stands_of_recover recovered).1
  have weighs := Lowering.weighs_of_lowerTree binding operation stands lowered
  rw [View.weight_eq_load leaves tallies ?_ ?_ arranged (.refl root) (List.Subset.refl _) weighs,
    SharedTree.load, List.map_const', List.sum_replicate_nat]
  · intro source reached
    obtain ⟨node, found, accepts⟩ := accepts source reached
    exact emittedBy_subset found (tallies.founded.of_reaches reached).operands accepts.recovers
  · intro source reached ref member unnamed
    obtain ⟨node, found, accepts⟩ := accepts source reached
    obtain ⟨_, decided⟩ := tallies.decided ref (reached.trans (.of_reference member))
    have once := View.count_references_eq_one reached member (nameable_arrayView decided) unnamed
    exact .inr (count_emittedBy_eq_one found (tallies.founded.of_reaches reached).operands
      accepts.recovers once)

theorem operations_of_lower_unshared (arrays : options.shareArrays = false)
    (scalars : options.shareScalars = false) (run : g.lower options root = .ok t) :
    (g.arrayView false).Founded root ∧ t.operations = (g.arrayView false).treeSize root := by
  obtain ⟨_, accepts⟩ := exists_lower_iff.mp ⟨t, run⟩
  obtain ⟨tree, recovered, lowered⟩ := lower_eq_ok run
  rw [arrays] at accepts recovered
  rw [scalars] at accepts lowered
  obtain ⟨founded, _⟩ := (g.consistent_arrayView false).founded_of_recover recovered
  obtain ⟨stands, closed⟩ := View.stands_of_recover recovered
  have weighs := Lowering.weighs_of_lowerTree 0 1 stands lowered
  refine ⟨founded, ?_⟩
  rw [ArrayTerm.operations, View.weight_eq_unfolding not_nameable_arrayView_false
    stands closed founded (fun source reached => ?_) weighs, List.map_const',
    List.sum_replicate_nat, Nat.mul_one]
  · rfl
  · obtain ⟨node, found, accepts⟩ := accepts source reached
    exact emittedBy_false found (founded.of_reaches reached).operands accepts.recovers

private theorem counts_of_tally_arrayView {tally : Tally ArrayKey}
    (run : (g.arrayView true).tally root = .ok tally) :
    (g.arrayView true).Counts tally root ∧
      ∀ key, (g.arrayView true).Reaches root key → (g.arrayView true).Nameable key := by
  obtain ⟨origin, identified, counts⟩ := View.counts_of_tally run
  obtain rfl := (g.consistent_arrayView true).identify_eq identified
  refine ⟨counts, fun key reached => ?_⟩
  obtain ⟨_, decided⟩ := counts.decided key reached
  exact nameable_arrayView decided

/-- With sharing of arrays, a lowered program has one array operation for every array that the root
reaches, and one `let` for every array that is listed at least twice among their operands. Without
any sharing it has one operation for every path, as many as there are occurrences in all. -/
theorem operations_of_lower (g : Graph) (options : Options) (root : ArrayKey) (t : ArrayTerm)
    (run : g.lower options root = .ok t) :
    (options.shareArrays = true → ∃ tally, (g.arrayView true).tally root = .ok tally ∧
      t.operations = tally.size ∧
      {key | (g.arrayView true).Reaches root key}.encard = tally.size ∧
      {key | ((g.arrayView true).referencesTo root key).Nontrivial}.encard = t.lets) ∧
    (options.shareArrays = false → options.shareScalars = false →
      t.operations = (g.arrayView true).treeSize root ∧
      ∀ tally, (g.arrayView true).tally root = .ok tally →
        t.operations = (tally.counts.map Prod.snd).sum) := by
  refine ⟨fun shared => ?_, fun arrays scalars => ?_⟩
  · obtain ⟨tree, recovered, weight⟩ := weight_of_lower_shared shared run
    have leaves := g.trivialLeaves_arrayView
    obtain ⟨tally, counted, _⟩ := View.arranged_of_recover leaves recovered
    obtain ⟨counts, all⟩ := counts_of_tally_arrayView counted
    have reached := counts.encard_reaches (View.nodup_of_tally counted) all
    have plains := View.encard_reaches_of_recover leaves recovered all
    have binders := View.encard_named_of_recover leaves recovered
    have named : ∀ key, (g.arrayView true).Named root key ↔
        ((g.arrayView true).referencesTo root key).Nontrivial := by
      refine fun key => and_iff_right_of_imp fun several => ?_
      obtain ⟨source, reached, found⟩ := several.nonempty
      exact all key (reached.trans (.of_reference (List.mem_of_getElem? found)))
    refine ⟨tally, counted, ?_, reached, ?_⟩
    · rw [ArrayTerm.operations, weight, Nat.zero_mul, Nat.zero_add, Nat.mul_one]
      exact Nat.cast_injective (plains.symm.trans reached)
    · simp only [named] at binders
      rw [binders, ArrayTerm.lets, weight, Nat.one_mul, Nat.mul_zero, Nat.add_zero]
  · obtain ⟨founded, operations⟩ := operations_of_lower_unshared arrays scalars run
    have paths : t.operations = (g.arrayView true).treeSize root :=
      operations.trans (founded.treeSize_eq rfl)
    refine ⟨paths, fun tally counted => ?_⟩
    obtain ⟨counts, all⟩ := counts_of_tally_arrayView counted
    rw [paths, counts.sum_eq (View.nodup_of_tally counted) all]

/-- Both functions read an array twice through one scalar node, and one is mapped over that array.
There are three operations and two `let`s with sharing of arrays, even if the scalar node is written
twice, and eleven operations without. -/
theorem operations_of_lower_read_twice :
    let s (i : Nat) : ScalarKey := ⟨i⟩
    let a (i : Nat) : ArrayKey := ⟨i⟩
    let g : Graph := ⟨⟨#[.use ⟨[], [.bool true]⟩, .map ⟨[s 0], s 2⟩ (a 0),
        .zipWith ⟨[s 0, s 3], s 2⟩ (a 1) (a 1)]⟩,
      ⟨#[.param, .op (.size (a 0)), .op (.tuple [s 1, s 1, s 0]), .param]⟩⟩
    ∃ t u v, g.lower {} (a 2) = .ok t ∧ g.lower { shareScalars := false } (a 2) = .ok u ∧
      g.lower { shareArrays := false, shareScalars := false } (a 2) = .ok v ∧
      t.operations = 3 ∧ u.operations = 3 ∧ v.operations = 11 ∧
      {key | (g.arrayView true).Reaches (a 2) key}.encard = 3 ∧
      {key | ((g.arrayView true).referencesTo (a 2) key).Nontrivial}.encard = 2 := by
  intro s a g
  have counted : (g.arrayView true).tally (a 2) = .ok ⟨[(a 2, 1), (a 1, 2), (a 0, 8)]⟩ := by
    subst g a s
    rfl
  obtain ⟨t, shared, lets⟩ : ∃ t, g.lower {} (a 2) = .ok t ∧ t.lets = 2 := by
    subst g a s
    exact ⟨_, rfl, rfl⟩
  obtain ⟨u, halfShared⟩ : ∃ u, g.lower { shareScalars := false } (a 2) = .ok u := by
    subst g a s
    exact ⟨_, rfl⟩
  obtain ⟨v, unshared⟩ : ∃ v,
      g.lower { shareArrays := false, shareScalars := false } (a 2) = .ok v := by
    subst g a s
    exact ⟨_, rfl⟩
  obtain ⟨tally, again, first, reached, bound⟩ := (operations_of_lower g {} (a 2) t shared).1 rfl
  obtain rfl := Except.ok.inj (counted.symm.trans again)
  obtain ⟨tally, again, second, _⟩ := (operations_of_lower g _ (a 2) u halfShared).1 rfl
  obtain rfl := Except.ok.inj (counted.symm.trans again)
  have third := ((operations_of_lower g _ (a 2) v unshared).2 rfl rfl).2 _ counted
  rw [lets] at bound
  exact ⟨t, u, v, shared, halfShared, unshared, first, second, third, reached, bound⟩

end Graph
end SharingRecovery
