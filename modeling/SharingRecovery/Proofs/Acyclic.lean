import Mathlib.Data.List.Perm.Subperm
import SharingRecovery.Proofs.Lockstep

set_option autoImplicit false

/-!
Views without cycles. No path meets a node twice, so a bound on the nodes that are met bounds every
path; below a node with bounded paths all is finite. Where moreover every number of occurrences is a
word, counting succeeds, and with it recovery.
-/

namespace SharingRecovery

namespace View

variable {ι : Type} {view : View ι}

private theorem Path.reaches_of_mem {source target id : ι} {path : List ι}
    (way : view.Path source target path) (on : id ∈ path) : view.Reaches source id := by
  obtain ⟨_, _, first, _⟩ := way.divide on
  exact first.reaches

theorem Path.nodup {source target : ι} {path : List ι} (way : view.Path source target path)
    (acyclic : view.Acyclic) : path.Nodup := by
  induction way with
  | here id => exact List.nodup_singleton id
  | step member way ih =>
    refine List.nodup_cons.mpr ⟨fun again => ?_, ih⟩
    exact acyclic _ _ member (way.reaches_of_mem again)

private theorem founded_of_operands {id : ι} {refs : List ι} {n : Nat}
    (operands : view.operands id = .ok refs)
    (below : ∀ ref ∈ refs, view.Founded ref ∧ (view.unfolding ref).height ≤ n) :
    view.Founded id ∧ (view.unfolding id).height ≤ n + 1 := by
  have unfolds : ∀ ref ∈ refs, (view.unfolding ref).label = ref ∧
      (view.unfolding ref).Unfolds view := by
    intro ref inside
    obtain ⟨tree, rfl, unfolds⟩ := (below ref inside).1
    rw [unfolding_eq unfolds]
    exact ⟨rfl, unfolds⟩
  have labels : refs.map (Tree.label ∘ view.unfolding) = refs :=
    (List.map_congr_left fun ref inside => (unfolds ref inside).1).trans refs.map_id
  have founded : view.Founded id := by
    refine ⟨.node id (refs.map view.unfolding), rfl, .node ?_ ?_⟩
    · rw [List.map_map, labels, operands]
    · exact List.forall_mem_map.mpr fun ref inside => (unfolds ref inside).2
  refine ⟨founded, ?_⟩
  rw [founded.unfolding_node, references_eq operands, Tree.height]
  refine Nat.succ_le_succ (Tree.heightOfAll_le ?_)
  exact List.forall_mem_map.mpr fun ref inside => (below ref inside).2

private theorem founded_of_short {root : ι} {n : Nat}
    (listed : ∀ id, view.Reaches root id → ∃ refs, view.operands id = .ok refs)
    (short : ∀ target path, view.Path root target path → path.length ≤ n) :
    view.Founded root ∧ (view.unfolding root).height ≤ n := by
  induction n generalizing root with
  | zero => exact absurd (short root [root] (.here root)) (by simp)
  | succ n ih =>
    obtain ⟨refs, operands⟩ := listed root (.refl root)
    refine founded_of_operands operands fun ref inside => ?_
    have member : ref ∈ view.references root := references_eq operands ▸ inside
    refine ih (fun id reaches => listed id ((Reaches.of_reference member).trans reaches)) ?_
    intro target path way
    exact Nat.le_of_succ_le_succ (short target _ (.step member way))

theorem length_le_of_slots {slot : ι → Nat} (injective : Function.Injective slot) {ids : List ι}
    (nodup : ids.Nodup) {n : Nat} (within : ∀ id ∈ ids, slot id < n) : ids.length ≤ n := by
  have inside : ids.map slot ⊆ List.range n := by
    intro i member
    obtain ⟨id, on, rfl⟩ := List.mem_map.mp member
    exact List.mem_range.mpr (within id on)
  have shorter := ((nodup.map injective).subperm inside).length_le
  rwa [List.length_map, List.length_range] at shorter

theorem Acyclic.founded (acyclic : view.Acyclic) {root : ι} {slot : ι → Nat} {n : Nat}
    (injective : Function.Injective slot) (within : ∀ id, view.Reaches root id → slot id < n)
    (listed : ∀ id, view.Reaches root id → ∃ refs, view.operands id = .ok refs) :
    view.Founded root ∧ (view.unfolding root).height ≤ n := by
  refine founded_of_short listed fun target path way => ?_
  exact length_le_of_slots injective (way.nodup acyclic) fun id on =>
    within id (way.reaches_of_mem on)

variable [DecidableEq ι]

def CountsFit (view : View ι) (root : ι) : Prop :=
  ∀ id, view.Nameable id → view.paths root id < Word.limit

theorem countsFit_of_tally {root : ι} {tally : Tally ι} (lawful : view.Lawful)
    (run : view.tally root = .ok tally) : view.CountsFit root := by
  obtain ⟨origin, identified, counts⟩ := counts_of_tally run
  obtain rfl := lawful.identify_eq identified
  intro id nameable
  exact counts.tallies.paths_lt (fits_of_tally run) nameable

/-- Below a root where all is finite and every number of occurrences is a word, sharing can be
recovered. -/
theorem exists_recover (uniform : view.Uniform) {root : ι} (founded : view.Founded root)
    (low : (view.unfolding root).height ≤ view.depth) (fits : view.CountsFit root) :
    ∃ tree, view.recover root = .ok tree := by
  have deep := founded.height_pos.trans_le low
  obtain ⟨tree, rfl, unfolds⟩ := founded
  have same := unfolding_eq unfolds
  have small : view.OccurrencesFit tree.label := by
    intro id nameable
    have less := fits id nameable
    rwa [paths, same, ← outlineWithin_eq unfolds (same ▸ low)] at less
  have counted := uniform.tally_eq deep small
  rw [View.tree, uniform.treeWithin_eq unfolds (same ▸ low)] at counted
  obtain ⟨origin, identified, counts⟩ := counts_of_tally counted
  obtain rfl := uniform.identify_eq identified
  obtain ⟨hoisted, memo, tree, hoist, pending, thin⟩ :=
    counts.tallies.exists_hoist_thin (fits_of_tally counted) low
  exact ⟨tree, recover_of_hoist counted hoist pending thin⟩

end View
end SharingRecovery
