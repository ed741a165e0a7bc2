import SharingRecovery.Proofs.Completion
import SharingRecovery.Proofs.Expansion

set_option autoImplicit false

/-!
Counting and unfolding, step by step. Both look up the same nodes in the same order, so where there
is room for the numbers of occurrences, counting is unfolding followed by counting the labels of the
tree: with the same fault if there is no tree (`Uniform.tally_eq`), and in the order of the labels
otherwise.
-/

namespace SharingRecovery

namespace OrderedMap

variable {κ α : Type} [DecidableEq κ]

theorem eq_map_keys {entries : OrderedMap κ α} (nodup : (keys entries).Nodup) {value : κ → α}
    (found : ∀ key ∈ keys entries, get? entries key = some (value key)) :
    entries = (keys entries).map fun key => (key, value key) := by
  rw [keys, List.map_map]
  refine (List.map_id entries).symm.trans (List.map_congr_left fun entry member => ?_)
  have same := found entry.1 (List.mem_map_of_mem member)
  rw [get?_of_mem nodup member] at same
  exact Prod.ext rfl (Option.some.inj same)

end OrderedMap

namespace Tally

variable {ι : Type} [DecidableEq ι]

def addAll (tally : Tally ι) (ids : List ι) : Tally ι :=
  ids.foldl (fun tally id => ⟨tally.counts.insert id ((tally.get? id).getD 0 + 1)⟩) tally

theorem addAll_append (tally : Tally ι) (ids others : List ι) :
    tally.addAll (ids ++ others) = (tally.addAll ids).addAll others :=
  List.foldl_append

private theorem add_eq_addAll {tally : Tally ι} {id : ι}
    (room : (tally.get? id).getD 0 + 1 < Word.limit) :
    tally.add id = .ok (tally.addAll [id]) :=
  bind_eq_ok_iff.mpr ⟨_, Fault.require_eq_ok_iff.mpr (Word.checked_eq_some room), rfl⟩

theorem get?_addAll (tally : Tally ι) (ids : List ι) (id : ι) : (tally.addAll ids).get? id =
    if id ∈ ids then some ((tally.get? id).getD 0 + ids.count id) else tally.get? id := by
  induction ids generalizing tally with
  | nil => rfl
  | cons other ids ih =>
    have first : (tally.addAll [other]).get? id =
        if id = other then some ((tally.get? other).getD 0 + 1) else tally.get? id :=
      OrderedMap.get?_insert tally.counts other id _
    rw [← List.singleton_append, addAll_append, ih, first, List.count_append, List.count_singleton]
    by_cases same : id = other
    · subst same
      by_cases inside : id ∈ ids
      · simp [inside, Nat.add_assoc]
      · simp [inside, List.count_eq_zero_of_not_mem]
    · simp [same, Ne.symm same]

private theorem getD_get?_addAll (tally : Tally ι) (ids : List ι) (id : ι) :
    ((tally.addAll ids).get? id).getD 0 = (tally.get? id).getD 0 + ids.count id := by
  rw [get?_addAll]
  by_cases inside : id ∈ ids
  · rw [if_pos inside]
    rfl
  · rw [if_neg inside, List.count_eq_zero_of_not_mem inside, Nat.add_zero]

theorem keys_addAll (tally : Tally ι) (ids : List ι) :
    OrderedMap.keys (tally.addAll ids).counts = firstSeen (OrderedMap.keys tally.counts) ids := by
  induction ids generalizing tally with
  | nil => rfl
  | cons id ids ih =>
    rw [← List.singleton_append, addAll_append, ih, firstSeen_append]
    exact congrArg (firstSeen · ids) (OrderedMap.keys_insert_eq tally.counts id _)

theorem counts_addAll_empty (ids : List ι) : ((empty : Tally ι).addAll ids).counts =
    (firstSeen [] ids).map fun id => (id, ids.count id) := by
  have keys : OrderedMap.keys ((empty : Tally ι).addAll ids).counts = firstSeen [] ids :=
    keys_addAll empty ids
  rw [← keys]
  refine OrderedMap.eq_map_keys (keys ▸ nodup_firstSeen List.nodup_nil ids) fun id inside => ?_
  rw [keys, mem_firstSeen] at inside
  have found := get?_addAll empty ids id
  rw [if_pos (inside.resolve_left nofun)] at found
  exact found.trans (congrArg some (Nat.zero_add _))

end Tally

namespace View

variable {ι : Type} (view : View ι)

instance : DecidablePred view.Nameable := fun id =>
  decidable_of_iff ((view.isTrivial id).toOption = some false) (by
    rw [Nameable]
    cases view.isTrivial id <;> simp [Except.toOption])

/-- The tree of references below a node, on paths of at most so many nodes. A node whose operands
cannot be listed is a leaf. -/
def outlineWithin : Nat → ι → Tree ι
  | 0, id => .node id []
  | depth + 1, id => .node id ((view.references id).map (outlineWithin depth))

def outline (root : ι) : Tree ι :=
  view.outlineWithin view.depth root

/-- No identity that is counted occurs more often below a root than a word can tell. -/
def OccurrencesFit [DecidableEq ι] (root : ι) : Prop :=
  ∀ id, view.Nameable id → (view.outline root).labels.count id < Word.limit

/-- A node has an identity exactly if it can be asked whether it is trivial, and the identity is its
own. -/
structure Uniform : Prop extends view.Consistent where
  isTrivial_eq_error_iff : ∀ {id : ι} {fault : Fault},
    view.isTrivial id = .error fault ↔ view.identify id = .error fault

variable {view}

theorem outlineWithin_eq {tree : Tree ι} (unfolds : tree.Unfolds view) {depth : Nat}
    (low : tree.height ≤ depth) : view.outlineWithin depth tree.label = tree := by
  induction unfolds generalizing depth with
  | @node id trees operands _ ih =>
    rw [Tree.height] at low
    obtain ⟨depth, rfl⟩ : ∃ d, depth = d + 1 := ⟨depth - 1, by omega⟩
    have same : trees.map (view.outlineWithin depth ∘ Tree.label) = trees := by
      refine (List.map_congr_left fun tree inside => ?_).trans trees.map_id
      have below := Tree.height_le_heightOfAll inside
      exact ih tree inside (by omega)
    rw [Tree.label, outlineWithin, references_eq operands, List.map_map, same]

theorem Lawful.outlineWithin_eq (lawful : view.Lawful) {depth : Nat} {id : ι} {tree : Tree ι}
    (run : view.treeWithin depth id = .ok tree) : view.outlineWithin depth id = tree := by
  obtain ⟨rfl, unfolds, low⟩ := lawful.unfolds_of_treeWithin run
  exact View.outlineWithin_eq unfolds low

private theorem Uniform.identify_eq_ok (uniform : view.Uniform) {id : ι} {trivial : Bool}
    (decided : view.isTrivial id = .ok trivial) : view.identify id = .ok id := by
  cases identified : view.identify id with
  | error fault =>
    rw [uniform.isTrivial_eq_error_iff.mpr identified] at decided
    cases decided
  | ok other => rw [uniform.identify_eq identified]

variable [DecidableEq ι]

def Room (view : View ι) (before : Tally ι) (labels : List ι) : Prop :=
  ∀ id, view.Nameable id → (before.get? id).getD 0 + labels.count id < Word.limit

private theorem Room.after {before : Tally ι} {first others : List ι}
    (room : view.Room before (first ++ others)) :
    view.Room (before.addAll (first.filter (view.Nameable ·))) others := by
  intro id nameable
  have enough := room id nameable
  rw [List.count_append] at enough
  rw [Tally.getD_get?_addAll, List.count_filter (by simpa using nameable)]
  omega

private theorem Room.left {before : Tally ι} {first others : List ι}
    (room : view.Room before (first ++ others)) :
    view.Room before first := by
  intro id nameable
  have enough := room id nameable
  rw [List.count_append] at enough
  omega

private theorem counted_eq {id : ι} {trivial : Bool} (decided : view.isTrivial id = .ok trivial)
    {before : Tally ι} (room : view.Room before [id]) :
    (if trivial then pure before else before.add id) =
      .ok (before.addAll ([id].filter (view.Nameable ·))) := by
  cases trivial with
  | true =>
    have hidden : ¬view.Nameable id := fun nameable => nameable.not_trivial decided
    rw [List.filter_cons_of_neg (by simpa using hidden)]
    rfl
  | false =>
    have nameable : view.Nameable id := decided
    have enough := room id nameable
    rw [List.count_singleton_self] at enough
    rw [List.filter_cons_of_pos (by simpa using nameable)]
    exact Tally.add_eq_addAll enough

private theorem tallyWithin_succ_eq {depth : Nat} {id : ι} {trivial : Bool}
    (decided : view.isTrivial id = .ok trivial) {before between : Tally ι}
    (counted : (if trivial then pure before else before.add id) = .ok between) :
    view.tallyWithin (depth + 1) before id =
      view.operands id >>= fun refs => refs.foldlM (view.tallyWithin depth) between := by
  rw [tallyWithin, decided, ok_bind]
  cases trivial with
  | true =>
    obtain rfl := Except.ok.inj counted
    rfl
  | false =>
    have added : before.add id = .ok between := counted
    simp only [added]
    rfl

private theorem Lawful.foldlM_tallyWithin_eq (lawful : view.Lawful) {depth : Nat} {refs : List ι}
    (each : ∀ ref ∈ refs, ∀ before, view.Room before (view.outlineWithin depth ref).labels →
      view.tallyWithin depth before ref =
        (fun tree => before.addAll (tree.labels.filter (view.Nameable ·))) <$>
        view.treeWithin depth ref)
    {before : Tally ι}
    (room : view.Room before ((refs.map (view.outlineWithin depth)).flatMap Tree.labels)) :
    refs.foldlM (view.tallyWithin depth) before =
      (fun trees => before.addAll ((trees.flatMap Tree.labels).filter (view.Nameable ·))) <$>
        refs.mapM (view.treeWithin depth) := by
  induction refs generalizing before with
  | nil => rfl
  | cons ref refs ih =>
    obtain ⟨here, others⟩ := List.forall_mem_cons.mp each
    rw [List.map_cons, List.flatMap_cons] at room
    rw [List.foldlM_cons, List.mapM_cons, here before room.left]
    cases unfolded : view.treeWithin depth ref with
    | error fault => rfl
    | ok tree =>
      rw [lawful.outlineWithin_eq unfolded] at room
      refine (ih others room.after).trans ?_
      cases refs.mapM (view.treeWithin depth) with
      | error fault => rfl
      | ok trees =>
        refine congrArg Except.ok ?_
        show _ = before.addAll ((tree.labels ++ trees.flatMap Tree.labels).filter _)
        rw [List.filter_append, Tally.addAll_append]

/-- Counting below a node is unfolding it and counting the labels of the tree, also if that fails.
-/
theorem Uniform.tallyWithin_eq (uniform : view.Uniform) {depth : Nat} {before : Tally ι} {id : ι}
    (room : view.Room before (view.outlineWithin depth id).labels) :
    view.tallyWithin depth before id =
      (fun tree => before.addAll (tree.labels.filter (view.Nameable ·))) <$>
      view.treeWithin depth id := by
  induction depth generalizing before id with
  | zero => rfl
  | succ depth ih =>
    rw [outlineWithin, Tree.labels_node, ← List.singleton_append] at room
    cases decided : view.isTrivial id with
    | error fault =>
      rw [tallyWithin, treeWithin, decided, uniform.isTrivial_eq_error_iff.mp decided]
      rfl
    | ok trivial =>
      rw [tallyWithin_succ_eq decided (counted_eq decided room.left), treeWithin,
        uniform.identify_eq_ok decided, ok_bind]
      cases operands : view.operands id with
      | error fault => rfl
      | ok refs =>
        rw [references_eq operands] at room
        rw [ok_bind, ok_bind, uniform.foldlM_tallyWithin_eq (fun ref _ _ => ih) room.after]
        cases refs.mapM (view.treeWithin depth) with
        | error fault => rfl
        | ok trees =>
          have split : (Tree.node id trees).labels = [id] ++ trees.flatMap Tree.labels :=
            Tree.labels_node id trees
          refine congrArg Except.ok ?_
          show _ = before.addAll ((Tree.node id trees).labels.filter _)
          rw [split, List.filter_append, Tally.addAll_append]

theorem Uniform.tally_eq (uniform : view.Uniform) (deep : 0 < view.depth) {root : ι}
    (fits : view.OccurrencesFit root) : view.tally root =
      (fun tree => Tally.empty.addAll (tree.labels.filter (view.Nameable ·))) <$>
      view.tree root := by
  have room : view.Room .empty (view.outlineWithin view.depth root).labels := by
    intro id nameable
    exact (Nat.zero_add _).symm ▸ fits id nameable
  rw [tree, ← uniform.tallyWithin_eq room, View.tally_eq]
  cases identified : view.identify root with
  | error fault =>
    obtain ⟨depth, same⟩ := Nat.exists_eq_succ_of_ne_zero deep.ne'
    rw [same, tallyWithin, uniform.isTrivial_eq_error_iff.mpr identified]
    rfl
  | ok id =>
    obtain rfl := uniform.identify_eq identified
    rfl

end View

namespace Graph

theorem uniform_arrayView (g : Graph) (share : Bool) : (g.arrayView share).Uniform where
  toConsistent := g.consistent_arrayView share
  isTrivial_eq_error_iff := bind_pure_eq_error_iff.trans bind_pure_eq_error_iff.symm

theorem uniform_scalarView (g : Graph) (share : Bool) : (g.scalarView share).Uniform where
  toConsistent := g.consistent_scalarView share
  isTrivial_eq_error_iff := bind_pure_eq_error_iff.trans bind_pure_eq_error_iff.symm

end Graph
end SharingRecovery
