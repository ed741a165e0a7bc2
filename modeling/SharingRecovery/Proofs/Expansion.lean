import SharingRecovery.Proofs.Standing
import SharingRecovery.View.Program
import SharingRecovery.View.Table

set_option autoImplicit false

/-!
Sharing recovery loses nothing: with every bound tree put in the place of its variables, the
recovered tree is the tree of the view, node for node and reference for reference.
-/

namespace SharingRecovery

namespace View

variable {ι : Type}

/-- Every node that has an identity is its own. -/
structure Lawful (view : View ι) : Prop where
  identify_eq : ∀ {id other : ι}, view.identify id = .ok other → other = id

/-- What has no identity is no node, so that its operands cannot be listed either. -/
structure Consistent (view : View ι) : Prop extends view.Lawful where
  identify_ok : ∀ {id : ι} {refs : List ι}, view.operands id = .ok refs →
    ∃ other, view.identify id = .ok other

theorem Consistent.of_fetch {view : View ι} {α : Type} {fetch : ι → Except Fault α}
    (identify : ∀ id, view.identify id = fetch id >>= fun _ => pure id)
    (fetched : ∀ {id refs}, view.operands id = .ok refs → ∃ node, fetch id = .ok node) :
    view.Consistent where
  identify_eq {id other} identified := by
    rw [identify] at identified
    obtain ⟨_, _, same⟩ := bind_eq_ok_iff.mp identified
    exact (pure_eq_ok_iff.mp same).symm
  identify_ok {id refs} operands := by
    obtain ⟨node, found⟩ := fetched operands
    exact ⟨id, (identify id).trans (bind_eq_ok_iff.mpr ⟨node, found, rfl⟩)⟩

theorem Consistent.identify_self {view : View ι} (consistent : view.Consistent) {id : ι}
    {refs : List ι} (operands : view.operands id = .ok refs) : view.identify id = .ok id := by
  obtain ⟨other, identified⟩ := consistent.identify_ok operands
  rw [identified, consistent.identify_eq identified]

private theorem Consistent.identified {view : View ι} (consistent : view.Consistent) {tree : Tree ι}
    (unfolds : tree.Unfolds view) : ∀ id ∈ tree.labels, view.identify id = .ok id := by
  induction unfolds with
  | @node id trees operands _ ih =>
    rw [Tree.labels_node, List.forall_mem_cons]
    refine ⟨consistent.identify_self operands, fun label inside => ?_⟩
    obtain ⟨tree, member, inside⟩ := List.mem_flatMap.mp inside
    exact ih tree member label inside

/-- A view describes every finite tree that unfolds from it, as far as paths may go and all nodes
have their identities. -/
theorem treeWithin_eq {view : View ι} {tree : Tree ι} (unfolds : tree.Unfolds view)
    (identified : ∀ id ∈ tree.labels, view.identify id = .ok id) {depth : Nat}
    (low : tree.height ≤ depth) : view.treeWithin depth tree.label = .ok tree := by
  induction unfolds generalizing depth with
  | @node id trees operands _ ih =>
    rw [Tree.height] at low
    rw [Tree.labels_node, List.forall_mem_cons] at identified
    obtain ⟨here, below⟩ := identified
    obtain ⟨depth, rfl⟩ : ∃ d, depth = d + 1 := ⟨depth - 1, by omega⟩
    have each : ∀ tree ∈ trees, view.treeWithin depth tree.label = .ok tree := by
      intro tree inside
      have lower := Tree.height_le_heightOfAll inside
      refine ih tree inside (fun label among => ?_) (by omega)
      exact below label (List.mem_flatMap.mpr ⟨tree, inside, among⟩)
    have all : (trees.map Tree.label).mapM (view.treeWithin depth) = .ok trees := by
      rw [mapM_eq_ok_iff, List.forall₂_map_left_iff, List.forall₂_same]
      exact each
    rw [Tree.label, treeWithin, here]
    refine bind_eq_ok_iff.mpr ⟨id, rfl, bind_eq_ok_iff.mpr ⟨_, operands, ?_⟩⟩
    exact bind_eq_ok_iff.mpr ⟨trees, all, rfl⟩

theorem Consistent.treeWithin_eq {view : View ι} (consistent : view.Consistent) {tree : Tree ι}
    (unfolds : tree.Unfolds view) {depth : Nat} (low : tree.height ≤ depth) :
    view.treeWithin depth tree.label = .ok tree :=
  View.treeWithin_eq unfolds (consistent.identified unfolds) low

private theorem Lawful.treeWithin_succ_eq_ok {view : View ι} (lawful : view.Lawful) {depth : Nat}
    {id : ι} {tree : Tree ι} (run : view.treeWithin (depth + 1) id = .ok tree) :
    ∃ refs trees, view.identify id = .ok id ∧ view.operands id = .ok refs ∧
      refs.mapM (view.treeWithin depth) = .ok trees ∧ tree = .node id trees := by
  obtain ⟨other, identified, run⟩ := bind_eq_ok_iff.mp run
  obtain ⟨refs, operands, run⟩ := bind_eq_ok_iff.mp run
  obtain ⟨trees, each, run⟩ := bind_eq_ok_iff.mp run
  obtain rfl := lawful.identify_eq identified
  exact ⟨refs, trees, identified, operands, each, (pure_eq_ok_iff.mp run).symm⟩

private theorem Lawful.identified_of_treeWithin {view : View ι} (lawful : view.Lawful)
    {depth : Nat} {id : ι} {tree : Tree ι} (run : view.treeWithin depth id = .ok tree) :
    ∀ label ∈ tree.labels, view.identify label = .ok label := by
  induction depth generalizing id tree with
  | zero => cases run
  | succ depth ih =>
    obtain ⟨refs, trees, identified, _, each, rfl⟩ := lawful.treeWithin_succ_eq_ok run
    rw [Tree.labels_node, List.forall_mem_cons]
    refine ⟨identified, fun label inside => ?_⟩
    obtain ⟨tree, member, inside⟩ := List.mem_flatMap.mp inside
    obtain ⟨ref, _, run⟩ := exists_of_mem_result each member
    exact ih run label inside

theorem Lawful.unfolds_of_treeWithin {view : View ι} (lawful : view.Lawful) {depth : Nat} {id : ι}
    {tree : Tree ι} (run : view.treeWithin depth id = .ok tree) :
    tree.label = id ∧ tree.Unfolds view ∧ tree.height ≤ depth := by
  induction depth generalizing id tree with
  | zero => cases run
  | succ depth ih =>
    obtain ⟨refs, trees, _, operands, each, rfl⟩ := lawful.treeWithin_succ_eq_ok run
    have labels : trees.map Tree.label = refs := by
      rw [← List.forall₂_eq_eq_eq, List.forall₂_map_left_iff]
      exact ((mapM_eq_ok_iff.mp each).imp fun _ _ run => (ih run).1).flip
    have unfolds : ∀ tree ∈ trees, tree.Unfolds view ∧ tree.height ≤ depth := by
      intro tree inside
      obtain ⟨ref, _, run⟩ := exists_of_mem_result each inside
      exact (ih run).2
    refine ⟨rfl, .node (labels ▸ operands) fun tree inside => (unfolds tree inside).1, ?_⟩
    exact Nat.succ_le_succ (Tree.heightOfAll_le fun tree inside => (unfolds tree inside).2)

end View

namespace SharedTree

variable {ι : Type} [DecidableEq ι] {view : View ι}

private theorem lookup_operandTreesIn (env : List (ι × Tree ι)) (operands : List (ι × SharedTree ι))
    (id : ι) : (operandTreesIn view env operands).lookup id =
      (operands.lookup id).map (toTreeIn view env) :=
  OrderedMap.lookup_eq_map (by rw [operandTreesIn]) (fun _ _ _ => by rw [operandTreesIn])
    operands id

private theorem toTreeIn_plain (env : List (ι × Tree ι)) (operands : List (ι × SharedTree ι))
    (id : ι) : (plain id operands).toTreeIn view env = view.operands id >>= fun refs =>
      refs.mapM (resultAt .missingOperand (operandTreesIn view env operands)) >>= fun trees =>
        pure (.node id trees) := by
  rw [toTreeIn]
  refine bind_congr fun refs => congrArg (· >>= _) (congrArg refs.mapM (funext fun ref => ?_))
  rw [resultAt]
  cases (operandTreesIn view env operands).lookup ref <;> rfl

omit [DecidableEq ι] in
private theorem exists_trees_of_references {refs : List ι} {tree : ι → Except Fault (Tree ι)}
    (each : ∀ ref ∈ refs, ∃ t, tree ref = .ok t ∧ t.label = ref ∧ t.Unfolds view) :
    ∃ trees, refs.mapM tree = .ok trees ∧ trees.map Tree.label = refs ∧
      ∀ t ∈ trees, t.Unfolds view := by
  induction refs with
  | nil => exact ⟨[], rfl, rfl, by simp⟩
  | cons ref refs ih =>
    obtain ⟨t, found, label, unfolds⟩ := each ref List.mem_cons_self
    obtain ⟨trees, rest, labels, below⟩ := ih fun other inside =>
      each other (List.mem_cons_of_mem ref inside)
    refine ⟨t :: trees, mapM_eq_ok_iff.mpr (.cons found (mapM_eq_ok_iff.mp rest)), ?_, ?_⟩
    · rw [List.map_cons, label, labels]
    · exact List.forall_mem_cons.mpr ⟨unfolds, below⟩

theorem known_of_bind {α : Type} {holds : ι → α → Prop} {env : List (ι × α)} {id : ι} {value : α}
    {bound body : SharedTree ι} (bounded : holds id value)
    (known : ∀ x ∈ (bind id bound body).free, ∃ a, env.lookup x = some a ∧ holds x a) :
    ∀ x ∈ body.free, ∃ a, ((id, value) :: env).lookup x = some a ∧ holds x a := by
  intro x inside
  by_cases same : x = id
  · subst same
    exact ⟨value, by simp, bounded⟩
  · have miss : (x == id) = false := by simp [same]
    rw [List.lookup_cons, miss]
    exact known x (mem_free_bind.mpr (.inr ⟨inside, same⟩))

/-- A tree that stands for a node expands to the tree below that node, where every variable that is
free in it has been given the tree below its identity. -/
theorem Stands.toTreeIn_eq {tree : SharedTree ι} {id : ι} (stands : tree.Stands view id)
    {env : List (ι × Tree ι)}
    (known : ∀ x ∈ tree.free, ∃ t, env.lookup x = some t ∧ t.label = x ∧ t.Unfolds view) :
    ∃ t, tree.toTreeIn view env = .ok t ∧ t.label = id ∧ t.Unfolds view := by
  induction stands generalizing env with
  | var id =>
    obtain ⟨t, found, label, unfolds⟩ := known id (mem_free_var.mpr rfl)
    refine ⟨t, ?_, label, unfolds⟩
    rw [toTreeIn, found]
    rfl
  | @bind id target bound body _ _ _ _ ihBound ihBody =>
    obtain ⟨value, expanded, label, unfolds⟩ := ihBound fun x inside =>
      known x (mem_free_bind.mpr (.inl inside))
    obtain ⟨t, done, result⟩ := ihBody (known_of_bind ⟨label, unfolds⟩ known)
    refine ⟨t, ?_, result⟩
    rw [toTreeIn]
    exact bind_eq_ok_iff.mpr ⟨value, expanded, done⟩
  | @plain id refs operands listed keys _ ih =>
    have each : ∀ ref ∈ refs, ∃ t,
        resultAt .missingOperand (operandTreesIn view env operands) ref = .ok t ∧ t.label = ref ∧
          t.Unfolds view := by
      intro ref inside
      obtain ⟨operand, found⟩ := OrderedMap.mem_keys_iff.mp ((keys ref).mpr inside)
      have member := OrderedMap.mem_of_get? found
      rw [OrderedMap.get?] at found
      obtain ⟨t, expanded, result⟩ := ih _ member fun x free =>
        known x (mem_free_plain.mpr ⟨_, member, free⟩)
      refine ⟨t, resultAt_eq_ok_iff.mpr ?_, result⟩
      rw [lookup_operandTreesIn, found, Option.map_some, expanded]
    obtain ⟨trees, all, rfl, below⟩ := exists_trees_of_references each
    refine ⟨.node id trees, ?_, rfl, .node listed below⟩
    rw [toTreeIn_plain]
    exact bind_eq_ok_iff.mpr ⟨_, listed, bind_eq_ok_iff.mpr ⟨trees, all, rfl⟩⟩

end SharedTree

namespace View

variable {ι : Type} [DecidableEq ι]

theorem Lawful.founded_of_recover {view : View ι} (lawful : view.Lawful) {root : ι}
    {tree : SharedTree ι} (run : view.recover root = .ok tree) :
    view.Founded root ∧ (view.unfolding root).height ≤ view.depth := by
  obtain ⟨tally, _, _, counted, _⟩ := recover_eq_ok run
  obtain ⟨origin, identified, counts⟩ := counts_of_tally counted
  obtain rfl := lawful.identify_eq identified
  exact ⟨counts.founded, counts.height_le⟩

/-- A recovered tree expands to a tree without variables. Unfolding the view gives this tree, if
every node that is reached has an identity, and nothing otherwise: it asks every node for its
identity, while recovery asks the root alone. -/
theorem toTree_recover_eq_tree {view : View ι} (lawful : view.Lawful) {root : ι}
    {tree : SharedTree ι} (run : view.recover root = .ok tree) :
    ∃ unshared, tree.toTree view = .ok unshared ∧ tree.free = [] ∧
      (∀ other, view.tree root = .ok other ↔
        other = unshared ∧ ∀ id, view.Reaches root id → view.identify id = .ok id) ∧
      ((∀ id refs, view.operands id = .ok refs → ∃ other, view.identify id = .ok other) →
        view.tree root = .ok unshared) := by
  obtain ⟨stands, closed⟩ := stands_of_recover run
  have known : ∀ x ∈ tree.free,
      ∃ t : Tree ι, List.lookup x [] = some t ∧ t.label = x ∧ t.Unfolds view := by
    simp [closed]
  obtain ⟨unshared, expanded, label, unfolds⟩ := stands.toTreeIn_eq known
  obtain ⟨founded, low⟩ := lawful.founded_of_recover run
  have labels : ∀ id, id ∈ unshared.labels ↔ view.Reaches root id := by
    intro id
    rw [← founded.mem_labels_iff, ← label, unfolding_eq unfolds]
  rw [← label, unfolding_eq unfolds] at low
  refine ⟨unshared, expanded, closed, fun other => ⟨fun unfolded => ?_, ?_⟩, fun complete => ?_⟩
  · obtain ⟨label', unfolds', _⟩ := lawful.unfolds_of_treeWithin unfolded
    obtain rfl := unfolds'.unique unfolds (label'.trans label.symm)
    refine ⟨rfl, fun id reached => ?_⟩
    exact lawful.identified_of_treeWithin unfolded id ((labels id).mpr reached)
  · rintro ⟨rfl, identified⟩
    rw [View.tree, ← label]
    exact treeWithin_eq unfolds (fun id inside => identified id ((labels id).mp inside)) low
  · have consistent : view.Consistent := ⟨lawful, complete _ _⟩
    rw [View.tree, ← label]
    exact consistent.treeWithin_eq unfolds low

/-- Node `1` has no identity, but is not trivial and has no operands: recovery from node `0` does
not notice, and unfolding fails. -/
theorem tree_fails_at_nameless_operand :
    let view : View Nat := {
      identify := fun id => if id = 0 then .ok id else .error .missingNode
      operands := fun id => .ok (if id = 0 then [1] else [])
      isTrivial := fun _ => .ok false
      depth := 2 }
    view.Lawful ∧ view.Acyclic ∧ ∃ tree unshared, view.recover 0 = .ok tree ∧
      tree.toTree view = .ok unshared ∧ view.tree 0 = .error .missingNode := by
  intro view
  refine ⟨⟨fun {id other} identified => ?_⟩, fun source target member back => ?_,
    .plain 0 [(1, .plain 1 [])], .node 0 [.node 1 []], rfl, rfl, rfl⟩
  · by_cases first : id = 0
    · subst first
      exact (Except.ok.inj identified).symm
    · simp [view, first] at identified
  · by_cases first : source = 0
    · subst first
      obtain rfl := List.mem_singleton.mp member
      rcases reaches_iff.mp back with same | ⟨ref, listed, _⟩
      · cases same
      · cases listed
    · simp [view, references, first] at member

end View

namespace Graph

theorem consistent_arrayView (g : Graph) (share : Bool) : (g.arrayView share).Consistent := by
  refine .of_fetch (fun _ => rfl) fun operands => ?_
  obtain ⟨node, found, _⟩ := bind_eq_ok_iff.mp operands
  exact ⟨node, found⟩

theorem consistent_scalarView (g : Graph) (share : Bool) : (g.scalarView share).Consistent := by
  refine .of_fetch (fun _ => rfl) fun operands => ?_
  obtain ⟨node, found, _⟩ := bind_eq_ok_iff.mp operands
  exact ⟨node, found⟩

end Graph

namespace Table

theorem consistent_view (table : Table) : table.view.Consistent :=
  .of_fetch (fun _ => rfl) fun {_ refs} operands => ⟨refs, operands⟩

/-- With a trivial node between shared ones: node `3` is passed through on both paths to it. -/
theorem toTree_recover_trivial_between :
    let table : Table := ⟨#[[], [0], [1, 1], [2, 0], [3, 2, 3]], [3]⟩
    let tree : SharedTree Nat :=
      .bind 0 (.plain 0 [])
        (.bind 2 (.bind 1 (.plain 1 [(0, .var 0)]) (.plain 2 [(1, .var 1)]))
          (.plain 4 [(3, .plain 3 [(2, .var 2), (0, .var 0)]), (2, .var 2)]))
    table.view.Lawful ∧ table.view.recover 4 = .ok tree ∧ tree.free = [] ∧
      ∃ unshared, tree.toTree table.view = .ok unshared ∧ table.view.tree 4 = .ok unshared := by
  intro table tree
  have consistent := consistent_view table
  obtain ⟨unshared, expanded, closed, _, unfolds⟩ :=
    View.toTree_recover_eq_tree consistent.toLawful (show table.view.recover 4 = .ok tree from rfl)
  exact ⟨consistent.toLawful, rfl, closed, unshared, expanded,
    unfolds fun _ _ => consistent.identify_ok⟩

end Table
end SharingRecovery
