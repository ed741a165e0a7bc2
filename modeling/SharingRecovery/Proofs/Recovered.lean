import SharingRecovery.Proofs.Placement
import SharingRecovery.Proofs.Standing
import SharingRecovery.View.Program
import SharingRecovery.View.Table

set_option autoImplicit false

/-!
What sharing recovery as a whole makes of a graph whose trivial nodes are leaves. Every node stands
in the tree once, exactly the nodes referred to at least twice are bound, and each of them is bound
at its immediate dominator.
-/

namespace SharingRecovery

namespace View

variable {ι : Type} [DecidableEq ι] {view : View ι} {root : ι} {tree : SharedTree ι}

theorem tallies_of_hoist (leaves : view.TrivialLeaves) {tally : Tally ι} {hoisted : Hoisted ι}
    {memo : Memo ι} (counted : view.tally root = .ok tally)
    (hoist : view.hoist tally root = .ok (hoisted, memo)) (closed : hoisted.pending = []) :
    view.Tallies tally root ∧ ∀ id ref, view.Reaches root id → ref ∈ view.references id →
      (view.unfolding id).height ≤ view.depth := by
  obtain ⟨origin, _, counts⟩ := counts_of_tally counted
  obtain ⟨multiplicity, refs, counted, operands⟩ : ∃ multiplicity refs,
      view.multiplicity tally root = .ok multiplicity ∧ view.operands root = .ok refs := by
    rw [View.hoist] at hoist
    cases depth : view.depth with
    | zero => simp [depth, hoistWithin] at hoist
    | succ depth' =>
      rw [depth] at hoist
      rcases hoistWithin_succ_eq_ok hoist with ⟨known, _⟩ | ⟨m, refs, _, _, counted, operands, _⟩
      · simp at known
      · exact ⟨m, refs, counted, operands⟩
  obtain ⟨trivial, decided, _⟩ := bind_eq_ok_iff.mp counted
  cases trivial with
  | false =>
    have reached := counts.reaches_of_multiplicity decided counted
    have hoists := counts.tallies.hoists reached hoist
    refine ⟨.of_closed leaves counts.tallies reached fun target below isOpen => ?_,
      fun id ref below _ => (counts.founded.height_le_of_reaches (reached.trans below)).trans
        counts.height_le⟩
    have inside := (counts.founded.of_reaches reached).mem_postorder.mpr below
    have pending := hoists.keys_pending
    rw [closed] at pending
    simpa [isOpen] using List.filter_eq_nil_iff.mp pending.symm target inside
  | true =>
    have leaf := leaves.references_eq_nil decided
    have only : ∀ id, view.Reaches root id → id = root := by
      intro id reaches
      rcases reaches_iff.mp reaches with same | ⟨ref, member, _⟩
      · exact same.symm
      · simp [leaf] at member
    refine ⟨⟨⟨.node root [], rfl, .node ?_ (by simp)⟩, fun id below =>
      ⟨true, only id below ▸ decided⟩, fun id nameable below => ?_⟩, fun id ref below member => ?_⟩
    · rw [operands, ← references_eq operands, leaf]
      rfl
    · exact absurd (only id below ▸ decided) nameable.not_trivial
    · simp [only id below, leaf] at member

/-- A recovered tree follows the plan: nodes with a name are bound at their immediate dominators. -/
theorem arranged_of_recover (leaves : view.TrivialLeaves) (run : view.recover root = .ok tree) :
    ∃ tally, view.tally root = .ok tally ∧ view.Tallies tally root ∧
      tree.Arranged view (view.boundAt root) (view.Named root) root (view.boundAt root root) ∧
      ∀ id ref, view.Reaches root id → ref ∈ view.references id →
        (view.unfolding id).height ≤ view.depth := by
  obtain ⟨tally, hoisted, memo, counted, hoist, closed, thin⟩ := recover_eq_ok run
  obtain ⟨tallies, low⟩ := tallies_of_hoist leaves counted hoist closed
  have hoists := tallies.hoists (.refl root) hoist
  exact ⟨tally, counted, tallies, arranged_thin leaves tallies hoists.arranged (.refl root)
    (List.suffix_refl _) (by simp) thin, low⟩

end View

namespace Graph

theorem trivialLeaves_arrayView (g : Graph) : (g.arrayView true).TrivialLeaves := by
  intro key refs trivial
  obtain ⟨_, _, no⟩ := bind_eq_ok_iff.mp trivial
  cases no

theorem trivialLeaves_scalarView (g : Graph) : (g.scalarView true).TrivialLeaves := by
  intro key refs trivial operands
  obtain ⟨node, found, trivial⟩ := bind_eq_ok_iff.mp trivial
  obtain ⟨node', found', operands⟩ := bind_eq_ok_iff.mp operands
  obtain rfl : node = node' := Except.ok.inj (found.symm.trans found')
  rw [pure_eq_ok_iff] at trivial operands
  rw [← operands]
  fun_cases ScalarNode.isTrivial node with
  | case1 => rfl
  | case2 => rfl
  | case3 => simp_all [ScalarNode.isTrivial]

end Graph

theorem Table.trivialLeaves_view {table : Table}
    (empty : ∀ id ∈ table.trivial, table.rows[id]?.getD [] = []) : table.view.TrivialLeaves := by
  intro id refs trivial operands
  obtain ⟨_, _, trivial⟩ := bind_eq_ok_iff.mp trivial
  rw [pure_eq_ok_iff, List.contains_iff_mem] at trivial
  have row := Fault.require_eq_ok_iff.mp operands
  have leaf := empty id trivial
  rwa [row, Option.getD_some] at leaf

/-- A tree shares exactly what is referred to at least twice: each node that is not trivial stands
in it once, and those referred to at least twice are bound once, with all their variables in the
body. -/
structure SharedTree.SharesExactly {ι : Type} [DecidableEq ι] (view : View ι) (root : ι)
    (tree : SharedTree ι) : Prop where
  plain_once : ∀ id, view.Nameable id → view.Reaches root id → tree.plains.count id = 1
  bound_once : ∀ id, view.Nameable id → (view.referencesTo root id).Nontrivial →
    tree.binders.count id = 1
  bound_only : ∀ id ∈ tree.binders, view.Nameable id ∧ (view.referencesTo root id).Nontrivial
  var_only : ∀ id ∈ tree.vars, view.Nameable id ∧ (view.referencesTo root id).Nontrivial
  vars_in_body : ∀ id bound body, .bind id bound body ∈ tree.subtrees →
    id ∈ body.vars ∧ id ∉ bound.vars ∧ tree.vars.count id = body.vars.count id

namespace View

variable {ι : Type} [DecidableEq ι] {view : View ι} {root : ι} {tree : SharedTree ι}

/-- Sharing is recovered completely and never invented. In particular nothing that occurs once, and
nothing trivial, is bound or a variable. -/
theorem sharesExactly_of_recover (leaves : view.TrivialLeaves)
    (run : view.recover root = .ok tree) :
    tree.SharesExactly view root ∧ tree.free = [] ∧
      ∀ tally, view.tally root = .ok tally → ∀ id,
        tally.get? id = some 1 ∨ view.isTrivial id = .ok true →
        id ∉ tree.binders ∧ id ∉ tree.vars := by
  obtain ⟨tally, counted, tallies, arranged, _⟩ := arranged_of_recover leaves run
  obtain ⟨_, closed⟩ := stands_of_recover run
  obtain ⟨_, _, _, _, _, _, thin⟩ := recover_eq_ok run
  have founded := tallies.founded
  have binders : ∀ id ∈ tree.binders, view.Named root id := fun id =>
    arranged.named_of_mem_binders (fun _ _ inside => (mem_boundAt.mp inside).2)
      fun _ inside => (mem_boundAt.mp inside).2
  have vars : ∀ id ∈ tree.vars, view.Named root id := fun id => arranged.named_of_mem_vars
  have plains : ∀ id, view.Nameable id → view.Reaches root id → tree.plains.count id = 1 := by
    intro id nameable reached
    classical
    rw [count_plains leaves tallies arranged (.refl root) (List.Subset.refl _) reached nameable,
      countP_placedAt leaves tallies (.refl root) reached nameable, if_pos (dominates_root id)]
  have bound : ∀ id, view.Named root id → tree.binders.count id = 1 := by
    intro id named
    have once := plains id named.1 (founded.shared_of_named named).2
    obtain ⟨source, reached, found⟩ := named.2.nonempty
    have different : root ≠ id := by
      rintro rfl
      exact (founded.of_reaches reached).not_reaches_back (List.mem_of_getElem? found) reached
    rwa [arranged.count_plains named, if_neg different] at once
  refine ⟨⟨plains, fun id nameable several => bound id ⟨nameable, several⟩, binders, vars, ?_⟩,
    closed, fun tally' counted' id rare => ?_⟩
  · intro id bound' body binding
    have named := binders id (SharedTree.mem_binders_of_binding binding)
    obtain ⟨all, outside⟩ := SharedTree.count_vars_of_binding binding (bound id named)
        (by simp [closed])
    have used := SharedTree.mem_free_of_binding thin binding
    exact ⟨SharedTree.mem_vars_of_mem_free used, outside, all⟩
  · obtain rfl : tally = tally' := Except.ok.inj (counted.symm.trans counted')
    have unnamed : ¬view.Named root id := by
      intro named
      obtain ⟨⟨_, more⟩, reached⟩ := founded.shared_of_named named
      rcases rare with once | trivial
      · rw [tallies.get?_eq id named.1 reached, Option.some.injEq] at once
        omega
      · exact named.1.not_trivial trivial
    exact ⟨mt (binders id) unnamed, mt (vars id) unnamed⟩

/-- Nodes `1`, `2` and `4` are referred to twice. Node `3` lies on two paths, but is referred to
once. -/
theorem sharesExactly_two_scopes :
    let table : Table := ⟨#[[], [0], [1, 0], [1, 2], [2, 3, 0], [4, 4]], [0]⟩
    let tree : SharedTree Nat :=
      .bind 4
        (.bind 1 (.plain 1 [(0, .plain 0 [])])
          (.bind 2 (.plain 2 [(1, .var 1), (0, .plain 0 [])])
            (.plain 4 [(2, .var 2), (3, .plain 3 [(1, .var 1), (2, .var 2)]), (0, .plain 0 [])])))
        (.plain 5 [(4, .var 4)])
    table.view.TrivialLeaves ∧ table.view.recover 5 = .ok tree ∧
      tree.SharesExactly table.view 5 ∧ tree.free = [] ∧
      ∀ tally, table.view.tally 5 = .ok tally → ∀ id,
        tally.get? id = some 1 ∨ table.view.isTrivial id = .ok true →
        id ∉ tree.binders ∧ id ∉ tree.vars :=
  ⟨Table.trivialLeaves_view (by simp), rfl,
    sharesExactly_of_recover (Table.trivialLeaves_view (by simp)) rfl⟩

/-- Every binding stands around its immediate dominator, and bindings around the same node are
nested in the order in which a depth-first walk from it finishes them, so that none contains an
outer one. -/
theorem immediatelyDominates_of_binding_of_recover (leaves : view.TrivialLeaves)
    (run : view.recover root = .ok tree) :
    (∀ id bound body, .bind id bound body ∈ tree.subtrees →
      ∃ node, body.head? = some node ∧ view.ImmediatelyDominates root node id) ∧
    ∀ part ∈ tree.subtrees, ∀ node, part.head? = some node →
      part.chain.Sublist (view.finishOrder node) ∧
        part.chain.Pairwise fun outer inner => ¬view.Reaches outer inner := by
  obtain ⟨tally, _, tallies, arranged, low⟩ := arranged_of_recover leaves run
  have founded := tallies.founded
  have parts : ∀ part ∈ tree.subtrees, (∃ target, part = .var target) ∨ ∃ node ids,
      part.Arranged view (view.boundAt root) (view.Named root) node ids ∧
        ids <:+ view.boundAt root node ∧ view.Reaches root node := by
    intro part member
    refine arranged.subtree (List.suffix_refl _) ?_ ?_ (.refl root) member
    · exact fun source reached ref inside => reached.trans (.of_reference inside)
    · exact fun source reached target inside =>
        ((mem_coveredBy_iff leaves tallies reached).mp (mem_boundAt.mp inside).1).2.1
  constructor
  · intro id bound body binding
    rcases parts _ binding with ⟨_, impossible⟩ | ⟨node, ids, arranged', suffix, reached⟩
    · cases impossible
    · cases arranged' with
      | @bind _ _ rest _ _ _ inner =>
        have covered := (mem_boundAt.mp (suffix.subset List.mem_cons_self)).1
        exact ⟨node, inner.head?_eq, ((mem_coveredBy_iff leaves tallies reached).mp covered).2.2⟩
  · intro part member node head
    rcases parts part member with ⟨_, rfl⟩ | ⟨node', ids, arranged', suffix, reached⟩
    · cases head
    · obtain rfl : node' = node := Option.some.inj (arranged'.head?_eq.symm.trans head)
      have founded' := founded.of_reaches reached
      have sublist : ids.Sublist (view.postorder node') :=
        suffix.sublist.trans (List.filter_sublist.trans List.filter_sublist)
      rw [arranged'.chain_eq]
      refine ⟨?_, founded'.pairwise_postorder.sublist sublist⟩
      cases ids with
      | nil => exact List.nil_sublist _
      | cons id ids =>
        have covered := (mem_boundAt.mp (suffix.subset List.mem_cons_self)).1
        have immediate := ((mem_coveredBy_iff leaves tallies reached).mp covered).2
        have below := (immediate.2.dominates.reaches immediate.1).2
        obtain ⟨ref, inside, _⟩ := (reaches_iff.mp below).resolve_left immediate.2.ne
        rwa [founded'.finishOrder_eq (low node' ref reached inside)]

/-- Four bindings around one node, each contained in the next. -/
theorem immediatelyDominates_chain_of_four :
    let table : Table := ⟨#[[], [0], [1, 0, 1], [2, 0], [2, 1, 3], [4, 3, 4, 0]], [0]⟩
    let tree : SharedTree Nat :=
      .bind 1 (.plain 1 [(0, .plain 0 [])])
        (.bind 2 (.plain 2 [(1, .var 1), (0, .plain 0 [])])
          (.bind 3 (.plain 3 [(2, .var 2), (0, .plain 0 [])])
            (.bind 4 (.plain 4 [(2, .var 2), (1, .var 1), (3, .var 3)])
              (.plain 5 [(4, .var 4), (3, .var 3), (0, .plain 0 [])]))))
    table.view.TrivialLeaves ∧ table.view.recover 5 = .ok tree ∧
      (∀ id bound body, .bind id bound body ∈ tree.subtrees →
        ∃ node, body.head? = some node ∧ table.view.ImmediatelyDominates 5 node id) ∧
      ∀ part ∈ tree.subtrees, ∀ node, part.head? = some node →
        part.chain.Sublist (table.view.finishOrder node) ∧
          part.chain.Pairwise fun outer inner => ¬table.view.Reaches outer inner :=
  ⟨Table.trivialLeaves_view (by simp), rfl,
    immediatelyDominates_of_binding_of_recover (Table.trivialLeaves_view (by simp)) rfl⟩

end View
end SharingRecovery
