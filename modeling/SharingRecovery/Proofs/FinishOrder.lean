import SharingRecovery.Proofs.FirstSeen
import SharingRecovery.Proofs.Unfolding

set_option autoImplicit false

/-!
The order in which a depth-first walk finishes nodes. It is the postorder of the unfolded tree with
every node where it is first met, so a node finishes after everything else that it reaches.
-/

namespace SharingRecovery

namespace Tree

variable {ι : Type}

mutual

def postorder : Tree ι → List ι
  | .node id trees => postorderOfAll trees ++ [id]

def postorderOfAll : List (Tree ι) → List ι
  | [] => []
  | tree :: trees => tree.postorder ++ postorderOfAll trees

end

theorem postorder_node (id : ι) (trees : List (Tree ι)) :
    (node id trees).postorder = trees.flatMap postorder ++ [id] := by
  rw [postorder]
  congr 1
  induction trees with
  | nil => rfl
  | cons tree trees ih => rw [postorderOfAll, ih, List.flatMap_cons]

end Tree

namespace View

variable {ι : Type} [DecidableEq ι]

/-- Walks through what is below a node and was not done before, operands in order and every node
once, on paths of at most so many nodes, and adds each node to those done when it is finished. -/
def finishWithin (view : View ι) : Nat → List ι → ι → List ι
  | 0, done, _ => done
  | depth + 1, done, id =>
    if id ∈ done then done else (view.references id).foldl (view.finishWithin depth) done ++ [id]

def finishOrder (view : View ι) (id : ι) : List ι :=
  view.finishWithin view.depth [] id

/-- The nodes below a node in postorder, each where it is first met. -/
noncomputable def postorder (view : View ι) (id : ι) : List ι :=
  firstSeen [] (view.unfolding id).postorder

def Closed (view : View ι) (done : List ι) : Prop :=
  ∀ source ∈ done, ∀ target, view.Reaches source target → target ∈ done

variable {view : View ι}

omit [DecidableEq ι] in
private theorem Founded.mem_postorder_unfolding {id : ι} (founded : view.Founded id) {target : ι} :
    target ∈ (view.unfolding id).postorder ↔ view.Reaches id target := by
  induction id, founded using Founded.induction with
  | step id founded ih =>
    rw [founded.unfolding_node, Tree.postorder_node, reaches_iff, List.flatMap_map, List.mem_append,
      List.mem_flatMap, List.mem_singleton, or_comm, eq_comm]
    refine or_congr_right (exists_congr fun middle => and_congr_right fun member => ?_)
    exact ih middle member

theorem Founded.mem_postorder {id : ι} (founded : view.Founded id) {target : ι} :
    target ∈ view.postorder id ↔ view.Reaches id target := by
  rw [postorder, mem_firstSeen, founded.mem_postorder_unfolding]
  simp

theorem nodup_postorder (id : ι) : (view.postorder id).Nodup :=
  nodup_firstSeen List.nodup_nil _

private theorem firstSeen_postorder (known : List ι) (id : ι) :
    firstSeen known (view.postorder id) = firstSeen known (view.unfolding id).postorder :=
  firstSeen_assoc known [] _

theorem Founded.postorder_eq {id : ι} (founded : view.Founded id) :
    view.postorder id =
      firstSeen [] ((view.references id).flatMap view.postorder) ++ [id] := by
  have each : ∀ (refs known : List ι), firstSeen known (refs.flatMap view.postorder) =
      firstSeen known (refs.flatMap fun ref => (view.unfolding ref).postorder) := by
    intro refs
    induction refs with
    | nil => exact fun _ => rfl
    | cons ref refs ih =>
      intro known
      rw [List.flatMap_cons, List.flatMap_cons, firstSeen_append, firstSeen_append,
        firstSeen_postorder, ih]
  rw [each, postorder, founded.unfolding_node, Tree.postorder_node, List.flatMap_map,
    firstSeen_append, firstSeen_singleton, if_neg]
  intro back
  rw [mem_firstSeen, List.mem_flatMap] at back
  obtain ⟨ref, member, back⟩ := back.resolve_left List.not_mem_nil
  exact founded.not_reaches_back member
    ((founded.of_reference member).mem_postorder_unfolding.mp back)

private theorem Closed.firstSeen {done : List ι} (closed : view.Closed done) {id : ι}
    (founded : view.Founded id) : view.Closed (firstSeen done (view.postorder id)) := by
  intro source inside target reaches
  rw [mem_firstSeen, founded.mem_postorder] at inside ⊢
  rcases inside with inside | inside
  · exact .inl (closed source inside target reaches)
  · exact .inr (inside.trans reaches)

private theorem finishWithin_eq {depth : Nat} {id : ι} (founded : view.Founded id)
    (low : (view.unfolding id).height ≤ depth) {done : List ι} (closed : view.Closed done) :
    view.finishWithin depth done id = firstSeen done (view.postorder id) := by
  induction depth generalizing id done with
  | zero =>
    have := founded.height_pos
    omega
  | succ depth ih =>
    rw [finishWithin]
    split
    · rename_i seen
      refine (firstSeen_of_subset fun target inside => ?_).symm
      exact closed id seen target (founded.mem_postorder.mp inside)
    · rename_i fresh
      have loop : ∀ (refs done : List ι), refs ⊆ view.references id → view.Closed done →
          refs.foldl (view.finishWithin depth) done =
            firstSeen done (refs.flatMap view.postorder) := by
        intro refs
        induction refs with
        | nil => exact fun _ _ _ => rfl
        | cons ref refs more =>
          intro done subset closed
          have member := subset List.mem_cons_self
          have founded' := founded.of_reference member
          have low' := Nat.le_of_lt_succ ((founded.height_lt member).trans_le low)
          rw [List.foldl_cons, ih founded' low' closed, List.flatMap_cons, firstSeen_append]
          exact more _ (fun other inside => subset (List.mem_cons_of_mem ref inside))
            (closed.firstSeen founded')
      rw [loop _ done (List.Subset.refl _) closed, founded.postorder_eq, firstSeen_append,
        firstSeen_assoc, firstSeen_singleton, if_neg]
      · rfl
      · intro back
        rw [mem_firstSeen] at back
        obtain ⟨ref, member, back⟩ := List.mem_flatMap.mp (back.resolve_left fresh)
        exact founded.not_reaches_back member
          ((founded.of_reference member).mem_postorder.mp back)

/-- A depth-first walk finishes nodes in postorder. -/
theorem Founded.finishOrder_eq {id : ι} (founded : view.Founded id)
    (low : (view.unfolding id).height ≤ view.depth) : view.finishOrder id = view.postorder id := by
  rw [finishOrder, finishWithin_eq founded low (by simp [Closed]), postorder, firstSeen_assoc]
  rfl

theorem Founded.pairwise_postorder {id : ι} (founded : view.Founded id) :
    (view.postorder id).Pairwise fun first second => ¬view.Reaches first second := by
  induction id, founded using Founded.induction with
  | step id founded ih =>
    have loop : ∀ refs : List ι, refs ⊆ view.references id →
        view.Closed (SharingRecovery.firstSeen [] (refs.flatMap view.postorder)) ∧
          (SharingRecovery.firstSeen [] (refs.flatMap view.postorder)).Pairwise
            fun first second => ¬view.Reaches first second := by
      intro refs
      induction refs using List.reverseRecOn with
      | nil => exact fun _ => ⟨by simp [Closed, SharingRecovery.firstSeen], .nil⟩
      | append_singleton refs ref more =>
        intro subset
        have member := subset (List.mem_append_right refs List.mem_cons_self)
        obtain ⟨closed, pairwise⟩ := more fun other inside => subset (List.mem_append_left _ inside)
        have founded' := founded.of_reference member
        rw [List.flatMap_append, List.flatMap_singleton, firstSeen_append]
        refine ⟨closed.firstSeen founded', ?_⟩
        rw [firstSeen_eq_append (nodup_postorder ref), List.pairwise_append]
        refine ⟨pairwise, (ih ref member).filter _, fun first inside second fresh reaches => ?_⟩
        rw [List.mem_filter, decide_eq_true_iff] at fresh
        exact fresh.2 (closed first inside second reaches)
    obtain ⟨_, pairwise⟩ := loop _ (List.Subset.refl _)
    rw [founded.postorder_eq, List.pairwise_append]
    refine ⟨pairwise, List.pairwise_singleton _ _, fun first inside second last => ?_⟩
    rw [List.mem_singleton.mp last]
    obtain ⟨ref, member, inside⟩ :=
      List.mem_flatMap.mp ((mem_firstSeen.mp inside).resolve_left List.not_mem_nil)
    have reached := (founded.of_reference member).mem_postorder.mp inside
    exact fun back => founded.not_reaches_back member (reached.trans back)

end View
end SharingRecovery
