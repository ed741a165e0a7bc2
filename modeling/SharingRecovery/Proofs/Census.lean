import SharingRecovery.Proofs.WellFormed

set_option autoImplicit false

/-!
Counting counts the tree. In a graph without cycles, where the numbers of occurrences are words,
counting and unfolding fail together and with the same fault, and are never cut short. If there is a
tree, the tally has its labels in order of first appearance, each with its number.
-/

namespace SharingRecovery

namespace View

variable {ι : Type} {view : View ι}

private theorem Lawful.exists_path_of_cycle (lawful : view.Lawful)
    (known : ∀ id, view.identify id ≠ .error .cycle)
    (listed : ∀ id, view.operands id ≠ .error .cycle) {depth : Nat} {id : ι}
    (failed : view.treeWithin depth id = .error .cycle) :
    ∃ target path, view.Path id target path ∧ path.length = depth + 1 := by
  induction depth generalizing id with
  | zero => exact ⟨id, [id], .here id, rfl⟩
  | succ depth ih =>
    rcases bind_eq_error_iff.mp failed with failed | ⟨other, identified, failed⟩
    · exact absurd failed (known id)
    obtain rfl := lawful.identify_eq identified
    rcases bind_eq_error_iff.mp failed with failed | ⟨refs, operands, failed⟩
    · exact absurd failed (listed other)
    rcases bind_eq_error_iff.mp failed with failed | ⟨_, _, failed⟩
    · obtain ⟨ref, inside, failed⟩ := exists_of_mapM_eq_error failed
      obtain ⟨target, path, way, length⟩ := ih failed
      have member : ref ∈ view.references other := (references_eq operands).symm ▸ inside
      exact ⟨target, other :: path, .step member way, by rw [List.length_cons, length]⟩
    · exact absurd failed pure_ne_error

private theorem Path.exists_reference {source target id : ι} {path : List ι}
    (way : view.Path source target path) (on : id ∈ path.dropLast) :
    ∃ ref, ref ∈ view.references id := by
  induction way with
  | here => cases on
  | @step source middle target path member way ih =>
    rw [List.dropLast_cons_of_ne_nil (List.ne_nil_of_mem way.source_mem)] at on
    rcases List.mem_cons.mp on with rfl | on
    · exact ⟨middle, member⟩
    · exact ih on

/-- Without cycles, unfolding is not cut short by a bound that leaves room for every node with
operands and one more. -/
theorem Acyclic.tree_ne_cycle (acyclic : view.Acyclic) (lawful : view.Lawful)
    (known : ∀ id, view.identify id ≠ .error .cycle)
    (listed : ∀ id, view.operands id ≠ .error .cycle)
    {slot : ι → Nat} (injective : Function.Injective slot) {n : Nat} (depth : view.depth = n + 1)
    (within : ∀ id refs, view.operands id = .ok refs → slot id < n) (root : ι) :
    view.tree root ≠ .error .cycle := by
  intro failed
  obtain ⟨target, path, way, length⟩ := lawful.exists_path_of_cycle known listed failed
  have short : path.dropLast.length ≤ n := by
    refine length_le_of_slots injective ((way.nodup acyclic).sublist path.dropLast_sublist)
      fun id on => ?_
    obtain ⟨ref, member⟩ := way.exists_reference on
    obtain ⟨refs, operands, _⟩ := mem_references.mp member
    exact within id refs operands
  rw [List.length_dropLast, length, depth] at short
  omega

variable [DecidableEq ι]

/-- Counting from a root agrees with unfolding it. They fail together and with the same fault, and
not for lack of depth. The tally of a tree has every identity of it that is not trivial, with the
number of nodes that it labels, in the order in which these first appear in preorder; it has nothing
else. -/
structure Census (view : View ι) (root : ι) : Prop where
  fails_iff : ∀ fault, view.tally root = .error fault ↔ view.tree root = .error fault
  not_cycle : view.tree root ≠ .error .cycle
  outline_eq : ∀ tree, view.tree root = .ok tree → view.outline root = tree
  counts : ∀ tree, view.tree root = .ok tree → ∃ tally, view.tally root = .ok tally ∧
    (∀ id ∈ tree.labels, view.Nameable id → tally.get? id = some (tree.labels.count id)) ∧
    (∀ id, ¬(id ∈ tree.labels ∧ view.Nameable id) → tally.get? id = none) ∧
    tally.counts = (firstSeen [] (tree.labels.filter (view.Nameable ·))).map fun id =>
      (id, tree.labels.count id)

theorem Uniform.census (uniform : view.Uniform) (deep : 0 < view.depth) {root : ι}
    (fits : view.OccurrencesFit root) (complete : view.tree root ≠ .error .cycle) :
    view.Census root where
  fails_iff fault := by rw [uniform.tally_eq deep fits, map_eq_error_iff]
  not_cycle := complete
  outline_eq _ := uniform.outlineWithin_eq
  counts tree unfolded := by
    refine ⟨_, (uniform.tally_eq deep fits).trans (congrArg _ unfolded), ?_, ?_, ?_⟩
    · intro id inside nameable
      have kept : id ∈ tree.labels.filter (view.Nameable ·) := by simp [inside, nameable]
      rw [Tally.get?_addAll, if_pos kept, List.count_filter (by simpa using nameable)]
      exact congrArg some (Nat.zero_add _)
    · intro id outside
      have dropped : id ∉ tree.labels.filter (view.Nameable ·) := by simpa using outside
      rw [Tally.get?_addAll, if_neg dropped]
      rfl
    · rw [Tally.counts_addAll_empty]
      refine List.map_congr_left fun id inside => ?_
      obtain ⟨_, nameable⟩ := List.mem_filter.mp ((mem_firstSeen.mp inside).resolve_left nofun)
      rw [List.count_filter (p := fun id => view.Nameable id) nameable]

end View

namespace Graph

variable {g : Graph}

private theorem arrayNode_ne_cycle (g : Graph) (key : ArrayKey) : g.arrayNode key ≠ .error .cycle :=
  Fault.require_ne_error (by decide)

private theorem scalarNode_ne_cycle (g : Graph) (key : ScalarKey) :
    g.scalarNode key ≠ .error .cycle :=
  Fault.require_ne_error (by decide)

theorem Acyclic.tree_scalarView_ne_cycle (acyclic : g.Acyclic) (share : Bool) (root : ScalarKey) :
    (g.scalarView share).tree root ≠ .error .cycle := by
  refine acyclic.scalarView.tree_ne_cycle (g.consistent_scalarView share).toLawful ?_ ?_
    ScalarKey.slot_injective (n := g.scalars.size) rfl ?_ root
  · exact fun key => bind_ne_error (g.scalarNode_ne_cycle key) fun _ _ => pure_ne_error
  · exact fun key => bind_ne_error (g.scalarNode_ne_cycle key) fun _ _ => pure_ne_error
  · intro key refs operands
    obtain ⟨node, found, _⟩ := exists_scalar_of_operands operands
    exact slot_lt_of_scalar found

private theorem Acyclic.arrayOperands_ne_cycle (acyclic : g.Acyclic) (key : ArrayKey) :
    g.arrayOperands key ≠ .error .cycle := by
  refine bind_ne_error (g.arrayNode_ne_cycle key) fun node _ => bind_ne_error ?_ fun _ _ =>
    pure_ne_error
  intro failed
  obtain ⟨e, _, failed⟩ := exists_of_mapM_eq_error failed
  rw [arraysRead_eq, arraysReadWithin_eq_map true, map_eq_error_iff] at failed
  exact acyclic.tree_scalarView_ne_cycle true e failed

theorem Acyclic.tree_arrayView_ne_cycle (acyclic : g.Acyclic) (share : Bool) (root : ArrayKey) :
    (g.arrayView share).tree root ≠ .error .cycle := by
  refine acyclic.arrayView.tree_ne_cycle (g.consistent_arrayView share).toLawful ?_
    acyclic.arrayOperands_ne_cycle ArrayKey.slot_injective (n := g.arrays.size) rfl ?_ root
  · exact fun key => bind_ne_error (g.arrayNode_ne_cycle key) fun _ _ => pure_ne_error
  · intro key refs operands
    obtain ⟨node, found, _⟩ := (arrayOperands_eq_ok_iff share).mp operands
    exact slot_lt_of_array found

/-- In a graph without cycles, counting counts the unfolded tree, in both views, with and without
sharing and from every root, also from one that does not exist. -/
theorem census_of_acyclic (acyclic : g.Acyclic) (share : Bool) :
    (∀ root, (g.arrayView share).OccurrencesFit root → (g.arrayView share).Census root) ∧
      ∀ root, (g.scalarView share).OccurrencesFit root → (g.scalarView share).Census root := by
  constructor
  · intro root fits
    exact (g.uniform_arrayView share).census (Nat.succ_pos _) fits
      (acyclic.tree_arrayView_ne_cycle share root)
  · intro root fits
    exact (g.uniform_scalarView share).census (Nat.succ_pos _) fits
      (acyclic.tree_scalarView_ne_cycle share root)

/-- Array `0` is read by a map over it, and by scalar code that reads it twice; the map is used
twice. The placeholders in the scalar code are trivial. The last node has an operand that does not
exist. -/
theorem census_of_read_array_used_twice :
    let s (i : Nat) : ScalarKey := ⟨i⟩
    let a (i : Nat) : ArrayKey := ⟨i⟩
    let g : Graph := ⟨⟨#[.use ⟨[], [.bool true]⟩, .map ⟨[s 0], s 1⟩ (a 0),
        .zipWith ⟨[s 0, s 2], s 3⟩ (a 1) (a 1), .zipWith ⟨[s 0, s 2], s 3⟩ (a 2) (a 4)]⟩,
      ⟨#[.param, .op (.index (a 0) (s 0)), .param, .op (.tuple [s 1, s 0, s 1])]⟩⟩
    g.Acyclic ∧ (g.arrayView true).OccurrencesFit (a 2) ∧ (g.arrayView true).OccurrencesFit (a 3) ∧
      (g.scalarView true).OccurrencesFit (s 3) ∧
      (∃ tally, (g.arrayView true).tally (a 2) = .ok tally ∧
        tally.counts = [(a 2, 1), (a 1, 2), (a 0, 6)]) ∧
      (g.arrayView true).tally (a 3) = .error .missingArray ∧
      ∃ tally, (g.scalarView true).tally (s 3) = .ok tally ∧
      tally.counts = [(s 3, 1), (s 1, 2)] := by
  intro s a g
  have acyclic : g.Acyclic := by
    let arrayRank (key : ArrayKey) : Nat := if key.slot = 4 then 0 else 4 * key.slot + 3
    let scalarRank (key : ScalarKey) : Nat :=
      if key.slot = 3 then 5 else if key.slot = 1 then 4 else 0
    refine acyclic_of_rank (NodeKey.rec arrayRank scalarRank) ?_
    rintro (⟨_ | _ | _ | _ | slot⟩ | ⟨_ | _ | _ | _ | slot⟩)
    all_goals first | decide | exact fun target member => by cases member
  have arrays : ∀ root, root = a 2 ∨ root = a 3 → (g.arrayView true).OccurrencesFit root := by
    rintro root (rfl | rfl) id _
    all_goals exact List.count_le_length.trans_lt (by decide)
  have scalars : (g.scalarView true).OccurrencesFit (s 3) :=
    fun id _ => List.count_le_length.trans_lt (by decide)
  obtain ⟨array, scalar⟩ := census_of_acyclic acyclic true
  have failed : (g.arrayView true).tree (a 3) = .error .missingArray := rfl
  obtain ⟨arrayTally, arrayRun, _, _, arrayCounts⟩ :=
    (array _ (arrays (a 2) (.inl rfl))).counts _ rfl
  obtain ⟨scalarTally, scalarRun, _, _, scalarCounts⟩ := (scalar _ scalars).counts _ rfl
  refine ⟨acyclic, arrays _ (.inl rfl), arrays _ (.inr rfl), scalars,
    ⟨arrayTally, arrayRun, arrayCounts.trans ?_⟩, ?_,
    ⟨scalarTally, scalarRun, scalarCounts.trans ?_⟩⟩
  · subst g a s
    rfl
  · exact ((array _ (arrays (a 3) (.inr rfl))).fails_iff _).mpr failed
  · rfl

end Graph
end SharingRecovery
