import SharingRecovery.Proofs.Acyclic
import SharingRecovery.Proofs.Unshared

set_option autoImplicit false

/-!
What the nodes of a program refer to. The arrays that scalar code reads are those read in its tree,
node by node. A program refers to its nodes along array operands, scalar code, scalar operands and
the arrays that scalar nodes read; the array view follows the same references from array to array.
-/

namespace SharingRecovery.Graph

variable {g : Graph} {share : Bool}

def reads (g : Graph) (key : ScalarKey) : List ArrayKey :=
  ((g.scalar? key).bind ScalarNode.array?).toList

theorem reads_eq {key : ScalarKey} {node : ScalarNode} (found : g.scalar? key = some node) :
    g.reads key = node.array?.toList := by
  rw [reads, found, Option.bind_some]

theorem scalarOperands_eq {key : ScalarKey} {node : ScalarNode}
    (found : g.scalar? key = some node) : (g.scalarView share).operands key = .ok node.operands :=
  bind_eq_ok_iff.mpr ⟨node, scalarNode_eq_ok_iff.mpr found, rfl⟩

theorem arraysReadWithin_eq_map (share : Bool) (depth : Nat) (key : ScalarKey) :
    g.arraysReadWithin depth key =
      (fun tree => tree.labels.flatMap g.reads) <$> (g.scalarView share).treeWithin depth key := by
  induction depth generalizing key with
  | zero => rfl
  | succ depth ih =>
    have same : g.arraysReadWithin depth = fun e =>
        (fun tree => tree.labels.flatMap g.reads) <$> (g.scalarView share).treeWithin depth e :=
      funext ih
    cases found : g.scalar? key with
    | none =>
      have missing : g.scalarNode key = .error .missingScalar := by rw [scalarNode, found]; rfl
      have unknown : (g.scalarView share).identify key = .error .missingScalar := by
        simp only [scalarView, missing]
        rfl
      rw [arraysReadWithin, View.treeWithin, missing, unknown]
      rfl
    | some node =>
      have identified : (g.scalarView share).identify key = .ok key :=
        (g.consistent_scalarView share).identify_self (scalarOperands_eq found)
      rw [arraysReadWithin, View.treeWithin, scalarNode_eq_ok_iff.mpr found, identified, same]
      simp only [ok_bind, scalarOperands_eq found, mapM_map_result]
      cases node.operands.mapM ((g.scalarView share).treeWithin depth) with
      | error fault => rfl
      | ok trees =>
        refine congrArg Except.ok ?_
        show _ = (Tree.node key trees).labels.flatMap g.reads
        rw [Tree.labels_node, List.flatMap_cons, reads_eq found, List.flatMap_assoc,
          List.flatMap_def]

private theorem founded_of_arraysReadWithin {depth : Nat} {key : ScalarKey} {read : List ArrayKey}
    (run : g.arraysReadWithin depth key = .ok read) :
    (g.scalarView share).Founded key ∧ ((g.scalarView share).unfolding key).height ≤ depth := by
  rw [arraysReadWithin_eq_map share] at run
  obtain ⟨tree, unfolded, _⟩ := map_eq_ok_iff.mp run
  obtain ⟨rfl, unfolds, low⟩ := (g.consistent_scalarView share).unfolds_of_treeWithin unfolded
  exact ⟨⟨tree, rfl, unfolds⟩, (View.unfolding_eq unfolds).symm ▸ low⟩

private theorem arraysReadWithin_eq {key : ScalarKey} (founded : (g.scalarView share).Founded key)
    {depth : Nat} (low : ((g.scalarView share).unfolding key).height ≤ depth) :
    g.arraysReadWithin depth key =
      .ok (((g.scalarView share).unfolding key).labels.flatMap g.reads) := by
  obtain ⟨tree, rfl, unfolds⟩ := founded
  rw [View.unfolding_eq unfolds] at low ⊢
  rw [arraysReadWithin_eq_map share, (g.consistent_scalarView share).treeWithin_eq unfolds low]
  rfl

noncomputable def readBelow (g : Graph) (share : Bool) (key : ScalarKey) : List ArrayKey :=
  ((g.scalarView share).unfolding key).labels.flatMap g.reads

theorem arraysRead_eq_ok_iff {key : ScalarKey} {read : List ArrayKey} :
    g.arraysRead key = .ok read ↔ (g.scalarView share).Founded key ∧
      ((g.scalarView share).unfolding key).height ≤ g.scalarDepth ∧
      read = g.readBelow share key := by
  rw [arraysRead_eq]
  constructor
  · intro run
    obtain ⟨founded, low⟩ := founded_of_arraysReadWithin run
    exact ⟨founded, low, Except.ok.inj (run.symm.trans (arraysReadWithin_eq founded low))⟩
  · rintro ⟨founded, low, rfl⟩
    exact arraysReadWithin_eq founded low

theorem arrayOperands_eq_ok_iff (share : Bool) {share' : Bool} {key : ArrayKey}
    {refs : List ArrayKey} :
    (g.arrayView share').operands key = .ok refs ↔ ∃ node, g.array? key = some node ∧
      (∀ e ∈ node.scalarCode, (g.scalarView share).Founded e ∧
        ((g.scalarView share).unfolding e).height ≤ g.scalarDepth) ∧
      refs = node.arrays ++ node.scalarCode.flatMap (g.readBelow share) := by
  constructor
  · intro operands
    obtain ⟨node, found, run⟩ := bind_eq_ok_iff.mp operands
    obtain ⟨below, each, run⟩ := bind_eq_ok_iff.mp run
    rw [pure_eq_ok_iff] at run
    have code : ∀ e ∈ node.scalarCode, (g.scalarView share).Founded e ∧
        ((g.scalarView share).unfolding e).height ≤ g.scalarDepth := by
      intro e member
      obtain ⟨read, _, run⟩ := exists_of_mem_mapM each member
      obtain ⟨founded, low, _⟩ := arraysRead_eq_ok_iff.mp run
      exact ⟨founded, low⟩
    have listed : below = node.scalarCode.map (g.readBelow share) := by
      refine Except.ok.inj (each.symm.trans (mapM_eq_ok_iff.mpr ?_))
      refine List.forall₂_map_right_iff.mpr (List.forall₂_same.mpr fun e member => ?_)
      exact arraysRead_eq_ok_iff.mpr ⟨(code e member).1, (code e member).2, rfl⟩
    exact ⟨node, arrayNode_eq_ok_iff.mp found, code, by rw [← run, listed, List.flatMap_def]⟩
  · rintro ⟨node, found, code, rfl⟩
    refine bind_eq_ok_iff.mpr ⟨node, arrayNode_eq_ok_iff.mpr found, bind_eq_ok_iff.mpr
      ⟨node.scalarCode.map (g.readBelow share), mapM_eq_ok_iff.mpr ?_, ?_⟩⟩
    · refine List.forall₂_map_right_iff.mpr (List.forall₂_same.mpr fun e member => ?_)
      exact arraysRead_eq_ok_iff.mpr ⟨(code e member).1, (code e member).2, rfl⟩
    · rw [List.flatMap_def]
      rfl

/-- The nodes that a node refers to: its operands, and its scalar code or the array that it reads.
-/
def refers (g : Graph) : NodeKey → List NodeKey
  | .array key => (g.array? key).elim [] fun node =>
    node.arrays.map .array ++ node.scalarCode.map .scalar
  | .scalar key => (g.scalar? key).elim [] fun node =>
    node.operands.map .scalar ++ node.array?.toList.map .array

def Reaches (g : Graph) : NodeKey → NodeKey → Prop :=
  Relation.ReflTransGen fun source target => target ∈ g.refers source

def Acyclic (g : Graph) : Prop :=
  ∀ source, ∀ target ∈ g.refers source, ¬g.Reaches target source

theorem Reaches.trans {a b c : NodeKey} (first : g.Reaches a b) (second : g.Reaches b c) :
    g.Reaches a c :=
  Relation.ReflTransGen.trans first second

theorem acyclic_of_rank (rank : NodeKey → Nat)
    (smaller : ∀ source, ∀ target ∈ g.refers source, rank target < rank source) : g.Acyclic := by
  intro source target member back
  have less : ∀ {a b}, g.Reaches a b → rank b ≤ rank a := by
    intro a b reaches
    induction reaches with
    | refl => exact le_rfl
    | tail _ member ih => exact (smaller _ _ member).le.trans ih
  have := smaller source target member
  have := less back
  omega

theorem mem_refers_scalar {key : ScalarKey} {target : NodeKey} : target ∈ g.refers (.scalar key) ↔
    ∃ node, g.scalar? key = some node ∧
      ((∃ e ∈ node.operands, target = .scalar e) ∨ ∃ xs ∈ node.array?, target = .array xs) := by
  cases found : g.scalar? key with
  | none => simp [refers, found]
  | some node => simp [refers, found, eq_comm]

theorem mem_refers_array {key : ArrayKey} {target : NodeKey} : target ∈ g.refers (.array key) ↔
    ∃ node, g.array? key = some node ∧
      ((∃ xs ∈ node.arrays, target = .array xs) ∨ ∃ e ∈ node.scalarCode, target = .scalar e) := by
  cases found : g.array? key with
  | none => simp [refers, found]
  | some node => simp [refers, found, eq_comm]

private theorem array_mem_refers {key : ScalarKey} {xs : ArrayKey} (read : xs ∈ g.reads key) :
    .array xs ∈ g.refers (.scalar key) := by
  obtain ⟨node, found, member⟩ := Option.bind_eq_some_iff.mp (Option.mem_toList.mp read)
  exact mem_refers_scalar.mpr ⟨node, found, .inr ⟨xs, member, rfl⟩⟩

/-- A scalar node is reached from another along scalar operands alone. -/
def ReachesScalar (g : Graph) : ScalarKey → ScalarKey → Prop :=
  Relation.ReflTransGen fun source target => .scalar target ∈ g.refers (.scalar source)

theorem mem_references_scalarView {source target : ScalarKey} :
    target ∈ (g.scalarView share).references source ↔
    .scalar target ∈ g.refers (.scalar source) := by
  rw [mem_refers_scalar, View.references]
  cases found : g.scalar? source with
  | none =>
    have failed : (g.scalarView share).operands source = .error .missingScalar := by
      simp [scalarView, scalarOperands, scalarNode, found, Fault.require, bind, Except.bind]
    simp [failed]
  | some node =>
    rw [scalarOperands_eq found]
    simp

theorem reaches_scalarView_iff {source target : ScalarKey} :
    (g.scalarView share).Reaches source target ↔ g.ReachesScalar source target := by
  have same : (fun source target => target ∈ (g.scalarView share).references source) =
      fun source target => .scalar target ∈ g.refers (.scalar source) := by
    funext source target
    exact propext mem_references_scalarView
  rw [View.Reaches, ReachesScalar, same]

theorem mem_readBelow {key : ScalarKey} (founded : (g.scalarView share).Founded key)
    {xs : ArrayKey} : xs ∈ g.readBelow share key ↔ ∃ e, g.ReachesScalar key e ∧ xs ∈ g.reads e := by
  simp only [readBelow, List.mem_flatMap, founded.mem_labels_iff, reaches_scalarView_iff]

theorem ReachesScalar.reaches {source target : ScalarKey}
    (reaches : g.ReachesScalar source target) : g.Reaches (.scalar source) (.scalar target) := by
  induction reaches with
  | refl => exact .refl
  | tail _ member ih => exact ih.tail member

private theorem exists_refers_of_mem_references {source target : ArrayKey}
    (member : target ∈ (g.arrayView share).references source) :
    ∃ middle ∈ g.refers (.array source), g.Reaches middle (.array target) := by
  rw [View.references] at member
  split at member
  · rename_i refs operands
    obtain ⟨node, found, code, rfl⟩ := (arrayOperands_eq_ok_iff share).mp operands
    rcases List.mem_append.mp member with member | member
    · exact ⟨_, mem_refers_array.mpr ⟨node, found, .inl ⟨target, member, rfl⟩⟩, .refl⟩
    · obtain ⟨e, inside, read⟩ := List.mem_flatMap.mp member
      obtain ⟨reader, below, reads⟩ := (mem_readBelow (code e inside).1).mp read
      refine ⟨_, mem_refers_array.mpr ⟨node, found, .inr ⟨e, inside, rfl⟩⟩, ?_⟩
      exact below.reaches.tail (array_mem_refers reads)
  · cases member

theorem reaches_of_arrayView {source target : ArrayKey}
    (reaches : (g.arrayView share).Reaches source target) :
    g.Reaches (.array source) (.array target) := by
  induction reaches with
  | refl => exact .refl
  | tail _ member ih =>
    obtain ⟨middle, refers, below⟩ := exists_refers_of_mem_references member
    exact (ih.tail refers).trans below

theorem Acyclic.scalarView (acyclic : g.Acyclic) : (g.scalarView share).Acyclic := by
  intro source target member back
  exact acyclic _ _ (mem_references_scalarView.mp member) (reaches_scalarView_iff.mp back).reaches

theorem Acyclic.arrayView (acyclic : g.Acyclic) : (g.arrayView share).Acyclic := by
  intro source target member back
  obtain ⟨middle, refers, below⟩ := exists_refers_of_mem_references member
  exact acyclic _ _ refers (below.trans (reaches_of_arrayView back))

/-- How a node of a program is reached in the views: an array in the array view, a scalar node along
scalar operands from the scalar code of an array. -/
def ReachedIn (g : Graph) (share : Bool) (root : ArrayKey) : NodeKey → Prop
  | .array key => (g.arrayView share).Reaches root key
  | .scalar key => ∃ user node, (g.arrayView share).Reaches root user ∧ g.array? user = some node ∧
    ∃ e ∈ node.scalarCode, g.ReachesScalar e key

/-- If all operands of arrays can be listed, the views reach whatever a program refers to. -/
theorem reachedIn_of_reaches {root : ArrayKey}
    (listed : ∀ key, (g.arrayView share).Reaches root key →
      ∃ refs, (g.arrayView share).operands key = .ok refs)
    {key : NodeKey} (reaches : g.Reaches (.array root) key) : g.ReachedIn share root key := by
  -- What the array view lists at an array that is reached.
  have step : ∀ key node, (g.arrayView share).Reaches root key → g.array? key = some node →
      ∀ xs, xs ∈ node.arrays ∨ (∃ e ∈ node.scalarCode, ∃ reader, g.ReachesScalar e reader ∧
        xs ∈ g.reads reader) → (g.arrayView share).Reaches root xs := by
    intro key node reached found xs listedThere
    obtain ⟨refs, operands⟩ := listed key reached
    obtain ⟨node', found', code, rfl⟩ := (arrayOperands_eq_ok_iff share).mp operands
    obtain rfl := Option.some.inj (found.symm.trans found')
    refine reached.tail (View.references_eq operands ▸ List.mem_append.mpr ?_)
    refine listedThere.imp_right fun ⟨e, inside, read⟩ => ?_
    exact List.mem_flatMap.mpr ⟨e, inside, (mem_readBelow (code e inside).1).mpr read⟩
  induction reaches with
  | refl => exact .refl root
  | @tail source target _ member ih =>
    cases source with
    | array key =>
      obtain ⟨node, found, ⟨xs, inside, rfl⟩ | ⟨e, inside, rfl⟩⟩ := mem_refers_array.mp member
      · exact step key node ih found xs (.inl inside)
      · exact ⟨key, node, ih, found, e, inside, .refl⟩
    | scalar key =>
      obtain ⟨user, node, reached, found, e, inside, below⟩ := ih
      obtain ⟨node', found', ⟨operand, _, rfl⟩ | ⟨xs, read, rfl⟩⟩ := mem_refers_scalar.mp member
      · exact ⟨user, node, reached, found, e, inside, below.tail member⟩
      · refine step user node reached found xs (.inr ⟨e, inside, key, below, ?_⟩)
        rw [reads_eq found']
        exact Option.mem_toList.mpr read

end SharingRecovery.Graph
