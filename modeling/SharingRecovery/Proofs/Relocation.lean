import SharingRecovery.Proofs.Renaming
import SharingRecovery.Proofs.WellFormed

set_option autoImplicit false

/-!
Lowering depends on the shape of what the root reaches, and on nothing else: not on the slots of the
nodes, not on the order in which they were added, and not on other nodes of the graph. Where an
injective renaming of keys takes what is reached to another graph, both graphs have the same
recovered trees up to the renaming, and the same lowered program or the same reason why there is
none.
-/

namespace SharingRecovery

private theorem mapM_map_eq {ε α β α' β' : Type} {step : α → Except ε β} {step' : α' → Except ε β'}
    {f : α → α'} {translate : β → β'} {as : List α}
    (each : ∀ a ∈ as, step' (f a) = translate <$> step a) :
    (as.map f).mapM step' = List.map translate <$> as.mapM step := by
  induction as with
  | nil => rfl
  | cons a as ih =>
    obtain ⟨here, others⟩ := List.forall_mem_cons.mp each
    rw [List.map_cons, List.mapM_cons, List.mapM_cons, here, ih others]
    simp only [bind_map_left, map_bind, map_pure, List.map_cons]

variable {α : ArrayKey → ArrayKey} {σ : ScalarKey → ScalarKey}

def Lambda.rename (σ : ScalarKey → ScalarKey) (f : Lambda) : Lambda :=
  ⟨f.params.map σ, σ f.body⟩

def StencilLambda.rename (σ : ScalarKey → ScalarKey) (f : StencilLambda) : StencilLambda :=
  ⟨f.neighbourhood, σ f.argument, f.neighbours.map σ, σ f.body⟩

def ArrayNode.rename (α : ArrayKey → ArrayKey) (σ : ScalarKey → ScalarKey) (node : ArrayNode) :
    ArrayNode :=
  node.mapOperands α σ (Lambda.rename σ) (StencilLambda.rename σ)

def ScalarNode.rename (α : ArrayKey → ArrayKey) (σ : ScalarKey → ScalarKey) :
    ScalarNode → ScalarNode
  | .param => .param
  | .op operation => .op (operation.mapOperands α σ)

namespace ArrayNode

private theorem arrays_rename (node : ArrayNode) :
    (node.rename α σ).arrays = node.arrays.map α := by
  rw [ArrayOp.arrays, rename, ArrayOp.parts_mapOperands, List.filterMap_map, ArrayOp.arrays,
    List.map_filterMap]
  congr 1
  funext part
  cases part <;> rfl

private theorem scalarCode_rename (node : ArrayNode) :
    (node.rename α σ).scalarCode = node.scalarCode.map σ := by
  rw [scalarCode, rename, ArrayOp.parts_mapOperands, List.filterMap_map, scalarCode,
    List.map_filterMap]
  congr 1
  funext part
  cases part <;> rfl

end ArrayNode

namespace ScalarNode

private theorem operands_rename (node : ScalarNode) :
    (node.rename α σ).operands = node.operands.map σ := by
  cases node with
  | param => rfl
  | op operation => exact operation.scalars_mapOperands α σ

private theorem array?_rename (node : ScalarNode) :
    (node.rename α σ).array? = node.array?.map α := by
  cases node with
  | param => rfl
  | op operation => exact operation.array?_mapOperands α σ

private theorem isTrivial_rename (node : ScalarNode) :
    (node.rename α σ).isTrivial = node.isTrivial := by
  cases node with
  | param => rfl
  | op operation => cases operation <;> rfl

end ScalarNode

namespace Graph

/-- A renaming of keys takes what the root reaches to another graph. -/
structure Embeds (g g' : Graph) (α : ArrayKey → ArrayKey) (σ : ScalarKey → ScalarKey)
    (root : ArrayKey) : Prop where
  arrays_injective : Function.Injective α
  scalars_injective : Function.Injective σ
  array : ∀ key, g.Reaches (.array root) (.array key) →
    ∃ node, g.array? key = some node ∧ g'.array? (α key) = some (node.rename α σ)
  scalar : ∀ key, g.Reaches (.array root) (.scalar key) →
    ∃ node, g.scalar? key = some node ∧ g'.scalar? (σ key) = some (node.rename α σ)

namespace Embeds

variable {g g' : Graph} {root : ArrayKey} (embeds : g.Embeds g' α σ root) (acyclic : g.Acyclic)
include embeds

private theorem arraysReadWithin {share : Bool} {e : ScalarKey}
    (reached : g.Reaches (.array root) (.scalar e))
    (founded : (g.scalarView share).Founded e) {depth depth' : Nat}
    (low : ((g.scalarView share).unfolding e).height ≤ depth)
    (low' : ((g.scalarView share).unfolding e).height ≤ depth') :
    g'.arraysReadWithin depth' (σ e) = List.map α <$> g.arraysReadWithin depth e := by
  induction e, founded using View.Founded.induction generalizing depth depth' with
  | step e founded ih =>
    obtain ⟨depth, rfl⟩ := Nat.exists_eq_succ_of_ne_zero (founded.height_pos.trans_le low).ne'
    obtain ⟨depth', rfl⟩ := Nat.exists_eq_succ_of_ne_zero (founded.height_pos.trans_le low').ne'
    obtain ⟨node, found, found'⟩ := embeds.scalar e reached
    rw [Graph.arraysReadWithin, Graph.arraysReadWithin, scalarNode_eq_ok_iff.mpr found,
      scalarNode_eq_ok_iff.mpr found']
    have refs : (g.scalarView share).references e = node.operands :=
      View.references_eq (scalarOperands_eq found)
    have below : (node.operands.map σ).mapM (g'.arraysReadWithin depth') =
        List.map (List.map α) <$> node.operands.mapM (g.arraysReadWithin depth) := by
      refine mapM_map_eq fun operand member => ?_
      have ref := refs ▸ member
      have less := founded.height_lt ref
      exact ih operand ref (reached.tail (mem_references_scalarView.mp ref)) (by omega) (by omega)
    show (node.rename α σ).operands.mapM (g'.arraysReadWithin depth') >>= _ =
      List.map α <$> (node.operands.mapM (g.arraysReadWithin depth) >>= _)
    rw [ScalarNode.operands_rename, below, bind_map_left, map_bind, ScalarNode.array?_rename]
    refine bind_congr fun below => ?_
    refine congrArg Except.ok ?_
    rw [List.map_append, List.map_flatten, Option.toList_map]

include acyclic

theorem scalarView (share : Bool) {e : ScalarKey} (reached : g.Reaches (.array root) (.scalar e)) :
    (g.scalarView share).Embeds (g'.scalarView share) σ e := by
  have scalar : ∀ key, g.ReachesScalar e key →
      ∃ node, g.scalar? key = some node ∧ g'.scalar? (σ key) = some (node.rename α σ) :=
    fun key below => embeds.scalar key (reached.trans below.reaches)
  have present : ∀ key, g.ReachesScalar e key → ∃ node, g.scalar? key = some node := by
    intro key below
    obtain ⟨node, found, _⟩ := scalar key below
    exact ⟨node, found⟩
  obtain ⟨founded, low⟩ := acyclic.founded_scalar share ScalarKey.slot_injective
    (fun key below => slot_lt_of_scalar (present key below).choose_spec) present
  obtain ⟨_, low'⟩ := acyclic.founded_scalar share
    (ScalarKey.slot_injective.comp embeds.scalars_injective) (fun key below => by
      obtain ⟨node, _, found'⟩ := scalar key below
      exact slot_lt_of_scalar found') present
  obtain ⟨node, found, found'⟩ := scalar e .refl
  refine {
    injective := embeds.scalars_injective
    self := bind_eq_ok_iff.mpr ⟨node, scalarNode_eq_ok_iff.mpr found, rfl⟩
    self' := bind_eq_ok_iff.mpr ⟨_, scalarNode_eq_ok_iff.mpr found', rfl⟩
    founded
    low := Nat.le_succ_of_le low
    low' := Nat.le_succ_of_le low'
    operands := fun key below => ?_
    isTrivial := fun key below => ?_ }
  · obtain ⟨node, found, found'⟩ := scalar key (reaches_scalarView_iff.mp below)
    rw [scalarOperands_eq found, scalarOperands_eq found', ScalarNode.operands_rename]
    rfl
  · obtain ⟨node, found, found'⟩ := scalar key (reaches_scalarView_iff.mp below)
    show (do let node ← g'.scalarNode (σ key); pure (!share || node.isTrivial)) =
      (do let node ← g.scalarNode key; pure (!share || node.isTrivial))
    rw [scalarNode_eq_ok_iff.mpr found, scalarNode_eq_ok_iff.mpr found']
    exact congrArg (fun trivial => Except.ok (!share || trivial)) node.isTrivial_rename

private theorem arrayOperands {key : ArrayKey} (reached : g.Reaches (.array root) (.array key)) :
    g'.arrayOperands (α key) = List.map α <$> g.arrayOperands key := by
  obtain ⟨node, found, found'⟩ := embeds.array key reached
  have read : (node.scalarCode.map σ).mapM g'.arraysRead =
      List.map (List.map α) <$> node.scalarCode.mapM g.arraysRead := by
    refine mapM_map_eq fun e member => ?_
    have code := reached.tail (mem_refers_array.mpr ⟨node, found, .inr ⟨e, member, rfl⟩⟩)
    have view := embeds.scalarView acyclic true code
    rw [arraysRead_eq, arraysRead_eq]
    exact embeds.arraysReadWithin code view.founded view.low view.low'
  rw [Graph.arrayOperands, Graph.arrayOperands, arrayNode_eq_ok_iff.mpr found,
    arrayNode_eq_ok_iff.mpr found']
  show (node.rename α σ).scalarCode.mapM g'.arraysRead >>= _ =
    List.map α <$> (node.scalarCode.mapM g.arraysRead >>= _)
  rw [ArrayNode.scalarCode_rename, read, bind_map_left, map_bind, ArrayNode.arrays_rename]
  refine bind_congr fun read => ?_
  refine congrArg Except.ok ?_
  rw [List.map_append, List.map_flatten]

theorem arrayView (share : Bool) : (g.arrayView share).Embeds (g'.arrayView share) α root := by
  have present : ∀ key, g.Reaches (.array root) key → g.Has key := by
    intro key reached
    cases key with
    | array key =>
      obtain ⟨node, found, _⟩ := embeds.array key reached
      exact ⟨node, found⟩
    | scalar key =>
      obtain ⟨node, found, _⟩ := embeds.scalar key reached
      exact ⟨node, found⟩
  obtain ⟨founded, low⟩ := acyclic.founded_array share ArrayKey.slot_injective
    (fun key reached => slot_lt_of_array (present (.array key) reached).choose_spec) present
  obtain ⟨_, low'⟩ := acyclic.founded_array share
    (ArrayKey.slot_injective.comp embeds.arrays_injective) (fun key reached => by
      obtain ⟨node, _, found'⟩ := embeds.array key reached
      exact slot_lt_of_array found') present
  obtain ⟨node, found, found'⟩ := embeds.array root .refl
  refine {
    injective := embeds.arrays_injective
    self := bind_eq_ok_iff.mpr ⟨node, arrayNode_eq_ok_iff.mpr found, rfl⟩
    self' := bind_eq_ok_iff.mpr ⟨_, arrayNode_eq_ok_iff.mpr found', rfl⟩
    founded
    low := Nat.le_succ_of_le low
    low' := Nat.le_succ_of_le low'
    operands := fun key below => embeds.arrayOperands acyclic (reaches_of_arrayView below)
    isTrivial := fun key below => ?_ }
  obtain ⟨node, found, found'⟩ := embeds.array key (reaches_of_arrayView below)
  show (do let _ ← g'.arrayNode (α key); pure !share) = (do let _ ← g.arrayNode key; pure !share)
  rw [arrayNode_eq_ok_iff.mpr found, arrayNode_eq_ok_iff.mpr found']
  rfl

end Embeds
end Graph

section Lookup

variable {κ κ' β γ : Type} [DecidableEq κ] [DecidableEq κ'] {f : κ → κ'}

def Scope.map (f : κ → κ') (scope : Scope κ) : Scope κ' :=
  ⟨scope.keys.map f⟩

omit [DecidableEq κ] [DecidableEq κ'] in
private theorem Scope.foldl_push_map (keys : List κ) (scope : Scope κ) :
    (keys.map f).foldl push (scope.map f) = (keys.foldl push scope).map f := by
  induction keys generalizing scope with
  | nil => rfl
  | cons key keys ih => exact ih (scope.push key)

variable (injective : Function.Injective f)
include injective

private theorem Scope.index_map (scope : Scope κ) (key : κ) :
    (scope.map f).index (f key) = scope.index key := by
  have same : ∀ keys : List κ, (keys.map f).idxOf? (f key) = keys.idxOf? key := by
    intro keys
    induction keys with
    | nil => rfl
    | cons other keys ih =>
      rw [List.map_cons, List.idxOf?_cons, List.idxOf?_cons, ih]
      simp only [beq_iff_eq, injective.eq_iff]
  rw [index, index, index?, index?, Scope.map, same]

private theorem lookup_map (entries : List (κ × β)) (key : κ) :
    (entries.map (Prod.map f id)).lookup (f key) = entries.lookup key := by
  refine (OrderedMap.get?_map injective id entries key).trans ?_
  rw [Option.map_id_fun, id]
  rfl

private theorem resultAt_map {ε : Type} (missing : ε) (results : List (κ × Except ε β)) (key : κ) :
    resultAt missing (results.map (Prod.map f id)) (f key) = resultAt missing results key := by
  rw [resultAt, resultAt, lookup_map injective]

end Lookup

private theorem ScalarTerm.ofKey_map {σ : ScalarKey → ScalarKey} (injective : Function.Injective σ)
    (scope : Scope ScalarKey) (key : ScalarKey) :
    ofKey (scope.map σ) (σ key) = ofKey scope key := by
  rw [ofKey, ofKey, scope.index_map injective]

namespace Surroundings

private theorem lowerOperands_eq (around : Surroundings) (g : Graph) (scope : Scope ScalarKey)
    (operands : List (ScalarKey × SharedTree ScalarKey)) : around.lowerOperands g scope operands =
      operands.map (Prod.map id (around.lowerTree g scope)) := by
  induction operands with
  | nil => rw [lowerOperands, List.map_nil]
  | cons entry operands ih => rw [lowerOperands, ih, List.map_cons, Prod.map_apply, id]

structure Renames (around around' : Surroundings) (α : ArrayKey → ArrayKey)
    (σ : ScalarKey → ScalarKey) : Prop where
  array : ∀ xs, around'.array (α xs) = around.array xs
  stencil : around'.stencil = around.stencil.map (Prod.map σ (List.map (Prod.map σ id)))

variable {g g' : Graph} {root : ArrayKey} {around around' : Surroundings}
  (embeds : g.Embeds g' α σ root) (renames : around.Renames around' α σ)
include embeds renames

private theorem lowerParam_rename (scope : Scope ScalarKey) (key : ScalarKey) :
    around'.lowerParam (scope.map σ) (σ key) = around.lowerParam scope key := by
  have ofKey := ScalarTerm.ofKey_map embeds.scalars_injective scope
  rw [lowerParam, lowerParam, renames.stencil]
  cases around.stencil with
  | none => exact ofKey key
  | some within =>
    obtain ⟨argument, paths⟩ := within
    dsimp only [Option.map_some, Prod.map_apply]
    rw [lookup_map embeds.scalars_injective]
    cases paths.lookup key with
    | none => exact ofKey key
    | some path => rw [ofKey argument]

private theorem lowerNode_rename {key : ScalarKey} (reached : g.Reaches (.array root) (.scalar key))
    (scope : Scope ScalarKey) (operands : List (ScalarKey × Except LoweringError ScalarTerm)) :
    around'.lowerNode g' (scope.map σ) (σ key) (operands.map (Prod.map σ id)) =
      around.lowerNode g scope key operands := by
  obtain ⟨node, found, found'⟩ := embeds.scalar key reached
  cases node with
  | param =>
    rw [lowerNode_of_param found, lowerNode_of_param found']
    exact lowerParam_rename embeds renames scope key
  | op operation =>
    rw [lowerNode_of_op found, lowerNode_of_op found', ScalarOp.mapM_mapOperands]
    simp only [resultAt_map embeds.scalars_injective, renames.array]

theorem lowerTree_rename {share : Bool} {tree : SharedTree ScalarKey} {key : ScalarKey}
    (stands : tree.Stands (g.scalarView share) key)
    (reached : g.Reaches (.array root) (.scalar key))
    (scope : Scope ScalarKey) :
    around'.lowerTree g' (scope.map σ) (tree.map σ) = around.lowerTree g scope tree := by
  induction stands generalizing scope with
  | var key => exact ScalarTerm.ofKey_map embeds.scalars_injective scope key
  | @bind id target bound body _ below _ _ ihBound ihBody =>
    have reached' := reached.trans (Graph.reaches_scalarView_iff.mp below).reaches
    rw [SharedTree.map, lowerTree, lowerTree, ihBound reached' scope,
      ← ihBody reached (scope.push id)]
    rfl
  | @plain key refs operands listed covers _ ih =>
    have each : lowerOperands around' g' (scope.map σ)
        (operands.map (Prod.map σ (SharedTree.map σ))) =
        (lowerOperands around g scope operands).map (Prod.map σ id) := by
      rw [lowerOperands_eq, lowerOperands_eq, List.map_map, List.map_map]
      refine List.map_congr_left fun entry member => Prod.ext rfl ?_
      have ref := (covers entry.1).mp (List.mem_map_of_mem member)
      rw [← View.references_eq listed] at ref
      exact ih entry member (reached.tail (Graph.mem_references_scalarView.mp ref)) scope
    rw [SharedTree.map_plain, lowerTree, lowerTree, each]
    exact lowerNode_rename embeds renames reached scope _

theorem lowerScalar_rename (acyclic : g.Acyclic) (share : Bool) (scope : Scope ScalarKey)
    {e : ScalarKey} (reached : g.Reaches (.array root) (.scalar e)) :
    around'.lowerScalar g' share (scope.map σ) (σ e) = around.lowerScalar g share scope e := by
  rw [lowerScalar, lowerScalar, (embeds.scalarView acyclic share reached).recover]
  cases recovered : (g.scalarView share).recover e with
  | error fault => rfl
  | ok tree =>
    exact lowerTree_rename embeds renames (View.stands_of_recover recovered).1 reached scope

end Surroundings

namespace Lowering

variable {g g' : Graph} {root : ArrayKey} (embeds : g.Embeds g' α σ root) (acyclic : g.Acyclic)
  (tuples : TupleLayout) (share : Bool)
include embeds acyclic

section Functions

variable {around around' : Surroundings} (renames : around.Renames around' α σ)
include renames

private theorem lowerLambda_rename {f : Lambda}
    (reached : g.Reaches (.array root) (.scalar f.body)) :
    lowerLambda ⟨g', tuples, share⟩ around' (f.rename σ) =
    lowerLambda ⟨g, tuples, share⟩ around f := by
  have scope : (f.rename σ).params.foldl Scope.push .empty =
      (f.params.foldl Scope.push .empty).map σ :=
    Scope.foldl_push_map f.params .empty
  have arity : (f.rename σ).arity = f.arity := List.length_map σ
  have body := Surroundings.lowerScalar_rename embeds renames acyclic share
    (f.params.foldl Scope.push .empty) reached
  rw [lowerLambda, lowerLambda, scope, arity]
  exact congrArg (· >>= fun e => pure (FunTerm.ofBody f.arity e)) body

omit embeds acyclic renames in
private theorem neighbourPaths_map (neighbours : List ScalarKey) (paths : List Path) :
    neighbourPaths (neighbours.map σ) paths =
    (neighbourPaths neighbours paths).map (Prod.map σ id) := by
  rw [neighbourPaths, neighbourPaths, List.zip_map_left, List.map_reverse]

private theorem lowerStencil_rename {f : StencilLambda}
    (reached : g.Reaches (.array root) (.scalar f.body)) :
    lowerStencil ⟨g', tuples, share⟩ around' (f.rename σ) =
    lowerStencil ⟨g, tuples, share⟩ around f := by
  simp only [lowerStencil, StencilLambda.rename, List.length_map]
  split
  · rfl
  · rw [neighbourPaths_map]
    refine congrArg (· >>= fun e => pure (FunTerm.ofBody 1 e)) ?_
    apply Surroundings.lowerScalar_rename embeds _ acyclic share (Scope.empty.push f.argument)
      reached
    exact ⟨renames.array, rfl⟩

end Functions

private theorem lowerNode_rename {key : ArrayKey} (reached : g.Reaches (.array root) (.array key))
    (operands : List (ArrayKey × Except LoweringError ArrayTerm)) :
    lowerNode ⟨g', tuples, share⟩ (α key) (operands.map (Prod.map α id)) =
      lowerNode ⟨g, tuples, share⟩ key operands := by
  obtain ⟨node, found, found'⟩ := embeds.array key reached
  rw [lowerNode_of_found found', lowerNode_of_found found]
  have code : ∀ e ∈ node.scalarCode, g.Reaches (.array root) (.scalar e) := by
    intro e member
    exact reached.tail (Graph.mem_refers_array.mpr ⟨node, found, .inr ⟨e, member, rfl⟩⟩)
  have renames : (reading operands).Renames (reading (operands.map (Prod.map α id))) α σ :=
    ⟨resultAt_map embeds.arrays_injective _ operands, rfl⟩
  rw [ArrayNode.rename, ArrayOp.mapM_mapOperands]
  refine congrArg (· >>= fun op => pure (ArrayTerm.op op))
    (ArrayOp.mapM_congr fun part member => ?_)
  cases part with
  | array xs => exact renames.array xs
  | scalar e =>
    have inside := code e (List.mem_filterMap.mpr ⟨_, member, rfl⟩)
    exact Surroundings.lowerScalar_rename embeds renames acyclic share .empty inside
  | function f =>
    have inside := code f.body (List.mem_filterMap.mpr ⟨_, member, rfl⟩)
    exact lowerLambda_rename embeds acyclic tuples share renames inside
  | stencil f =>
    have inside := code f.body (List.mem_filterMap.mpr ⟨_, member, rfl⟩)
    exact lowerStencil_rename embeds acyclic tuples share renames inside

omit embeds acyclic in
private theorem lowerOperands_eq (l : Lowering) (scope : Scope ArrayKey)
    (operands : List (ArrayKey × SharedTree ArrayKey)) : l.lowerOperands scope operands =
      operands.map (Prod.map id (l.lowerTree scope)) := by
  induction operands with
  | nil => rw [lowerOperands, List.map_nil]
  | cons entry operands ih => rw [lowerOperands, ih, List.map_cons, Prod.map_apply, id]

theorem lowerTree_rename {share' : Bool} {tree : SharedTree ArrayKey} {key : ArrayKey}
    (stands : tree.Stands (g.arrayView share') key) (reached : g.Reaches (.array root) (.array key))
    (scope : Scope ArrayKey) : lowerTree ⟨g', tuples, share⟩ (scope.map α) (tree.map α) =
      lowerTree ⟨g, tuples, share⟩ scope tree := by
  induction stands generalizing scope with
  | var key =>
    show ArrayTerm.var <$> LoweringError.ofFault ((scope.map α).index (α key)) =
      ArrayTerm.var <$> LoweringError.ofFault (scope.index key)
    rw [scope.index_map embeds.arrays_injective]
  | @bind id target bound body _ below _ _ ihBound ihBody =>
    have reached' := reached.trans (Graph.reaches_of_arrayView below)
    rw [SharedTree.map, lowerTree, lowerTree, ihBound reached' scope,
      ← ihBody reached (scope.push id)]
    rfl
  | @plain key refs operands listed covers _ ih =>
    have each : lowerOperands ⟨g', tuples, share⟩ (scope.map α)
        (operands.map (Prod.map α (SharedTree.map α))) =
        (lowerOperands ⟨g, tuples, share⟩ scope operands).map (Prod.map α id) := by
      rw [lowerOperands_eq, lowerOperands_eq, List.map_map, List.map_map]
      refine List.map_congr_left fun entry member => Prod.ext rfl ?_
      have ref := (covers entry.1).mp (List.mem_map_of_mem member)
      rw [← View.references_eq listed] at ref
      have step := Graph.reaches_of_arrayView (View.Reaches.of_reference ref)
      exact ih entry member (reached.trans step) scope
    rw [SharedTree.map_plain, lowerTree, lowerTree, each]
    exact lowerNode_rename embeds acyclic tuples share reached _

end Lowering

namespace Graph

/-- Lowering depends on the shape of the reachable part of a program alone. -/
theorem lower_rename {g g' : Graph} {root : ArrayKey} (acyclic : g.Acyclic)
    (embeds : g.Embeds g' α σ root) (options : Options) :
    g'.recoverArrays options (α root) = SharedTree.map α <$> g.recoverArrays options root ∧
    (∀ e, g.Reaches (.array root) (.scalar e) → ∀ share, (g'.scalarView share).recover (σ e) =
      SharedTree.map σ <$> (g.scalarView share).recover e) ∧
    g'.lower options (α root) = g.lower options root := by
  have arrays : g'.recoverArrays options (α root) =
      SharedTree.map α <$> g.recoverArrays options root := by
    rw [recoverArrays, recoverArrays, (embeds.arrayView acyclic _).recover]
    cases (g.arrayView options.shareArrays).recover root <;> rfl
  refine ⟨arrays, fun e reached share => (embeds.scalarView acyclic share reached).recover, ?_⟩
  rw [lower_eq, lower_eq, arrays, bind_map_left]
  refine bind_congr_of_ok fun tree recovered => ?_
  have stands := (View.stands_of_recover (LoweringError.ofFault_eq_ok_iff.mp recovered)).1
  exact Lowering.lowerTree_rename embeds acyclic options.tuples options.shareScalars
    stands .refl .empty

/-- The nodes of a program in another order and among others, with the body of the stencil before
its argument. -/
theorem lower_rename_swapped :
    let s (i : Nat) : ScalarKey := ⟨i⟩
    let a (i : Nat) : ArrayKey := ⟨i⟩
    let α : ArrayKey → ArrayKey := Equiv.swap (a 0) (a 2)
    let σ : ScalarKey → ScalarKey := Equiv.swap (s 0) (s 4)
    let g : Graph := ⟨⟨#[.use ⟨[], [.bool true]⟩,
        .stencil ⟨⟨[3]⟩, s 0, [s 1, s 2, s 3], s 4⟩ .clamp (a 0),
        .zipWith ⟨[s 0, s 1], s 6⟩ (a 1) (a 1)]⟩,
      ⟨#[.param, .param, .param, .param, .op (.tuple [s 3, s 1, s 3]), .op (.size (a 0)),
        .op (.tuple [s 1, s 5, s 5])]⟩⟩
    let g' : Graph := ⟨⟨#[.zipWith ⟨[s 4, s 1], s 6⟩ (a 1) (a 1),
        .stencil ⟨⟨[3]⟩, s 4, [s 1, s 2, s 3], s 0⟩ .clamp (a 2), .use ⟨[], [.bool true]⟩,
        .unit (s 7)]⟩,
      ⟨#[.op (.tuple [s 3, s 1, s 3]), .param, .param, .param, .param, .op (.size (a 2)),
        .op (.tuple [s 1, s 5, s 5]), .op (.shape (a 3))]⟩⟩
    let failing : Options := { tuples := fun _ _ => [] }
    g.Acyclic ∧ g.Embeds g' α σ (a 2) ∧
      (∃ t, g.lower {} (a 2) = .ok t ∧ g'.lower {} (a 0) = .ok t) ∧
      g.lower failing (a 2) = .error (.pathCount 3 0) ∧
      g'.lower failing (a 0) = .error (.pathCount 3 0) := by
  intro s a α σ g g' failing
  have acyclic : g.Acyclic := by
    refine acyclic_of_rank (NodeKey.rec (fun key => [0, 2, 4].getD key.slot 0)
      (fun key => [0, 0, 0, 0, 1, 1, 2].getD key.slot 0)) ?_
    rintro (⟨_ | _ | _ | slot⟩ | ⟨_ | _ | _ | _ | _ | _ | _ | slot⟩)
    all_goals first | decide | exact fun target member => by cases member
  let inside : NodeKey → Bool := NodeKey.rec (fun key => key.slot < 3) (fun key => key.slot < 7)
  have closed : ∀ source, ∀ target ∈ g.refers source, inside target := by
    rintro (⟨_ | _ | _ | slot⟩ | ⟨_ | _ | _ | _ | _ | _ | _ | slot⟩)
    all_goals first | decide | exact fun target member => by cases member
  have within : ∀ key, g.Reaches (.array (a 2)) key → inside key := by
    intro key reaches
    induction reaches with
    | refl => rfl
    | tail _ member _ => exact closed _ _ member
  have embeds : g.Embeds g' α σ (a 2) := by
    refine ⟨Equiv.injective _, Equiv.injective _, fun key reached => ?_, fun key reached => ?_⟩
    · obtain ⟨_ | _ | _ | slot⟩ := key
      all_goals first | exact ⟨_, rfl, rfl⟩ | exact absurd (within _ reached) (by simp [inside])
    · obtain ⟨_ | _ | _ | _ | _ | _ | _ | slot⟩ := key
      all_goals first | exact ⟨_, rfl, rfl⟩ | exact absurd (within _ reached) (by simp [inside])
  have same (options : Options) : g'.lower options (a 0) = g.lower options (a 2) :=
    (lower_rename acyclic embeds options).2.2
  obtain ⟨t, run⟩ : ∃ t, g.lower {} (a 2) = .ok t := by
    subst g a s
    exact ⟨_, rfl⟩
  have failed : g.lower failing (a 2) = .error (.pathCount 3 0) := by
    subst failing g a s
    rfl
  exact ⟨acyclic, embeds, ⟨t, run, (same {}).trans run⟩, failed, (same failing).trans failed⟩

end Graph
end SharingRecovery
