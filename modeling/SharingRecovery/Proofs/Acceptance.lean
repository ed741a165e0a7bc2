import SharingRecovery.Lowering.Basic
import SharingRecovery.Proofs.Lowered
import SharingRecovery.Proofs.References
import SharingRecovery.Proofs.Scoping

set_option autoImplicit false

/-!
Which programs can be lowered. Lowering a tree asks something of every node that the tree stands
for, whether the node is bound or written out: that the sharing of its scalar code can be recovered,
that the placeholders in it are bound, that the tuples of a stencil fit.
-/

namespace SharingRecovery

/-- Whether a tree has a property depends on the nodes below it alone, if variables have it in
scope, a binding has it as its parts have, and a plain node adds a condition of its own. -/
theorem SharedTree.Stands.holds_iff {ι : Type} [DecidableEq ι] {view : View ι}
    (holds : List ι → SharedTree ι → Prop) (accepts : ι → Prop) (invariant : List ι → Prop)
    (var : ∀ keys id, id ∈ keys → holds keys (.var id))
    (bind : ∀ keys id bound body, holds keys (.bind id bound body) ↔
      holds keys bound ∧ holds (id :: keys) body)
    (plain : ∀ keys id operands refs, invariant keys → view.operands id = .ok refs →
      (holds keys (.plain id operands) ↔ accepts id ∧ ∀ ref ∈ refs, ∃ operand,
        OrderedMap.get? operands ref = some operand ∧ holds keys operand))
    (kept : ∀ keys id, invariant keys → view.Nameable id → invariant (id :: keys))
    {tree : SharedTree ι} {id : ι} (stands : tree.Stands view id) {keys : List ι}
    (start : invariant keys)
    (known : ∀ other ∈ tree.free,
      other ∈ keys ∧ ∀ below, view.Reaches other below → accepts below) :
    holds keys tree ↔ ∀ below, view.Reaches id below → accepts below := by
  induction stands generalizing keys with
  | var id =>
    obtain ⟨inside, good⟩ := known id (mem_free_var.mpr rfl)
    exact iff_of_true (var keys id inside) good
  | @bind id target bound body nameable reached _ _ ihBound ihBody =>
    have outer := ihBound start fun other free => known other (mem_free_bind.mpr (.inl free))
    have inner : (∀ below, view.Reaches id below → accepts below) →
        (holds (id :: keys) body ↔ ∀ below, view.Reaches target below → accepts below) := by
      intro good
      refine ihBody (kept keys id start nameable) fun other free => ?_
      by_cases same : other = id
      · subst same
        exact ⟨List.mem_cons_self, good⟩
      · obtain ⟨inside, good⟩ := known other (mem_free_bind.mpr (.inr ⟨free, same⟩))
        exact ⟨List.mem_cons_of_mem id inside, good⟩
    rw [bind, outer]
    constructor
    · rintro ⟨good, rest⟩
      exact (inner good).mp rest
    · intro all
      have good : ∀ below, view.Reaches id below → accepts below :=
        fun below reaches => all below (reached.trans reaches)
      exact ⟨good, (inner good).mpr all⟩
  | @plain id refs operands listed covers _ ih =>
    have each : ∀ ref ∈ refs, (∃ operand, OrderedMap.get? operands ref = some operand ∧
        holds keys operand) ↔ ∀ below, view.Reaches ref below → accepts below := by
      intro ref member
      obtain ⟨operand, here⟩ := OrderedMap.mem_keys_iff.mp ((covers ref).mpr member)
      have inside := OrderedMap.mem_of_get? here
      have below := ih _ inside start fun other free =>
        known other (mem_free_plain.mpr ⟨_, inside, free⟩)
      rw [← below]
      constructor
      · rintro ⟨other, there, held⟩
        exact Option.some.inj (here.symm.trans there) ▸ held
      · exact fun held => ⟨operand, here, held⟩
    rw [plain keys id operands refs start listed]
    constructor
    · rintro ⟨here, others⟩ below reaches
      rcases View.reaches_iff.mp reaches with rfl | ⟨ref, member, reaches⟩
      · exact here
      · rw [View.references_eq listed] at member
        exact (each ref member).mp (others ref member) below reaches
    · intro all
      refine ⟨all id (.refl id), fun ref member => (each ref member).mpr fun below reaches => ?_⟩
      have step := View.Reaches.of_reference (View.references_eq listed ▸ member)
      exact all below (step.trans reaches)

private theorem Scope.exists_index_iff {κ : Type} [DecidableEq κ] {scope : Scope κ} {key : κ} :
    (∃ i, scope.index key = .ok i) ↔ key ∈ scope.keys := by
  simp only [index, Fault.require_eq_ok_iff, index?]
  rw [← Option.isSome_iff_exists, List.isSome_idxOf?]

private theorem ScalarTerm.exists_ofKey_iff {scope : Scope ScalarKey} {key : ScalarKey} :
    (∃ e, ofKey scope key = .ok e) ↔ key ∈ scope.keys := by
  rw [← Scope.exists_index_iff]
  refine exists_bind_pure_eq_ok_iff.trans ?_
  simp only [LoweringError.ofFault_eq_ok_iff]

namespace Surroundings

variable {around : Surroundings} {g : Graph}

/-- The key whose variable a placeholder becomes: the argument of a stencil for its neighbours, its
own key otherwise. -/
def carrier (around : Surroundings) (key : ScalarKey) : ScalarKey :=
  match around.stencil with
  | none => key
  | some (argument, paths) => if (paths.lookup key).isSome then argument else key

private theorem exists_lowerParam_iff {scope : Scope ScalarKey} {key : ScalarKey} :
    (∃ e, around.lowerParam scope key = .ok e) ↔ around.carrier key ∈ scope.keys := by
  rw [lowerParam, carrier]
  cases around.stencil with
  | none => exact ScalarTerm.exists_ofKey_iff
  | some within =>
    obtain ⟨argument, paths⟩ := within
    dsimp only
    cases paths.lookup key with
    | none => exact ScalarTerm.exists_ofKey_iff
    | some path => exact exists_bind_pure_eq_ok_iff.trans ScalarTerm.exists_ofKey_iff

private theorem carrier_eq (around : Surroundings) (key : ScalarKey) : around.carrier key = key ∨
    ∃ paths, around.stencil = some (around.carrier key, paths) := by
  rw [carrier]
  cases around.stencil with
  | none => exact .inl rfl
  | some within =>
    obtain ⟨argument, paths⟩ := within
    dsimp only
    split
    · exact .inr ⟨paths, rfl⟩
    · exact .inl rfl

private theorem exists_lowerNode_iff {scope : Scope ScalarKey} {key : ScalarKey} {node : ScalarNode}
    (found : g.scalar? key = some node)
    {operands : List (ScalarKey × Except LoweringError ScalarTerm)} :
    (∃ e, around.lowerNode g scope key operands = .ok e) ↔
      ((node = .param → around.carrier key ∈ scope.keys) ∧
        ∀ xs ∈ g.reads key, ∃ t, around.array xs = .ok t) ∧
      ∀ ref ∈ node.operands, ∃ e, operands.lookup ref = some (.ok e) := by
  rw [Graph.reads_eq found]
  cases node with
  | param =>
    rw [lowerNode_of_param found]
    refine exists_lowerParam_iff.trans ?_
    simp [ScalarNode.array?, ScalarNode.operands]
  | op operation =>
    rw [lowerNode_of_op found]
    refine exists_bind_pure_eq_ok_iff.trans (ScalarOp.exists_mapM_eq_ok_iff.trans ?_)
    refine (and_congr Iff.rfl (forall₂_congr fun ref _ => exists_congr fun e =>
      resultAt_eq_ok_iff)).trans ?_
    simp [ScalarNode.array?, ScalarNode.operands]

def Accepts (around : Surroundings) (g : Graph) (scope : Scope ScalarKey) (key : ScalarKey) :
    Prop :=
  (g.scalar? key = some .param → around.carrier key ∈ scope.keys) ∧
    ∀ xs ∈ g.reads key, ∃ t, around.array xs = .ok t

section Code

variable {share : Bool} {scope : Scope ScalarKey} {root : ScalarKey}
  (own : ∀ argument paths, around.stencil = some (argument, paths) → argument ∈ scope.keys)
include own

theorem exists_lowerTree_iff {tree : SharedTree ScalarKey}
    (stands : tree.Stands (g.scalarView share) root) (closed : tree.free = []) :
    (∃ e, around.lowerTree g scope tree = .ok e) ↔
      ∀ key, (g.scalarView share).Reaches root key → around.Accepts g scope key := by
  -- Between the keys that scalar code starts with and those of its bindings no placeholder is lost
  -- or found.
  let invariant (keys : List ScalarKey) : Prop := ∀ key, g.scalar? key = some .param →
    (around.carrier key ∈ keys ↔ around.carrier key ∈ scope.keys)
  refine SharedTree.Stands.holds_iff (fun keys tree => ∃ e, around.lowerTree g ⟨keys⟩ tree = .ok e)
    (around.Accepts g scope) invariant ?_ ?_ ?_ ?_ stands (fun _ _ => Iff.rfl) (by simp [closed])
  · intro keys id inside
    exact ScalarTerm.exists_ofKey_iff.mpr inside
  · intro keys id bound body
    exact exists_bind_bind_pure_eq_ok_iff
  · intro keys id operands refs unchanged listed
    obtain ⟨node, found, rfl⟩ := Graph.exists_scalar_of_operands listed
    refine (exists_lowerNode_iff found).trans (and_congr ?_ (forall₂_congr fun ref _ => ?_))
    · refine and_congr_left fun _ => ?_
      rw [found, Option.some.injEq]
      exact forall_congr' fun isParam => unchanged id (isParam ▸ found)
    · simp only [lookup_lowerOperands, Option.map_eq_some_iff]
      exact exists_comm.trans (exists_congr fun operand => exists_and_left)
  · intro keys id unchanged nameable key isParam
    have different : around.carrier key = id → around.carrier key ∈ scope.keys := by
      intro same
      rcases around.carrier_eq key with self | ⟨paths, stencil⟩
      · rw [← self, same] at isParam
        exact absurd isParam (not_param_of_nameable nameable)
      · exact own _ _ stencil
    rw [List.mem_cons, unchanged key isParam]
    exact or_iff_right_of_imp different

theorem exists_lowerScalar_iff : (∃ e, around.lowerScalar g share scope root = .ok e) ↔
    (∃ tree, (g.scalarView share).recover root = .ok tree) ∧
    (∀ key, g.ReachesScalar root key → g.scalar? key = some .param →
      around.carrier key ∈ scope.keys) ∧
    ∀ key, g.ReachesScalar root key → ∀ xs ∈ g.reads key, ∃ t, around.array xs = .ok t := by
  rw [lowerScalar, exists_bind_eq_ok_iff]
  simp only [LoweringError.ofFault_eq_ok_iff]
  constructor
  · rintro ⟨tree, recovered, lowered⟩
    obtain ⟨stands, closed⟩ := View.stands_of_recover recovered
    have all := (exists_lowerTree_iff own stands closed).mp lowered
    simp only [Graph.reaches_scalarView_iff] at all
    exact ⟨⟨tree, recovered⟩, fun key reached => (all key reached).1,
      fun key reached => (all key reached).2⟩
  · rintro ⟨⟨tree, recovered⟩, params, arrays⟩
    obtain ⟨stands, closed⟩ := View.stands_of_recover recovered
    refine ⟨tree, recovered, (exists_lowerTree_iff own stands closed).mpr fun key reached => ?_⟩
    rw [Graph.reaches_scalarView_iff] at reached
    exact ⟨params key reached, arrays key reached⟩

end Code
end Surroundings

namespace ArrayNode

variable {node : ArrayNode}

private theorem forall_mem_arrays_iff {holds : ArrayKey → Prop} : (∀ xs ∈ node.arrays, holds xs) ↔
    node.Forall holds (fun _ => True) (fun _ => True) fun _ => True := by
  rw [ArrayOp.arrays, List.forall_mem_filterMap]
  refine forall₂_congr fun part _ => ?_
  cases part <;> simp [ArrayOp.Part.Holds]

private theorem forall_mem_scalarCode_iff {holds : ScalarKey → Prop} :
    (∀ e ∈ node.scalarCode, holds e) ↔
      node.Forall (fun _ => True) holds (fun f => holds f.body) fun f => holds f.body := by
  rw [scalarCode, List.forall_mem_filterMap]
  refine forall₂_congr fun part _ => ?_
  cases part <;> simp [ArrayOp.Part.Holds]

end ArrayNode

namespace Graph

def UsesParam (g : Graph) (code key : ScalarKey) : Prop :=
  g.ReachesScalar code key ∧ g.scalar? key = some .param

/-- All placeholders that the scalar code of an array node uses are bound there: none in a scalar
operand, the parameters in a function, the argument and the neighbours in a stencil. -/
def BindsParams (g : Graph) (node : ArrayNode) : Prop :=
  node.Forall (fun _ => True) (fun e => ∀ key, ¬g.UsesParam e key)
    (fun f => ∀ key, g.UsesParam f.body key → key ∈ f.params)
    fun f => ∀ key, g.UsesParam f.body key → key = f.argument ∨ key ∈ f.neighbours

end Graph

def TupleLayout.Fits (tuples : TupleLayout) (f : StencilLambda) : Prop :=
  (tuples f.neighbourhood.rank f.neighbourhood).length = f.neighbours.length

namespace Lowering

variable {l : Lowering}

structure Accepts (l : Lowering) (node : ArrayNode) : Prop where
  recovers : ∀ e ∈ node.scalarCode, ∃ tree, (l.graph.scalarView l.shareScalars).recover e = .ok tree
  params : l.graph.BindsParams node
  tuples : node.Forall (fun _ => True) (fun _ => True) (fun _ => True) l.tuples.Fits

private theorem isSome_lookup_neighbourPaths {neighbours : List ScalarKey} {paths : List Path}
    (fits : paths.length = neighbours.length) {key : ScalarKey} :
    ((neighbourPaths neighbours paths).lookup key).isSome ↔ key ∈ neighbours := by
  have keys : OrderedMap.keys (neighbourPaths neighbours paths) = neighbours.reverse := by
    rw [OrderedMap.keys, neighbourPaths, List.map_reverse, List.map_fst_zip fits.ge]
  rw [Option.isSome_iff_exists, ← List.mem_reverse, ← keys]
  exact OrderedMap.mem_keys_iff.symm

section Code

variable {array : ArrayKey → Except LoweringError ArrayTerm}

def ReadsOk (l : Lowering) (array : ArrayKey → Except LoweringError ArrayTerm) (code : ScalarKey) :
    Prop :=
  ∀ key, l.graph.ReachesScalar code key → ∀ xs ∈ l.graph.reads key, ∃ t, array xs = .ok t

private theorem exists_lowerScalar_iff {code : ScalarKey} :
    (∃ e, Surroundings.lowerScalar ⟨array, none⟩ l.graph l.shareScalars .empty code = .ok e) ↔
      (∃ tree, (l.graph.scalarView l.shareScalars).recover code = .ok tree) ∧
      (∀ key, ¬l.graph.UsesParam code key) ∧ l.ReadsOk array code := by
  refine (Surroundings.exists_lowerScalar_iff (by simp)).trans (and_congr_right fun _ => ?_)
  refine and_congr_left fun _ => forall_congr' fun key => ?_
  simp [Scope.empty, Graph.UsesParam]

private theorem exists_lowerLambda_iff {f : Lambda} :
    (∃ t, l.lowerLambda ⟨array, none⟩ f = .ok t) ↔
      (∃ tree, (l.graph.scalarView l.shareScalars).recover f.body = .ok tree) ∧
      (∀ key, l.graph.UsesParam f.body key → key ∈ f.params) ∧ l.ReadsOk array f.body := by
  refine exists_bind_pure_eq_ok_iff.trans ((Surroundings.exists_lowerScalar_iff (by simp)).trans ?_)
  refine and_congr_right fun _ => and_congr_left fun _ => forall_congr' fun key => ?_
  rw [Scope.keys_foldl_push]
  simp [Scope.empty, Surroundings.carrier, Graph.UsesParam]

private theorem exists_lowerStencil_iff {f : StencilLambda} :
    (∃ t, l.lowerStencil ⟨array, none⟩ f = .ok t) ↔ l.tuples.Fits f ∧
      (∃ tree, (l.graph.scalarView l.shareScalars).recover f.body = .ok tree) ∧
      (∀ key, l.graph.UsesParam f.body key → key = f.argument ∨ key ∈ f.neighbours) ∧
      l.ReadsOk array f.body := by
  rw [lowerStencil]
  dsimp only
  split
  · rename_i misfit
    exact iff_of_false (by simp) fun all => misfit all.1
  · rename_i fits
    rw [not_not] at fits
    refine Iff.trans ?_ (and_iff_right fits).symm
    refine exists_bind_pure_eq_ok_iff.trans ((Surroundings.exists_lowerScalar_iff ?_).trans ?_)
    · rintro argument paths ⟨⟩
      exact List.mem_singleton_self _
    refine and_congr_right fun _ => and_congr_left fun _ => forall_congr' fun key => ?_
    simp only [Surroundings.carrier, Scope.empty, Scope.push, List.mem_singleton,
      isSome_lookup_neighbourPaths fits, Graph.UsesParam, and_imp]
    refine imp_congr_right fun _ => imp_congr_right fun _ => ?_
    split
    · rename_i neighbour
      simp [neighbour]
    · rename_i other
      simp [other]

private theorem accepts_iff {node : ArrayNode} : l.Accepts node ↔
    (∀ e ∈ node.scalarCode, ∃ tree, (l.graph.scalarView l.shareScalars).recover e = .ok tree) ∧
    l.graph.BindsParams node ∧
    node.Forall (fun _ => True) (fun _ => True) (fun _ => True) l.tuples.Fits :=
  ⟨fun ⟨recovers, params, tuples⟩ => ⟨recovers, params, tuples⟩,
    fun ⟨recovers, params, tuples⟩ => ⟨recovers, params, tuples⟩⟩

private theorem exists_lowerOperation_iff {node : ArrayNode} :
    (∃ op, node.mapM array (Surroundings.lowerScalar ⟨array, none⟩ l.graph l.shareScalars .empty)
      (l.lowerLambda ⟨array, none⟩) (l.lowerStencil ⟨array, none⟩) = .ok op) ↔
    l.Accepts node ∧ (∀ xs ∈ node.arrays, ∃ t, array xs = .ok t) ∧
      ∀ e ∈ node.scalarCode, l.ReadsOk array e := by
  rw [ArrayOp.exists_mapM_eq_ok_iff, accepts_iff, Graph.BindsParams,
    ArrayNode.forall_mem_arrays_iff, ArrayNode.forall_mem_scalarCode_iff,
    ArrayNode.forall_mem_scalarCode_iff]
  simp only [ArrayOp.forall_and, exists_lowerScalar_iff, exists_lowerLambda_iff,
    exists_lowerStencil_iff]
  refine ArrayOp.forall_congr_iff fun part _ => ?_
  cases part <;> simp only [ArrayOp.Part.Holds] <;> tauto

end Code

theorem exists_lowerNode_iff {share : Bool} {key : ArrayKey} {node : ArrayNode}
    {refs : List ArrayKey} (found : l.graph.array? key = some node)
    (listed : (l.graph.arrayView share).operands key = .ok refs)
    {operands : List (ArrayKey × Except LoweringError ArrayTerm)} :
    (∃ t, l.lowerNode key operands = .ok t) ↔
      l.Accepts node ∧ ∀ ref ∈ refs, ∃ t, operands.lookup ref = some (.ok t) := by
  obtain ⟨node', found', code, rfl⟩ := (Graph.arrayOperands_eq_ok_iff l.shareScalars).mp listed
  obtain rfl := Option.some.inj (found.symm.trans found')
  rw [lowerNode_of_found found]
  refine exists_bind_pure_eq_ok_iff.trans
    (exists_lowerOperation_iff.trans (and_congr_right fun _ => ?_))
  have operand : ∀ ref, (∃ t, (reading operands).array ref = .ok t) ↔
      ∃ t, operands.lookup ref = some (.ok t) :=
    fun ref => exists_congr fun t => resultAt_eq_ok_iff
  rw [List.forall_mem_append, List.forall_mem_flatMap]
  refine and_congr (forall₂_congr fun ref _ => operand ref) (forall₂_congr fun e member => ?_)
  simp only [Graph.mem_readBelow (code e member).1]
  constructor
  · rintro all xs ⟨reader, reached, read⟩
    exact (operand xs).mp (all reader reached xs read)
  · intro all reader reached xs read
    exact (operand xs).mpr (all xs ⟨reader, reached, read⟩)

theorem exists_lowerTree_iff {share : Bool} {tree : SharedTree ArrayKey} {root : ArrayKey}
    (stands : tree.Stands (l.graph.arrayView share) root) (closed : tree.free = []) :
    (∃ t, l.lowerTree .empty tree = .ok t) ↔ ∀ key, (l.graph.arrayView share).Reaches root key →
      ∃ node, l.graph.array? key = some node ∧ l.Accepts node := by
  refine SharedTree.Stands.holds_iff (fun keys tree => ∃ t, l.lowerTree ⟨keys⟩ tree = .ok t) _
    (fun _ => True) ?_ ?_ ?_ (fun _ _ _ _ => trivial) stands trivial (by simp [closed])
  · intro keys id inside
    refine exists_bind_pure_eq_ok_iff.mpr ?_
    simp only [LoweringError.ofFault_eq_ok_iff]
    exact Scope.exists_index_iff.mpr inside
  · intro keys id bound body
    exact exists_bind_bind_pure_eq_ok_iff
  · intro keys id operands refs _ listed
    obtain ⟨node, found, _⟩ := (Graph.arrayOperands_eq_ok_iff l.shareScalars).mp listed
    refine (exists_lowerNode_iff found listed).trans (and_congr ?_ (forall₂_congr fun ref _ => ?_))
    · simp [found]
    · simp only [lookup_lowerOperands, Option.map_eq_some_iff]
      exact exists_comm.trans (exists_congr fun operand => exists_and_left)

end Lowering

namespace Graph

/-- A program can be lowered exactly if the sharing of its arrays can be recovered and every array
node that it reaches is accepted. -/
theorem exists_lower_iff {g : Graph} {options : Options} {root : ArrayKey} :
    (∃ t, g.lower options root = .ok t) ↔
      (∃ tree, (g.arrayView options.shareArrays).recover root = .ok tree) ∧
      ∀ key, (g.arrayView options.shareArrays).Reaches root key → ∃ node, g.array? key = some node ∧
        Lowering.Accepts ⟨g, options.tuples, options.shareScalars⟩ node := by
  rw [lower_eq, exists_bind_eq_ok_iff]
  simp only [recoverArrays, LoweringError.ofFault_eq_ok_iff]
  constructor
  · rintro ⟨tree, recovered, lowered⟩
    obtain ⟨stands, closed⟩ := View.stands_of_recover recovered
    exact ⟨⟨tree, recovered⟩, (Lowering.exists_lowerTree_iff stands closed).mp lowered⟩
  · rintro ⟨⟨tree, recovered⟩, accepts⟩
    obtain ⟨stands, closed⟩ := View.stands_of_recover recovered
    exact ⟨tree, recovered, (Lowering.exists_lowerTree_iff stands closed).mpr accepts⟩

end Graph
end SharingRecovery
