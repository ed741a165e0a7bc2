import SharingRecovery.Lowering.Scalar
import SharingRecovery.Proofs.Operations
import SharingRecovery.Proofs.Unfolding
import SharingRecovery.Proofs.Walking

set_option autoImplicit false

/-!
The direct translation of a program without any sharing: every node becomes its own operation, with
the translations of its operands in place.
-/

namespace SharingRecovery

/-- The variable of a parameter: with `n` parameters it is `n - 1 - i` for the last position `i` at
which the parameter is given. -/
def Lambda.param? (f : Lambda) (key : ScalarKey) : Option ScalarTerm :=
  (f.params.zipIdx.reverse.lookup key).map fun i => .var (f.arity - 1 - i)

/-- The term of a placeholder in a stencil: its path into the argument for a neighbour, the last one
if it is given more than once, and the argument itself for the argument. -/
def StencilLambda.param? (f : StencilLambda) (paths : List Path) (key : ScalarKey) :
    Option ScalarTerm :=
  match (f.neighbours.zip paths).reverse.lookup key with
  | some path => some ((ScalarTerm.var 0).project path)
  | none => if key = f.argument then some (.var 0) else none

namespace Graph

def unsharedScalarNode (array : ArrayKey → Option ArrayTerm) (param : ScalarKey → Option ScalarTerm)
    (scalar : ScalarKey → Option ScalarTerm) (key : ScalarKey) : ScalarNode → Option ScalarTerm
  | .param => param key
  | .op operation => ScalarTerm.op <$> operation.mapM array scalar

def unsharedScalarWithin (g : Graph) (array : ArrayKey → Option ArrayTerm)
    (param : ScalarKey → Option ScalarTerm) : Nat → ScalarKey → Option ScalarTerm
  | 0, _ => none
  | depth + 1, key =>
    g.scalar? key >>= unsharedScalarNode array param (g.unsharedScalarWithin array param depth) key

def unsharedScalar (g : Graph) (array : ArrayKey → Option ArrayTerm)
    (param : ScalarKey → Option ScalarTerm) (root : ScalarKey) : Option ScalarTerm :=
  g.unsharedScalarWithin array param g.scalarDepth root

/-- Translates an array node, given the translations of arrays. A scalar operand has no variables.
-/
def unsharedNode (g : Graph) (tuples : TupleLayout) (array : ArrayKey → Option ArrayTerm)
    (node : ArrayNode) : Option ArrayTerm :=
  ArrayTerm.op <$> node.mapM array (g.unsharedScalar array fun _ => none)
    (fun f => FunTerm.ofBody f.arity <$> g.unsharedScalar array f.param? f.body)
    (fun f => FunTerm.ofBody 1 <$>
      g.unsharedScalar array (f.param? (tuples f.neighbourhood.rank f.neighbourhood)) f.body)

def unsharedWithin (g : Graph) (tuples : TupleLayout) : Nat → ArrayKey → Option ArrayTerm
  | 0, _ => none
  | depth + 1, key => g.array? key >>= g.unsharedNode tuples (g.unsharedWithin tuples depth)

/-- Translates a program without any sharing. -/
def unshared (g : Graph) (tuples : TupleLayout) (root : ArrayKey) : Option ArrayTerm :=
  g.unsharedWithin tuples (g.arrays.size + 1) root

variable {g : Graph} {share : Bool} {array array' : ArrayKey → Option ArrayTerm}
  {param : ScalarKey → Option ScalarTerm}

theorem scalarNode_eq_ok_iff {key : ScalarKey} {node : ScalarNode} :
    g.scalarNode key = .ok node ↔ g.scalar? key = some node :=
  Fault.require_eq_ok_iff

theorem arrayNode_eq_ok_iff {key : ArrayKey} {node : ArrayNode} :
    g.arrayNode key = .ok node ↔ g.array? key = some node :=
  Fault.require_eq_ok_iff

theorem exists_scalar_of_operands {key : ScalarKey} {refs : List ScalarKey}
    (operands : (g.scalarView share).operands key = .ok refs) :
    ∃ node, g.scalar? key = some node ∧ node.operands = refs := by
  obtain ⟨node, found, run⟩ := bind_eq_ok_iff.mp operands
  exact ⟨node, scalarNode_eq_ok_iff.mp found, pure_eq_ok_iff.mp run⟩

private theorem unsharedScalarNode_congr {scalar scalar' : ScalarKey → Option ScalarTerm}
    {key : ScalarKey} {node : ScalarNode} (arrays : ∀ xs ∈ node.array?, array xs = array' xs)
    (scalars : ∀ e ∈ node.operands, scalar e = scalar' e) :
    unsharedScalarNode array param scalar key node =
    unsharedScalarNode array' param scalar' key node := by
  cases node with
  | param => rfl
  | op operation => exact congrArg (ScalarTerm.op <$> ·) (ScalarOp.mapM_congr ⟨arrays, scalars⟩)

private theorem unsharedScalarWithin_eq {key : ScalarKey}
    (founded : (g.scalarView share).Founded key) {depth depth' : Nat}
    (low : ((g.scalarView share).unfolding key).height ≤ depth)
    (low' : ((g.scalarView share).unfolding key).height ≤ depth') :
    g.unsharedScalarWithin array param depth key =
    g.unsharedScalarWithin array param depth' key := by
  induction key, founded using View.Founded.induction generalizing depth depth' with
  | step key founded ih =>
    obtain ⟨depth, rfl⟩ := Nat.exists_eq_succ_of_ne_zero (founded.height_pos.trans_le low).ne'
    obtain ⟨depth', rfl⟩ := Nat.exists_eq_succ_of_ne_zero (founded.height_pos.trans_le low').ne'
    obtain ⟨node, found, refs⟩ := exists_scalar_of_operands founded.operands
    rw [unsharedScalarWithin, unsharedScalarWithin, found]
    refine unsharedScalarNode_congr (fun _ _ => rfl) fun e member => ?_
    rw [refs] at member
    have below := founded.height_lt member
    exact ih e member (by omega) (by omega)

theorem unsharedScalar_eq {key : ScalarKey} (founded : (g.scalarView share).Founded key)
    (low : ((g.scalarView share).unfolding key).height ≤ g.scalarDepth) :
    g.unsharedScalar array param key =
      g.scalar? key >>= unsharedScalarNode array param (g.unsharedScalar array param) key := by
  obtain ⟨node, found, refs⟩ := exists_scalar_of_operands founded.operands
  rw [unsharedScalar, scalarDepth, unsharedScalarWithin, found]
  refine unsharedScalarNode_congr (fun _ _ => rfl) fun e member => ?_
  rw [refs] at member
  have below := (founded.height_lt member).trans_le low
  exact unsharedScalarWithin_eq (founded.of_reference member) (Nat.le_of_lt_succ below) below.le

private theorem unsharedScalarWithin_congr {depth depth' : Nat} {key : ScalarKey}
    {read : List ArrayKey} (run : g.arraysReadWithin depth key = .ok read)
    (same : ∀ xs ∈ read, array xs = array' xs) :
    g.unsharedScalarWithin array param depth' key =
    g.unsharedScalarWithin array' param depth' key := by
  induction depth' generalizing depth key read with
  | zero => rfl
  | succ depth' ih =>
    cases depth with
    | zero => cases run
    | succ depth =>
      obtain ⟨node, found, run⟩ := bind_eq_ok_iff.mp run
      obtain ⟨below, reads, run⟩ := bind_eq_ok_iff.mp run
      rw [pure_eq_ok_iff] at run
      subst run
      rw [unsharedScalarWithin, unsharedScalarWithin, scalarNode_eq_ok_iff.mp found]
      refine unsharedScalarNode_congr (fun xs inside => same xs ?_) fun e member => ?_
      · exact List.mem_append_left _ (Option.mem_toList.mpr inside)
      · obtain ⟨keys, among, reads⟩ := exists_of_mem_mapM reads member
        exact ih reads fun xs inside =>
          same xs (List.mem_append_right _ (List.mem_flatten.mpr ⟨keys, among, inside⟩))

private theorem exists_array_of_operands {key : ArrayKey} {refs : List ArrayKey}
    (operands : (g.arrayView share).operands key = .ok refs) :
    ∃ node, g.array? key = some node ∧ node.arrays ⊆ refs ∧ ∀ e ∈ node.scalarCode, ∃ read,
      g.arraysRead e = .ok read ∧ read ⊆ refs := by
  obtain ⟨node, found, run⟩ := bind_eq_ok_iff.mp operands
  obtain ⟨below, reads, run⟩ := bind_eq_ok_iff.mp run
  rw [pure_eq_ok_iff] at run
  subst run
  refine ⟨node, arrayNode_eq_ok_iff.mp found, List.subset_append_left _ _, fun e member => ?_⟩
  obtain ⟨read, among, reads⟩ := exists_of_mem_mapM reads member
  refine ⟨read, reads, fun xs inside => List.mem_append_right _ ?_⟩
  exact List.mem_flatten.mpr ⟨read, among, inside⟩

private theorem unsharedNode_congr {tuples : TupleLayout} {key : ArrayKey} {refs : List ArrayKey}
    (operands : (g.arrayView share).operands key = .ok refs)
    (same : ∀ xs ∈ refs, array xs = array' xs) :
    g.array? key >>= g.unsharedNode tuples array =
    g.array? key >>= g.unsharedNode tuples array' := by
  obtain ⟨node, found, arrays, code⟩ := exists_array_of_operands operands
  have scalar : ∀ {param : ScalarKey → Option ScalarTerm}, ∀ e ∈ node.scalarCode,
      g.unsharedScalar array param e = g.unsharedScalar array' param e := by
    intro param e member
    obtain ⟨read, reads, subset⟩ := code e member
    rw [arraysRead_eq] at reads
    exact unsharedScalarWithin_congr reads fun xs inside => same xs (subset inside)
  rw [found]
  refine congrArg (Option.map ArrayTerm.op) (ArrayOp.mapM_congr fun part member => ?_)
  cases part with
  | array xs => exact same xs (arrays (List.mem_filterMap.mpr ⟨_, member, rfl⟩))
  | scalar e => exact scalar e (List.mem_filterMap.mpr ⟨_, member, rfl⟩)
  | function f =>
    exact congrArg (Option.map (FunTerm.ofBody f.arity))
      (scalar f.body (List.mem_filterMap.mpr ⟨_, member, rfl⟩))
  | stencil f =>
    exact congrArg (Option.map (FunTerm.ofBody 1))
      (scalar f.body (List.mem_filterMap.mpr ⟨_, member, rfl⟩))

private theorem unsharedWithin_eq {tuples : TupleLayout} {key : ArrayKey}
    (founded : (g.arrayView share).Founded key) {depth depth' : Nat}
    (low : ((g.arrayView share).unfolding key).height ≤ depth)
    (low' : ((g.arrayView share).unfolding key).height ≤ depth') :
    g.unsharedWithin tuples depth key = g.unsharedWithin tuples depth' key := by
  induction key, founded using View.Founded.induction generalizing depth depth' with
  | step key founded ih =>
    obtain ⟨depth, rfl⟩ := Nat.exists_eq_succ_of_ne_zero (founded.height_pos.trans_le low).ne'
    obtain ⟨depth', rfl⟩ := Nat.exists_eq_succ_of_ne_zero (founded.height_pos.trans_le low').ne'
    rw [unsharedWithin, unsharedWithin]
    refine unsharedNode_congr founded.operands fun xs member => ?_
    have below := founded.height_lt member
    exact ih xs member (by omega) (by omega)

theorem unshared_eq {tuples : TupleLayout} {key : ArrayKey}
    (founded : (g.arrayView share).Founded key)
    (low : ((g.arrayView share).unfolding key).height ≤ g.arrays.size + 1) :
    g.unshared tuples key = g.array? key >>= g.unsharedNode tuples (g.unshared tuples) := by
  rw [unshared, unsharedWithin]
  refine unsharedNode_congr founded.operands fun xs member => ?_
  have below := (founded.height_lt member).trans_le low
  exact unsharedWithin_eq (founded.of_reference member) (Nat.le_of_lt_succ below) below.le

end Graph
end SharingRecovery
