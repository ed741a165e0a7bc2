import SharingRecovery.Proofs.Acceptance
import SharingRecovery.Proofs.Weighing

set_option autoImplicit false

/-!
How much array work a lowered program does. The arrays that scalar code mentions after its own
sharing has been recovered are among those that it reads, and none is lost. So an array that is
referred to once is written once, and one that is referred to more often is bound and mentioned as a
variable.
-/

namespace SharingRecovery

namespace Term

def partWeight : ArrayOp.Part Nat Nat Nat Nat → Nat
  | .array n => n
  | .scalar n => n
  | .function n => n
  | .stencil n => n

/-- Adds up a weight for every `let` of an array and one for every array operation, those inside
scalar code included. -/
def weighForm (binding operation : Nat) : Algebra Nat Nat Nat where
  arrayLet bound body := binding + bound + body
  arrayVar _ := 0
  arrayOp op := operation + (op.parts.map partWeight).sum
  lam inner := inner
  body e := e
  scalarLet bound body := bound + body
  scalarVar _ := 0
  scalarOp op := op.array?.toList.sum + op.scalars.sum

end Term

def ArrayTerm.weight (binding operation : Nat) (t : ArrayTerm) : Nat :=
  t.fold (Term.weighForm binding operation)

/-- The number of array operations in a term, wherever they stand. -/
def ArrayTerm.operations (t : ArrayTerm) : Nat :=
  t.weight 0 1

def ArrayTerm.lets (t : ArrayTerm) : Nat :=
  t.weight 1 0

def FunTerm.weight (binding operation : Nat) (f : FunTerm) : Nat :=
  f.fold (Term.weighForm binding operation)

def ScalarTerm.weight (binding operation : Nat) (e : ScalarTerm) : Nat :=
  e.fold (Term.weighForm binding operation)

variable {binding operation : Nat}

theorem ArrayTerm.weight_op (op : ArrayOp ArrayTerm ScalarTerm FunTerm FunTerm) :
    (ArrayTerm.op op).weight binding operation = operation + (op.parts.map fun part =>
      Term.partWeight (part.map (weight binding operation) (ScalarTerm.weight binding operation)
        (FunTerm.weight binding operation) (FunTerm.weight binding operation))).sum := by
  rw [weight, fold_op]
  simp only [Term.weighForm, ArrayOp.parts_mapOperands, List.map_map]
  rfl

namespace ScalarTerm

theorem weight_op (op : ScalarOp ArrayTerm ScalarTerm) :
    (ScalarTerm.op op).weight binding operation =
    (op.array?.toList.map (ArrayTerm.weight binding operation)).sum +
      (op.scalars.map (weight binding operation)).sum := by
  rw [weight, fold_op]
  simp only [Term.weighForm, ScalarOp.array?_mapOperands, ScalarOp.scalars_mapOperands,
    Option.toList_map]
  rfl

theorem weight_var (i : Nat) : (var i).weight binding operation = 0 := by
  rw [weight, fold]
  rfl

theorem weight_letIn (bound body : ScalarTerm) : (letIn bound body).weight binding operation =
    bound.weight binding operation + body.weight binding operation := by
  rw [weight, fold]
  rfl

private theorem weight_project (e : ScalarTerm) (path : Path) :
    (e.project path).weight binding operation = e.weight binding operation := by
  induction path generalizing e with
  | nil => rfl
  | cons i path ih =>
    refine (ih (.op (.prj i e))).trans ?_
    rw [weight_op]
    simp [ScalarOp.array?, ScalarOp.scalars]

private theorem weight_of_ofKey {scope : Scope ScalarKey} {key : ScalarKey} {e : ScalarTerm}
    (run : ofKey scope key = .ok e) : e.weight binding operation = 0 := by
  obtain ⟨i, _, rfl⟩ := ofKey_eq_ok run
  exact weight_var i

end ScalarTerm

private theorem FunTerm.weight_ofBody (n : Nat) (e : ScalarTerm) :
    (ofBody n e).weight binding operation = e.weight binding operation := by
  induction n with
  | zero =>
    rw [ofBody, weight, fold]
    rfl
  | succ n ih =>
    rw [ofBody, weight, fold]
    exact ih

namespace Surroundings

variable {around : Surroundings} {g : Graph} {share : Bool} {weight : ArrayKey → Nat}

private theorem weight_of_lowerParam {scope : Scope ScalarKey} {key : ScalarKey} {e : ScalarTerm}
    (run : around.lowerParam scope key = .ok e) : e.weight binding operation = 0 := by
  obtain ⟨other, base, path, lowered, rfl⟩ := lowerParam_eq_ok run
  rw [ScalarTerm.weight_project, ScalarTerm.weight_of_ofKey lowered]

def readWeight (g : Graph) (weight : ArrayKey → Nat) (key : ScalarKey) : Nat :=
  ((g.reads key).map weight).sum

variable (reads : ∀ xs t, around.array xs = .ok t → t.weight binding operation = weight xs)
include reads

private theorem weight_of_lowerNode {scope : Scope ScalarKey} {key : ScalarKey} {node : ScalarNode}
    (found : g.scalar? key = some node)
    {operands : List (ScalarKey × Except LoweringError ScalarTerm)}
    {e : ScalarTerm} (run : around.lowerNode g scope key operands = .ok e) :
    ∃ term : ScalarKey → ScalarTerm,
      (∀ ref ∈ node.operands, operands.lookup ref = some (.ok (term ref))) ∧
      e.weight binding operation = readWeight g weight key +
        (node.operands.map fun ref => (term ref).weight binding operation).sum := by
  rw [readWeight, Graph.reads_eq found]
  obtain ⟨found', run⟩ | ⟨operation', lowered, found', mapped, rfl⟩ := lowerNode_eq_ok run
  · obtain rfl := Option.some.inj (found.symm.trans found')
    rw [weight_of_lowerParam run]
    exact ⟨fun _ => e, by simp [ScalarNode.operands], rfl⟩
  · obtain rfl := Option.some.inj (found.symm.trans found')
    obtain ⟨array, term, values, equal⟩ :=
      ScalarOp.exists_mapM_eq (ScalarOp.forall_of_mapM bind_eq_ok_iff.mp mapped)
    obtain rfl := Except.ok.inj (equal.symm.trans mapped)
    have looked : ∀ ref ∈ operation'.scalars, operands.lookup ref = some (.ok (term ref)) :=
      fun ref member => resultAt_eq_ok_iff.mp (values.2 ref member)
    refine ⟨term, looked, ?_⟩
    have arrays : operation'.array?.toList.map (ArrayTerm.weight binding operation ∘ array) =
        operation'.array?.toList.map weight :=
      List.map_congr_left fun xs member => reads xs _ (values.1 xs (Option.mem_toList.mp member))
    rw [ScalarTerm.weight_op, ScalarOp.array?_mapOperands, ScalarOp.scalars_mapOperands,
      List.map_map, Option.toList_map, List.map_map, arrays]
    rfl

theorem weighs_of_lowerTree {tree : SharedTree ScalarKey} {key : ScalarKey}
    (stands : tree.Stands (g.scalarView share) key) {scope : Scope ScalarKey} {e : ScalarTerm}
    (run : around.lowerTree g scope tree = .ok e) :
    tree.Weighs 0 (readWeight g weight) (g.scalarView share).references
      (e.weight binding operation) := by
  induction stands generalizing scope e with
  | var key =>
    rw [ScalarTerm.weight_of_ofKey run]
    exact .var key
  | bind _ _ _ _ ihBound ihBody =>
    obtain ⟨bound, body, lowered, lowered', rfl⟩ := lowerTree_bind_eq_ok run
    rw [ScalarTerm.weight_letIn, ← Nat.zero_add (bound.weight binding operation)]
    exact .bind (ihBound lowered) (ihBody lowered')
  | @plain key refs operands listed covers _ ih =>
    obtain ⟨node, found, rfl⟩ := Graph.exists_scalar_of_operands listed
    obtain ⟨term, looked, weighs⟩ := weight_of_lowerNode reads found run
    have refs := View.references_eq listed
    rw [weighs, ← refs]
    refine .of_operands fun ref member => ?_
    have here := looked ref (refs ▸ member)
    rw [lookup_lowerOperands] at here
    obtain ⟨operand, here, lowered⟩ := Option.map_eq_some_iff.mp here
    exact ⟨operand, here, ih _ (OrderedMap.mem_of_get? here) lowered⟩

end Surroundings

namespace Graph

variable {g : Graph} {share : Bool} {code : ScalarKey} {tree : SharedTree ScalarKey}

/-- The arrays that scalar code mentions when it is written out: each node that is read once with
sharing, once for every path without. -/
noncomputable def emitted (g : Graph) (share : Bool) (code : ScalarKey) : List ArrayKey :=
  match (g.scalarView share).recover code with
  | .ok tree => if share then tree.plains.flatMap g.reads else g.readBelow share code
  | .error _ => []

theorem emitted_true (recovered : (g.scalarView true).recover code = .ok tree) :
    g.emitted true code = tree.plains.flatMap g.reads := by
  rw [emitted, recovered]
  rfl

theorem emitted_false (recovered : (g.scalarView false).recover code = .ok tree) :
    g.emitted false code = g.readBelow false code := by
  rw [emitted, recovered]
  rfl

private theorem reads_eq_nil_of_trivial {key : ScalarKey}
    (trivial : (g.scalarView true).isTrivial key = .ok true) :
    g.reads key = [] := by
  obtain ⟨node, found, trivial⟩ := bind_eq_ok_iff.mp trivial
  rw [reads_eq (scalarNode_eq_ok_iff.mp found)]
  rw [pure_eq_ok_iff] at trivial
  fun_cases ScalarNode.isTrivial node with
  | case1 => rfl
  | case2 => rfl
  | case3 => simp_all [ScalarNode.isTrivial]

theorem not_nameable_scalarView_false (key : ScalarKey) : ¬(g.scalarView false).Nameable key := by
  intro nameable
  obtain ⟨_, _, no⟩ := bind_eq_ok_iff.mp nameable
  cases no

private theorem count_reads (key : ScalarKey) (xs : ArrayKey) :
    (g.reads key).count xs = if xs ∈ g.reads key then 1 else 0 := by
  rw [reads]
  cases (g.scalar? key).bind ScalarNode.array? with
  | none => rfl
  | some ys =>
    rw [Option.toList_some, List.count_singleton]
    simp only [beq_iff_eq, List.mem_singleton, eq_comm (a := xs)]

private theorem count_flatMap_reads (keys : List ScalarKey) (xs : ArrayKey) :
    (keys.flatMap g.reads).count xs = keys.countP fun key => xs ∈ g.reads key := by
  rw [List.count_flatMap, View.countP_eq_sum]
  refine congrArg List.sum (List.map_congr_left fun key _ => ?_)
  simp [count_reads]

private theorem nameable_of_mem_reads {key : ScalarKey} {xs : ArrayKey} (read : xs ∈ g.reads key) :
    (g.scalarView true).Nameable key := by
  obtain ⟨node, found, _⟩ := Option.bind_eq_some_iff.mp (Option.mem_toList.mp read)
  have decided : (g.scalarView true).isTrivial key = .ok node.isTrivial :=
    bind_eq_ok_iff.mpr ⟨node, scalarNode_eq_ok_iff.mpr found, rfl⟩
  cases trivial : node.isTrivial with
  | false => rw [View.Nameable, decided, trivial]
  | true =>
    rw [reads_eq_nil_of_trivial (decided.trans (congrArg _ trivial))] at read
    cases read

section Emitted

variable (recovered : (g.scalarView share).recover code = .ok tree)
include recovered

private theorem count_emitted_le (xs : ArrayKey) :
    (g.emitted share code).count xs ≤ (g.readBelow share code).count xs := by
  cases share with
  | false => rw [emitted_false recovered]
  | true =>
    have leaves := g.trivialLeaves_scalarView
    have founded := ((g.consistent_scalarView true).founded_of_recover recovered).1
    rw [emitted_true recovered, readBelow, count_flatMap_reads, count_flatMap_reads]
    have among : (tree.plains.filter fun key => xs ∈ g.reads key).Subperm
        (((g.scalarView true).unfolding code).labels.filter fun key => xs ∈ g.reads key) := by
      refine List.subperm_ext_iff.mpr fun key member => ?_
      obtain ⟨plain, read⟩ := List.mem_filter.mp member
      have reached := (View.stands_of_recover recovered).1.reaches_of_mem_plains plain
      have nameable := nameable_of_mem_reads (of_decide_eq_true read)
      have once := View.count_plains_of_recover leaves recovered nameable reached
      have kept : ∀ keys : List ScalarKey,
          (keys.filter fun key => xs ∈ g.reads key).count key = keys.count key :=
        fun _ => List.count_filter read
      rw [kept, kept, once]
      exact founded.paths_pos_iff.mpr reached
    rw [List.countP_eq_length_filter, List.countP_eq_length_filter]
    exact among.length_le

private theorem mem_emitted {xs : ArrayKey} (member : xs ∈ g.readBelow share code) :
    xs ∈ g.emitted share code := by
  cases share with
  | false => rwa [emitted_false recovered]
  | true =>
    have founded := ((g.consistent_scalarView true).founded_of_recover recovered).1
    obtain ⟨key, below, read⟩ := (mem_readBelow founded).mp member
    have once := View.count_plains_of_recover g.trivialLeaves_scalarView recovered
      (nameable_of_mem_reads read) (reaches_scalarView_iff.mpr below)
    rw [emitted_true recovered, List.mem_flatMap]
    exact ⟨key, List.count_pos_iff.mp (once ▸ Nat.one_pos), read⟩

end Emitted
end Graph

private theorem Surroundings.weight_of_lowerScalar {around : Surroundings}
    {g : Graph} {share : Bool} {weight : ArrayKey → Nat}
    (reads : ∀ xs t, around.array xs = .ok t → t.weight binding operation = weight xs)
    {scope : Scope ScalarKey} {code : ScalarKey} {e : ScalarTerm}
    (run : around.lowerScalar g share scope code = .ok e) :
    e.weight binding operation = ((g.emitted share code).map weight).sum := by
  obtain ⟨tree, recovered, run⟩ := bind_eq_ok_iff.mp run
  rw [LoweringError.ofFault_eq_ok_iff] at recovered
  obtain ⟨stands, closed⟩ := View.stands_of_recover recovered
  have weighs := weighs_of_lowerTree reads stands run
  have each : ∀ keys : List ScalarKey,
      (keys.map (readWeight g weight)).sum = ((keys.flatMap g.reads).map weight).sum := by
    intro keys
    rw [List.map_flatMap, List.flatMap_def, List.sum_flatten, List.map_map]
    rfl
  cases share with
  | false =>
    obtain ⟨founded, _⟩ := (g.consistent_scalarView false).founded_of_recover recovered
    rw [Graph.emitted_false recovered, Graph.readBelow, ← each]
    exact View.weight_eq_unfolding Graph.not_nameable_scalarView_false stands closed founded
      (fun _ _ => rfl) weighs
  | true =>
    have leaves := g.trivialLeaves_scalarView
    obtain ⟨tally, _, tallies, arranged, _⟩ := View.arranged_of_recover leaves recovered
    rw [Graph.emitted_true recovered, ← each]
    have load := View.weight_eq_load leaves tallies (fun _ _ => List.Subset.refl _) ?_ arranged
      (.refl code) (List.Subset.refl _) weighs
    · rw [load, SharedTree.load, Nat.zero_mul, Nat.zero_add]
    · intro source reached ref member unnamed
      obtain ⟨trivial, decided⟩ := tallies.decided ref (reached.trans (.of_reference member))
      cases trivial with
      | false => exact .inr (View.count_references_eq_one reached member decided unnamed)
      | true =>
        refine .inl ⟨leaves.references_eq_nil decided, ?_⟩
        rw [readWeight, Graph.reads_eq_nil_of_trivial decided]
        rfl

namespace ArrayNode

private theorem sum_parts (node : ArrayNode) (weight : ArrayKey → Nat)
    (mentions : ScalarKey → List ArrayKey) : (node.parts.map fun
      | .array xs => weight xs
      | .scalar e => ((mentions e).map weight).sum
      | .function f => ((mentions f.body).map weight).sum
      | .stencil f => ((mentions f.body).map weight).sum).sum =
      ((node.arrays ++ node.scalarCode.flatMap mentions).map weight).sum := by
  rw [ArrayOp.arrays, scalarCode]
  generalize node.parts = parts
  induction parts with
  | nil => rfl
  | cons part parts ih =>
    simp only [List.map_append, List.sum_append] at ih ⊢
    cases part <;> simp [ih] <;> omega

end ArrayNode

namespace Graph

variable {g : Graph} {share : Bool}

noncomputable def emittedBy (g : Graph) (share : Bool) (key : ArrayKey) : List ArrayKey :=
  (g.array? key).elim [] fun node => node.arrays ++ node.scalarCode.flatMap (g.emitted share)

private theorem emittedBy_eq {key : ArrayKey} {node : ArrayNode}
    (found : g.array? key = some node) :
    g.emittedBy share key = node.arrays ++ node.scalarCode.flatMap (g.emitted share) := by
  rw [emittedBy, found]
  rfl

section Emitted

variable {share' : Bool} {key : ArrayKey} {node : ArrayNode} {refs : List ArrayKey}
  (found : g.array? key = some node) (listed : (g.arrayView share').operands key = .ok refs)
  (recovers : ∀ e ∈ node.scalarCode, ∃ tree, (g.scalarView share).recover e = .ok tree)
include found listed recovers

private theorem count_emittedBy_le (xs : ArrayKey) :
    (g.emittedBy share key).count xs ≤ refs.count xs := by
  obtain ⟨node', found', _, rfl⟩ := (arrayOperands_eq_ok_iff share).mp listed
  obtain rfl := Option.some.inj (found.symm.trans found')
  rw [emittedBy_eq found, List.count_append, List.count_append, List.count_flatMap,
    List.count_flatMap]
  refine Nat.add_le_add_left (List.sum_le_sum fun e member => ?_) _
  obtain ⟨tree, recovered⟩ := recovers e member
  exact count_emitted_le recovered xs

theorem emittedBy_subset : g.emittedBy share key ⊆ refs := by
  intro xs member
  have positive := List.count_pos_iff.mpr member
  exact List.count_pos_iff.mp (positive.trans_le (count_emittedBy_le found listed recovers xs))

private theorem subset_emittedBy : refs ⊆ g.emittedBy share key := by
  intro xs member
  obtain ⟨node', found', _, rfl⟩ := (arrayOperands_eq_ok_iff share).mp listed
  obtain rfl := Option.some.inj (found.symm.trans found')
  rw [emittedBy_eq found, List.mem_append]
  refine (List.mem_append.mp member).imp_right fun read => ?_
  obtain ⟨e, inside, read⟩ := List.mem_flatMap.mp read
  obtain ⟨tree, recovered⟩ := recovers e inside
  exact List.mem_flatMap.mpr ⟨e, inside, mem_emitted recovered read⟩

theorem count_emittedBy_eq_one {xs : ArrayKey} (once : refs.count xs = 1) :
    (g.emittedBy share key).count xs = 1 := by
  have most := count_emittedBy_le found listed recovers xs
  have member := subset_emittedBy found listed recovers (List.count_pos_iff.mp (once ▸ Nat.one_pos))
  have least := List.count_pos_iff.mpr member
  omega

end Emitted

theorem emittedBy_false {share' : Bool} {key : ArrayKey} {node : ArrayNode} {refs : List ArrayKey}
    (found : g.array? key = some node) (listed : (g.arrayView share').operands key = .ok refs)
    (recovers : ∀ e ∈ node.scalarCode, ∃ tree, (g.scalarView false).recover e = .ok tree) :
    g.emittedBy false key = refs := by
  obtain ⟨node', found', _, rfl⟩ := (arrayOperands_eq_ok_iff false).mp listed
  obtain rfl := Option.some.inj (found.symm.trans found')
  rw [emittedBy_eq found, List.flatMap_def, List.flatMap_def,
    List.map_congr_left fun e member => ?_]
  obtain ⟨tree, recovered⟩ := recovers e member
  exact emitted_false recovered

end Graph

namespace Lowering

variable {l : Lowering} {share : Bool} {weight : ArrayKey → Nat}

private theorem LowersBody.weight_eq {array : ArrayKey → Except LoweringError ArrayTerm}
    {code : ScalarKey} {f : FunTerm} (lowers : l.LowersBody array code f)
    (reads : ∀ xs t, array xs = .ok t → t.weight binding operation = weight xs) :
    f.weight binding operation = ((l.graph.emitted l.shareScalars code).map weight).sum := by
  obtain ⟨_, scope, e, run, rfl⟩ := lowers
  rw [FunTerm.weight_ofBody]
  refine Surroundings.weight_of_lowerScalar ?_ run
  exact reads

private theorem weight_of_lowerNode {key : ArrayKey}
    {operands : List (ArrayKey × Except LoweringError ArrayTerm)}
    (known : ∀ ref t, operands.lookup ref = some (.ok t) → t.weight binding operation = weight ref)
    {t : ArrayTerm} (run : l.lowerNode key operands = .ok t) : t.weight binding operation =
      operation + ((l.graph.emittedBy l.shareScalars key).map weight).sum := by
  obtain ⟨node, lowered, found, mapped, rfl⟩ := lowerNode_eq_ok run
  have reads : ∀ xs t, (reading operands).array xs = .ok t →
      t.weight binding operation = weight xs :=
    fun xs t lowered => known xs t (resultAt_eq_ok_iff.mp lowered)
  obtain ⟨array, scalar, function, stencil, values, equal⟩ :=
    ArrayOp.exists_mapM_eq (ArrayOp.forall_of_mapM bind_eq_ok_iff.mp mapped)
  obtain rfl := Except.ok.inj (equal.symm.trans mapped)
  rw [ArrayTerm.weight_op, ArrayOp.parts_mapOperands, List.map_map, Graph.emittedBy_eq found,
    ← ArrayNode.sum_parts]
  refine congrArg (operation + ·) (congrArg List.sum (List.map_congr_left fun part member => ?_))
  have value := values part member
  cases part with
  | array xs => exact reads xs _ value
  | scalar e => exact Surroundings.weight_of_lowerScalar reads value
  | function f => exact (lowersBody_of_lowerLambda value).weight_eq reads
  | stencil f => exact (lowersBody_of_lowerStencil value).weight_eq reads

/-- A lowered tree weighs what the tree does when every array node writes out the arrays that it
mentions. -/
theorem weighs_of_lowerTree (binding operation : Nat) {tree : SharedTree ArrayKey} {key : ArrayKey}
    (stands : tree.Stands (l.graph.arrayView share) key) {scope : Scope ArrayKey} {t : ArrayTerm}
    (run : l.lowerTree scope tree = .ok t) :
    tree.Weighs binding (fun _ => operation) (l.graph.emittedBy l.shareScalars)
      (t.weight binding operation) := by
  induction stands generalizing scope t with
  | var key =>
    obtain ⟨i, _, rfl⟩ := lowerTree_var_eq_ok run
    rw [ArrayTerm.weight, ArrayTerm.fold]
    exact .var key
  | bind _ _ _ _ ihBound ihBody =>
    obtain ⟨bound, body, lowered, lowered', rfl⟩ := lowerTree_bind_eq_ok run
    rw [ArrayTerm.weight, ArrayTerm.fold]
    exact .bind (ihBound lowered) (ihBody lowered')
  | @plain key refs operands listed covers _ ih =>
    obtain ⟨node, found, _⟩ := (Graph.arrayOperands_eq_ok_iff l.shareScalars).mp listed
    obtain ⟨accepts, lowered⟩ := (exists_lowerNode_iff found listed).mp ⟨t, run⟩
    have mentioned := Graph.emittedBy_subset found listed accepts.recovers
    let lowering := reading (l.lowerOperands scope operands)
    let weight (ref : ArrayKey) : Nat :=
      ((lowering.array ref).toOption.map (ArrayTerm.weight binding operation)).getD 0
    have known : ∀ ref t, (l.lowerOperands scope operands).lookup ref = some (.ok t) →
        t.weight binding operation = weight ref := by
      intro ref t looked
      have here : lowering.array ref = .ok t := resultAt_eq_ok_iff.mpr looked
      simp only [weight, here, Except.toOption, Option.map_some, Option.getD_some]
    rw [weight_of_lowerNode known run]
    refine .of_operands fun ref member => ?_
    obtain ⟨t, looked⟩ := lowered ref (mentioned member)
    rw [← known ref t looked]
    rw [lookup_lowerOperands] at looked
    obtain ⟨operand, here, lowered⟩ := Option.map_eq_some_iff.mp looked
    exact ⟨operand, here, ih _ (OrderedMap.mem_of_get? here) lowered⟩

end Lowering
end SharingRecovery
