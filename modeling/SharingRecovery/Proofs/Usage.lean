import SharingRecovery.Proofs.ArrayWork

set_option autoImplicit false

/-!
How often the variables of a lowered program refer to its `let`s. Whatever a recovered tree binds is
mentioned in the body of the binding; lowering writes every mention as a variable with the index of
that binding. A scalar node is mentioned once for every operand position, which are two at least. An
array may be read twice through one scalar node that is bound, and then is mentioned once.
-/

namespace SharingRecovery

structure LetUse where
  level : Level
  uses : Nat
  deriving DecidableEq

def LetUse.Enough (binding : LetUse) : Prop :=
  (binding.level = .array → 1 ≤ binding.uses) ∧ (binding.level = .scalar → 2 ≤ binding.uses)

/-- How many variables of a term refer to each binder around it, counted from the innermost, and how
many refer to each of its own `let`s. -/
structure Usage where
  arrays : Nat → Nat
  scalars : Nat → Nat
  lets : List LetUse

namespace Usage

def join (usages : List Usage) : Usage where
  arrays i := (usages.map (·.arrays i)).sum
  scalars i := (usages.map (·.scalars i)).sum
  lets := usages.flatMap (·.lets)

def Thrifty (usage : Usage) : Prop :=
  ∀ binding ∈ usage.lets, binding.Enough

private theorem arrays_le_join {usages : List Usage} {usage : Usage} (member : usage ∈ usages)
    (i : Nat) : usage.arrays i ≤ (join usages).arrays i :=
  List.le_sum_of_mem (List.mem_map_of_mem member)

private theorem thrifty_join {usages : List Usage} :
    (join usages).Thrifty ↔ ∀ usage ∈ usages, usage.Thrifty := by
  simp only [Thrifty, join, List.mem_flatMap]
  constructor
  · intro all usage member binding inside
    exact all binding ⟨usage, member, inside⟩
  · rintro each binding ⟨usage, member, inside⟩
    exact each usage member binding inside

end Usage

namespace Term

def partUsage : ArrayOp.Part Usage Usage Usage Usage → Usage
  | .array usage => usage
  | .scalar usage => usage
  | .function usage => usage
  | .stencil usage => usage

/-- The uses in a term. An array operation uses no scalar variable of the code around it. -/
def usageForm : Algebra Usage Usage Usage where
  arrayLet bound body :=
    { arrays := fun i => bound.arrays i + body.arrays (i + 1)
      scalars := fun _ => 0
      lets := ⟨.array, body.arrays 0⟩ :: (bound.lets ++ body.lets) }
  arrayVar i := ⟨fun j => if j = i then 1 else 0, fun _ => 0, []⟩
  arrayOp op := { Usage.join (op.parts.map partUsage) with scalars := fun _ => 0 }
  lam inner := { inner with scalars := fun i => inner.scalars (i + 1) }
  body e := e
  scalarLet bound body :=
    { arrays := fun i => bound.arrays i + body.arrays i
      scalars := fun i => bound.scalars i + body.scalars (i + 1)
      lets := ⟨.scalar, body.scalars 0⟩ :: (bound.lets ++ body.lets) }
  scalarVar i := ⟨fun _ => 0, fun j => if j = i then 1 else 0, []⟩
  scalarOp op := Usage.join (op.array?.toList ++ op.scalars)

end Term

def ArrayTerm.usage (t : ArrayTerm) : Usage :=
  t.fold Term.usageForm

def FunTerm.usage (f : FunTerm) : Usage :=
  f.fold Term.usageForm

def ScalarTerm.usage (e : ScalarTerm) : Usage :=
  e.fold Term.usageForm

namespace ArrayTerm

theorem usage_letIn (bound body : ArrayTerm) :
    (letIn bound body).usage = Term.usageForm.arrayLet bound.usage body.usage := by
  rw [usage, fold]
  rfl

theorem usage_var (i : Nat) : (var i).usage = Term.usageForm.arrayVar i := by
  rw [usage, fold]

def partUsage (part : ArrayOp.Part ArrayTerm ScalarTerm FunTerm FunTerm) : Usage :=
  Term.partUsage (part.map usage ScalarTerm.usage FunTerm.usage FunTerm.usage)

theorem usage_op (op : ArrayOp ArrayTerm ScalarTerm FunTerm FunTerm) :
    (ArrayTerm.op op).usage =
      { Usage.join (op.parts.map partUsage) with scalars := fun _ => 0 } := by
  rw [usage, fold_op]
  simp only [Term.usageForm, ArrayOp.parts_mapOperands, List.map_map]
  rfl

private theorem arrays_le_op {op : ArrayOp ArrayTerm ScalarTerm FunTerm FunTerm}
    {part : ArrayOp.Part ArrayTerm ScalarTerm FunTerm FunTerm} (member : part ∈ op.parts)
    (i : Nat) : (partUsage part).arrays i ≤ (ArrayTerm.op op).usage.arrays i := by
  rw [usage_op]
  exact Usage.arrays_le_join (List.mem_map_of_mem member) i

private theorem thrifty_letIn {bound body : ArrayTerm} (outer : bound.usage.Thrifty)
    (inner : body.usage.Thrifty) (used : 0 < body.usage.arrays 0) :
    (letIn bound body).usage.Thrifty := by
  rw [usage_letIn]
  refine List.forall_mem_cons.mpr ⟨⟨fun _ => used, nofun⟩, ?_⟩
  exact List.forall_mem_append.mpr ⟨outer, inner⟩

private theorem thrifty_op {op : ArrayOp ArrayTerm ScalarTerm FunTerm FunTerm}
    (each : op.Forall (fun t => t.usage.Thrifty) (fun e => e.usage.Thrifty)
      (fun f => f.usage.Thrifty) fun f => f.usage.Thrifty) :
    (ArrayTerm.op op).usage.Thrifty := by
  rw [usage_op]
  refine Usage.thrifty_join.mpr (List.forall_mem_map.mpr fun part member => ?_)
  have here := each part member
  cases part <;> exact here

end ArrayTerm

namespace ScalarTerm

theorem usage_letIn (bound body : ScalarTerm) :
    (letIn bound body).usage = Term.usageForm.scalarLet bound.usage body.usage := by
  rw [usage, fold]
  rfl

theorem usage_var (i : Nat) : (var i).usage = Term.usageForm.scalarVar i := by
  rw [usage, fold]

theorem usage_op (op : ScalarOp ArrayTerm ScalarTerm) : (ScalarTerm.op op).usage =
    Usage.join (op.array?.toList.map ArrayTerm.usage ++ op.scalars.map usage) := by
  rw [usage, fold_op]
  simp only [Term.usageForm, ScalarOp.array?_mapOperands, ScalarOp.scalars_mapOperands,
    Option.toList_map]
  rfl

private theorem sum_scalars_le_op (op : ScalarOp ArrayTerm ScalarTerm) (i : Nat) :
    (op.scalars.map (·.usage.scalars i)).sum ≤ (ScalarTerm.op op).usage.scalars i := by
  rw [usage_op, Usage.join]
  simp only [List.map_append, List.map_map, List.sum_append]
  exact Nat.le_add_left _ _

private theorem thrifty_letIn {bound body : ScalarTerm} (outer : bound.usage.Thrifty)
    (inner : body.usage.Thrifty) (used : 2 ≤ body.usage.scalars 0) :
    (letIn bound body).usage.Thrifty := by
  rw [usage_letIn]
  refine List.forall_mem_cons.mpr ⟨⟨nofun, fun _ => used⟩, ?_⟩
  exact List.forall_mem_append.mpr ⟨outer, inner⟩

private theorem thrifty_op {op : ScalarOp ArrayTerm ScalarTerm}
    (each : op.Forall (fun t => t.usage.Thrifty) fun e => e.usage.Thrifty) :
    (ScalarTerm.op op).usage.Thrifty := by
  rw [usage_op]
  refine Usage.thrifty_join.mpr (List.forall_mem_append.mpr ⟨?_, ?_⟩)
  · exact List.forall_mem_map.mpr fun t member => each.1 t (Option.mem_toList.mp member)
  · exact List.forall_mem_map.mpr each.2

private theorem thrifty_of_ofKey {scope : Scope ScalarKey} {key : ScalarKey} {e : ScalarTerm}
    (run : ofKey scope key = .ok e) : e.usage.Thrifty := by
  obtain ⟨i, _, rfl⟩ := ofKey_eq_ok run
  rw [usage_var]
  exact nofun

private theorem thrifty_project {e : ScalarTerm} (thrifty : e.usage.Thrifty) (path : Path) :
    (e.project path).usage.Thrifty := by
  induction path generalizing e with
  | nil => exact thrifty
  | cons i path ih =>
    apply ih
    exact thrifty_op ⟨nofun, List.forall_mem_singleton.mpr thrifty⟩

end ScalarTerm

namespace FunTerm

private theorem arrays_ofBody (n : Nat) (e : ScalarTerm) (i : Nat) :
    (ofBody n e).usage.arrays i = e.usage.arrays i := by
  induction n with
  | zero =>
    rw [ofBody, usage, fold]
    rfl
  | succ n ih =>
    rw [ofBody, usage, fold]
    exact ih

private theorem lets_ofBody (n : Nat) (e : ScalarTerm) :
    (ofBody n e).usage.lets = e.usage.lets := by
  induction n with
  | zero =>
    rw [ofBody, usage, fold]
    rfl
  | succ n ih =>
    rw [ofBody, usage, fold]
    exact ih

end FunTerm

namespace Scope

variable {κ : Type} [DecidableEq κ] {scope : Scope κ}

theorem index_push_self (key : κ) : (scope.push key).index key = .ok 0 := by
  rw [index, Fault.require_eq_ok_iff, index?, push, List.idxOf?_cons, beq_self_eq_true, if_pos rfl]

theorem index_push {key other : κ} {i : Nat} (found : scope.index key = .ok i)
    (different : other ≠ key) : (scope.push other).index key = .ok (i + 1) := by
  rw [index, Fault.require_eq_ok_iff, index?] at found ⊢
  rw [push, List.idxOf?_cons, beq_false_of_ne different, if_neg Bool.false_ne_true, found]
  rfl

end Scope

namespace SharedTree

variable {ι : Type} [DecidableEq ι] {view : View ι} {chain : ι → List ι} {named : ι → Prop}
  {tree : SharedTree ι} {id : ι} {ids : List ι}

omit [DecidableEq ι] in
private theorem Stands.nameable_of_mem_binders (stands : tree.Stands view id) {other : ι}
    (binds : other ∈ tree.binders) : view.Nameable other := by
  induction stands with
  | var id => simp at binds
  | bind nameable _ _ _ ihBound ihBody =>
    rw [binders_bind, List.mem_cons, List.mem_append] at binds
    rcases binds with rfl | inside | inside
    · exact nameable
    · exact ihBound inside
    · exact ihBody inside
  | plain _ _ _ ih =>
    rw [binders_plain, List.mem_flatMap] at binds
    obtain ⟨entry, member, inside⟩ := binds
    exact ih entry member inside

def mentions (view : View ι) (tree : SharedTree ι) (target : ι) : Nat :=
  (tree.plains.flatMap view.references).count target

theorem mentions_bind (bound body : SharedTree ι) (target : ι) :
    (bind id bound body).mentions view target =
      bound.mentions view target + body.mentions view target := by
  rw [mentions, plains_bind, List.flatMap_append, List.count_append]
  rfl

theorem mentions_plain (operands : List (ι × SharedTree ι)) (target : ι) :
    (plain id operands).mentions view target = (view.references id).count target +
      (operands.map fun entry => entry.2.mentions view target).sum := by
  rw [mentions, plains_plain, List.flatMap_cons, List.count_append, List.flatMap_assoc,
    List.count_flatMap]
  rfl

private theorem Arranged.count_vars (arranged : tree.Arranged view chain named id ids) {target : ι}
    (name : named target) :
    tree.vars.count target = tree.plains.countP fun source => target ∈ view.references source := by
  induction arranged with
  | @plain id operands keys withName below ih =>
    rw [vars_plain, plains_plain, List.countP_cons, List.count_flatMap, List.countP_flatMap]
    have each : operands.map (List.count target ∘ fun entry => entry.2.vars) =
        operands.map fun entry =>
        (entry.2.plains.countP fun source => target ∈ view.references source) +
          (OrderedMap.keys [entry]).count target := by
      refine List.map_congr_left fun entry member => ?_
      by_cases name' : named entry.1
      · simp [withName entry member name', OrderedMap.keys]
      · have different : entry.1 ≠ target := fun same => name' (same ▸ name)
        simp [ih entry member name', OrderedMap.keys, different]
    have once : (operands.map fun entry => (OrderedMap.keys [entry]).count target).sum =
        if target ∈ view.references id then 1 else 0 := by
      have nodup : (OrderedMap.keys operands).Nodup := keys ▸ nodup_firstSeen List.nodup_nil _
      have total : (OrderedMap.keys operands).count target =
          (operands.map fun entry => (OrderedMap.keys [entry]).count target).sum := by
        rw [OrderedMap.keys, List.map_eq_flatMap, List.count_flatMap]
        rfl
      rw [← total, List.Nodup.count nodup]
      simp [keys]
    rw [each, List.sum_map_add, once]
    simp [Function.comp_def]
  | bind _ _ ihBound ihBody =>
    rw [vars_bind, plains_bind, List.count_append, List.countP_append, ihBound, ihBody]

end SharedTree

namespace View

variable {ι : Type} [DecidableEq ι] {view : View ι} {root : ι} {tree : SharedTree ι}

private theorem count_flatMap_references (plains : List ι) (target : ι) :
    (plains.flatMap view.references).count target =
      ((plains.filter fun source => target ∈ view.references source).flatMap view.references).count
        target := by
  induction plains with
  | nil => rfl
  | cons source plains ih =>
    rw [List.flatMap_cons, List.count_append, ih, List.filter_cons]
    by_cases member : target ∈ view.references source
    · rw [if_pos (decide_eq_true member), List.flatMap_cons, List.count_append]
    · rw [if_neg (by simpa using member), List.count_eq_zero.mpr member, Nat.zero_add]

private theorem two_le_mentions (leaves : view.TrivialLeaves) (run : view.recover root = .ok tree)
    {id : ι} (named : view.Named root id) : 2 ≤ tree.mentions view id := by
  obtain ⟨tally, _, tallies, _⟩ := arranged_of_recover leaves run
  have stands : ∀ source, view.Reaches root source → id ∈ view.references source →
      source ∈ tree.plains := by
    intro source reached member
    have nameable := nameable_of_reference leaves tallies reached member
    have once := count_plains_of_recover leaves run nameable reached
    exact List.count_pos_iff.mp (once ▸ Nat.one_pos)
  obtain ⟨⟨source, i⟩, ⟨reached, found⟩, ⟨source', j⟩, ⟨reached', found'⟩, different⟩ := named.2
  dsimp only at reached found reached' found'
  have member := List.mem_of_getElem? found
  have member' := List.mem_of_getElem? found'
  -- One of the references comes from a plain node, the other from the same one or from one of the
  -- rest.
  have apart := List.perm_cons_erase (stands source reached member)
  rw [SharedTree.mentions, (apart.flatMap_right _).count_eq, List.flatMap_cons, List.count_append]
  by_cases same : source' = source
  · subst same
    have several : ¬(view.references source').count id ≤ 1 := by
      intro single
      exact different (Prod.ext rfl (count_le_one_iff.mp single i j found found'))
    omega
  · have other := (List.mem_erase_of_ne same).mpr (stands source' reached' member')
    have first := List.count_pos_iff.mpr member
    have second := List.count_pos_iff.mpr (List.mem_flatMap.mpr ⟨source', other, member'⟩)
    omega

private theorem arranged_of_binding (leaves : view.TrivialLeaves)
    (run : view.recover root = .ok tree) {id : ι} {bound body : SharedTree ι}
    (binding : .bind id bound body ∈ tree.subtrees) :
    ∃ node ids, body.Arranged view (view.boundAt root) (view.Named root) node ids := by
  obtain ⟨_, _, _, arranged, _⟩ := arranged_of_recover leaves run
  rcases arranged.subtree (List.suffix_refl _) (fun _ (_ : True) _ _ => trivial)
    (fun _ _ _ _ => trivial) trivial binding with ⟨_, isVar⟩ | ⟨_, _, whole, _⟩
  · cases isVar
  · cases whole with
    | bind _ inner => exact ⟨_, _, inner⟩

private theorem not_mem_binders_of_binding (leaves : view.TrivialLeaves)
    (run : view.recover root = .ok tree) {id : ι} {bound body : SharedTree ι}
    (binding : .bind id bound body ∈ tree.subtrees) :
    id ∉ body.binders := by
  have named := named_of_mem_binders leaves run (SharedTree.mem_binders_of_binding binding)
  have once := count_binders_of_recover leaves run named
  have inside : (SharedTree.bind id bound body).binders.Sublist tree.binders :=
    (SharedTree.subtrees_sublist binding).filterMap _
  have most := inside.count_le id
  rw [SharedTree.binders_bind, List.count_cons_self, List.count_append] at most
  exact List.count_eq_zero.mp (by omega)

theorem two_le_mentions_of_recover (leaves : view.TrivialLeaves)
    (run : view.recover root = .ok tree) {id : ι} {bound body : SharedTree ι}
    (binding : .bind id bound body ∈ tree.subtrees) :
    2 ≤ body.mentions view id := by
  have named := named_of_mem_binders leaves run (SharedTree.mem_binders_of_binding binding)
  have several := two_le_mentions leaves run named
  have once := count_binders_of_recover leaves run named
  obtain ⟨_, closed⟩ := stands_of_recover run
  obtain ⟨inBody, _⟩ := SharedTree.count_vars_of_binding binding once (by simp [closed])
  obtain ⟨_, _, _, arranged, _⟩ := arranged_of_recover leaves run
  obtain ⟨_, _, part⟩ := arranged_of_binding leaves run binding
  -- The plain nodes of the body are among those of the tree, and as many of them mention the
  -- identity.
  have inside : body.plains.Sublist tree.plains := by
    refine List.Sublist.filterMap _ (SharedTree.subtrees_sublist ?_)
    apply (SharedTree.subtrees_sublist binding).subset
    rw [SharedTree.subtrees]
    exact List.mem_cons_of_mem _ (List.mem_append_right _ (SharedTree.mem_subtrees_self body))
  rw [arranged.count_vars named, part.count_vars named, List.countP_eq_length_filter,
    List.countP_eq_length_filter] at inBody
  have mentioning := (inside.filter _).eq_of_length inBody.symm
  rw [SharedTree.mentions, count_flatMap_references, mentioning, ← count_flatMap_references]
  exact several

end View

private theorem sum_entries_le {ι α : Type} [DecidableEq ι] {entries : OrderedMap ι α}
    {refs : List ι} {weight : ι → Nat} (load : α → Nat)
    (keys : OrderedMap.keys entries = firstSeen [] refs)
    (each : ∀ entry ∈ entries, load entry.2 ≤ weight entry.1) :
    (entries.map fun entry => load entry.2).sum ≤ (refs.map weight).sum := by
  have among : (firstSeen [] refs).Subperm refs := by
    refine List.subperm_of_subset (nodup_firstSeen List.nodup_nil refs) fun ref member => ?_
    exact (mem_firstSeen.mp member).resolve_left List.not_mem_nil
  obtain ⟨chosen, perm, inside⟩ := among
  calc (entries.map fun entry => load entry.2).sum
      ≤ (entries.map fun entry => weight entry.1).sum := List.sum_le_sum each
    _ = ((firstSeen [] refs).map weight).sum := by
        rw [← keys, OrderedMap.keys, List.map_map]
        rfl
    _ = (chosen.map weight).sum := ((perm.map weight).sum_eq).symm
    _ ≤ (refs.map weight).sum := (inside.map weight).sum_le_sum fun _ _ => Nat.zero_le _

namespace Surroundings

variable {around : Surroundings} {g : Graph} {share : Bool} {scope : Scope ScalarKey}
  {key : ScalarKey} {e : ScalarTerm}

private theorem usage_of_lowerNode {node : ScalarNode} (found : g.scalar? key = some node)
    {operands : List (ScalarKey × Except LoweringError ScalarTerm)}
    (run : around.lowerNode g scope key operands = .ok e) :
    (∀ xs ∈ node.array?, ∃ t, around.array xs = .ok t ∧ ∀ i, t.usage.arrays i ≤ e.usage.arrays i) ∧
      ∃ scalar : ScalarKey → ScalarTerm,
        (∀ ref ∈ node.operands, operands.lookup ref = some (.ok (scalar ref)) ∧
          ∀ i, (scalar ref).usage.arrays i ≤ e.usage.arrays i) ∧
        ∀ i, (node.operands.map fun ref => (scalar ref).usage.scalars i).sum ≤
        e.usage.scalars i := by
  obtain ⟨found', run⟩ | ⟨operation, lowered, found', mapped, rfl⟩ := lowerNode_eq_ok run
  · obtain rfl := Option.some.inj (found.symm.trans found')
    exact ⟨nofun, fun _ => e, nofun, fun i => Nat.zero_le _⟩
  · obtain rfl := Option.some.inj (found.symm.trans found')
    obtain ⟨array, scalar, values, equal⟩ :=
      ScalarOp.exists_mapM_eq (ScalarOp.forall_of_mapM bind_eq_ok_iff.mp mapped)
    obtain rfl := Except.ok.inj (equal.symm.trans mapped)
    have usage := ScalarTerm.usage_op (operation.mapOperands array scalar)
    rw [ScalarOp.array?_mapOperands, ScalarOp.scalars_mapOperands, Option.toList_map, List.map_map,
      List.map_map] at usage
    refine ⟨fun xs member => ⟨array xs, values.1 xs member, fun i => ?_⟩, scalar, fun ref member =>
      ⟨resultAt_eq_ok_iff.mp (values.2 ref member), fun i => ?_⟩, fun i => ?_⟩
    · rw [usage]
      refine Usage.arrays_le_join (List.mem_append_left _ ?_) i
      exact List.mem_map.mpr ⟨xs, Option.mem_toList.mpr member, rfl⟩
    · rw [usage]
      refine Usage.arrays_le_join (List.mem_append_right _ ?_) i
      exact List.mem_map.mpr ⟨ref, member, rfl⟩
    · refine le_trans (le_of_eq ?_) (ScalarTerm.sum_scalars_le_op _ i)
      rw [ScalarOp.scalars_mapOperands, List.map_map]
      rfl

private theorem arrays_pos_of_lowerTree {tree : SharedTree ScalarKey} {reader : ScalarKey}
    {xs : ArrayKey} {t : ArrayTerm} {i : Nat} (read : xs ∈ g.reads reader)
    (lowered : around.array xs = .ok t) (used : 0 < t.usage.arrays i)
    (stands : tree.Stands (g.scalarView share) key)
    (reached : (g.scalarView share).Reaches key reader)
    (run : around.lowerTree g scope tree = .ok e) :
    0 < e.usage.arrays i ∨ ∃ other ∈ tree.free, (g.scalarView share).Reaches other reader := by
  induction stands generalizing scope e with
  | var key => exact .inr ⟨key, SharedTree.mem_free_var.mpr rfl, reached⟩
  | @bind id target bound body _ _ _ _ ihBound ihBody =>
    obtain ⟨bound', body', outer, inner, rfl⟩ := lowerTree_bind_eq_ok run
    rw [ScalarTerm.usage_letIn]
    rcases ihBody reached inner with here | ⟨other, free, below⟩
    · exact .inl (Nat.add_pos_right _ here)
    by_cases same : other = id
    · subst same
      rcases ihBound below outer with here | ⟨other', free', below'⟩
      · exact .inl (Nat.add_pos_left here _)
      · exact .inr ⟨other', SharedTree.mem_free_bind.mpr (.inl free'), below'⟩
    · exact .inr ⟨other, SharedTree.mem_free_bind.mpr (.inr ⟨free, same⟩), below⟩
  | @plain key refs operands listed covers _ ih =>
    obtain ⟨node, found, rfl⟩ := Graph.exists_scalar_of_operands listed
    obtain ⟨arrays, scalar, operand, _⟩ := usage_of_lowerNode found run
    rcases View.reaches_iff.mp reached with rfl | ⟨ref, member, below⟩
    · rw [Graph.reads_eq found, Option.mem_toList] at read
      obtain ⟨t', here, least⟩ := arrays xs read
      obtain rfl := Except.ok.inj (lowered.symm.trans here)
      exact .inl (used.trans_le (least i))
    · rw [View.references_eq listed] at member
      obtain ⟨looked, least⟩ := operand ref member
      rw [lookup_lowerOperands] at looked
      obtain ⟨tree, here, run⟩ := Option.map_eq_some_iff.mp looked
      have entry := OrderedMap.mem_of_get? here
      rcases ih _ entry below run with here | ⟨other, free, below⟩
      · exact .inl (here.trans_le (least i))
      · exact .inr ⟨other, SharedTree.mem_free_plain.mpr ⟨_, entry, free⟩, below⟩

private theorem arrays_pos_of_lowerScalar {reader : ScalarKey} {xs : ArrayKey}
    {t : ArrayTerm} {i : Nat} (read : xs ∈ g.reads reader) (lowered : around.array xs = .ok t)
    (used : 0 < t.usage.arrays i) (reached : g.ReachesScalar key reader)
    (run : around.lowerScalar g share scope key = .ok e) :
    0 < e.usage.arrays i := by
  obtain ⟨tree, recovered, run⟩ := bind_eq_ok_iff.mp run
  rw [LoweringError.ofFault_eq_ok_iff] at recovered
  obtain ⟨stands, closed⟩ := View.stands_of_recover recovered
  have reached : (g.scalarView share).Reaches key reader := Graph.reaches_scalarView_iff.mpr reached
  rcases arrays_pos_of_lowerTree read lowered used stands reached run with here | ⟨_, free, _⟩
  · exact here
  · rw [closed] at free
    cases free

/-- The variables that refer to a binder are at least as many as the mentions of its identity. -/
theorem mentions_le_of_lowerTree {tree : SharedTree ScalarKey} {chain : ScalarKey → List ScalarKey}
    {named : ScalarKey → Prop} {ids : List ScalarKey}
    (arranged : tree.Arranged (g.scalarView share) chain named key ids) {target : ScalarKey}
    {i : Nat} (name : named target) (unbound : target ∉ tree.binders)
    (index : scope.index target = .ok i) (run : around.lowerTree g scope tree = .ok e) :
    tree.mentions (g.scalarView share) target ≤ e.usage.scalars i := by
  induction arranged generalizing scope e i with
  | @bind id key rest bound body _ _ ihBound ihBody =>
    obtain ⟨bound', body', outer, inner, rfl⟩ := lowerTree_bind_eq_ok run
    simp only [SharedTree.binders_bind, List.mem_cons, List.mem_append, not_or] at unbound
    obtain ⟨different, notBound, notBody⟩ := unbound
    have first := ihBound notBound index outer
    have second := ihBody notBody (Scope.index_push index (Ne.symm different)) inner
    rw [ScalarTerm.usage_letIn, SharedTree.mentions_bind]
    exact Nat.add_le_add first second
  | @plain key operands keys withName below ih =>
    obtain ⟨node, fetched, _⟩ := bind_eq_ok_iff.mp run
    have found := Graph.scalarNode_eq_ok_iff.mp (LoweringError.ofFault_eq_ok_iff.mp fetched)
    have refs : (g.scalarView share).references key = node.operands :=
      View.references_eq (Graph.scalarOperands_eq found)
    obtain ⟨_, scalar, lowered, least⟩ := usage_of_lowerNode found run
    have nodup : (OrderedMap.keys operands).Nodup := keys ▸ nodup_firstSeen List.nodup_nil _
    have operand : ∀ entry ∈ operands, entry.1 ∈ node.operands ∧
        around.lowerTree g scope entry.2 = .ok (scalar entry.1) := by
      intro entry member
      have key : entry.1 ∈ OrderedMap.keys operands := List.mem_map_of_mem member
      rw [keys, mem_firstSeen, refs] at key
      have ref := key.resolve_left List.not_mem_nil
      have looked := (lowered entry.1 ref).1
      rw [lookup_lowerOperands] at looked
      obtain ⟨tree, here, run⟩ := Option.map_eq_some_iff.mp looked
      obtain rfl := Option.some.inj (here.symm.trans (OrderedMap.get?_of_mem nodup member))
      exact ⟨ref, run⟩
    -- An operand that is the target itself is a variable with its index; the others may mention it.
    let others (ref : ScalarKey) : Nat := if ref = target then 0 else (scalar ref).usage.scalars i
    have inside : (operands.map fun entry => entry.2.mentions (g.scalarView share) target).sum ≤
        (node.operands.map others).sum := by
      refine sum_entries_le (SharedTree.mentions (g.scalarView share) · target) (refs ▸ keys)
        fun entry member => ?_
      by_cases name' : named entry.1
      · rw [withName entry member name']
        exact Nat.zero_le _
      · have different : entry.1 ≠ target := fun same => name' (same ▸ name)
        have free : target ∉ entry.2.binders := by
          intro bound
          rw [SharedTree.binders_plain, List.mem_flatMap] at unbound
          exact unbound ⟨entry, member, bound⟩
        simp only [others, if_neg different]
        exact ih entry member name' free index (operand entry member).2
    have each : ∀ ref ∈ node.operands,
        (if ref == target then 1 else 0) + others ref ≤ (scalar ref).usage.scalars i := by
      intro ref member
      by_cases same : ref = target
      · subst same
        have key : ref ∈ OrderedMap.keys operands := by
          rw [keys, mem_firstSeen, refs]
          exact .inr member
        obtain ⟨entry, here, rfl⟩ := List.mem_map.mp key
        have asVar := (operand entry here).2
        rw [withName entry here name] at asVar
        obtain ⟨j, index', var⟩ := ScalarTerm.ofKey_eq_ok asVar
        obtain rfl := Except.ok.inj (index.symm.trans index')
        simp [others, var, ScalarTerm.usage_var, Term.usageForm]
      · simp [others, same]
    rw [SharedTree.mentions_plain, refs]
    calc node.operands.count target +
          (operands.map fun entry => entry.2.mentions (g.scalarView share) target).sum
        ≤ node.operands.count target + (node.operands.map others).sum :=
        Nat.add_le_add_left inside _
      _ = (node.operands.map fun ref => (if ref == target then 1 else 0) + others ref).sum := by
          rw [List.sum_map_add, List.count, View.countP_eq_sum]
      _ ≤ (node.operands.map fun ref => (scalar ref).usage.scalars i).sum := List.sum_le_sum each
      _ ≤ e.usage.scalars i := least i

private theorem thrifty_of_lowerParam (run : around.lowerParam scope key = .ok e) :
    e.usage.Thrifty := by
  obtain ⟨other, base, path, lowered, rfl⟩ := lowerParam_eq_ok run
  exact ScalarTerm.thrifty_project (ScalarTerm.thrifty_of_ofKey lowered) path

section Thrifty

variable (reads : ∀ xs t, around.array xs = .ok t → t.usage.Thrifty)
include reads

private theorem thrifty_of_lowerNode {operands : List (ScalarKey × Except LoweringError ScalarTerm)}
    (each : ∀ ref e, operands.lookup ref = some (.ok e) → e.usage.Thrifty)
    (run : around.lowerNode g scope key operands = .ok e) : e.usage.Thrifty := by
  obtain ⟨_, run⟩ | ⟨operation, lowered, _, mapped, rfl⟩ := lowerNode_eq_ok run
  · exact thrifty_of_lowerParam run
  · refine ScalarTerm.thrifty_op (ScalarOp.forall_of_mapM_eq_ok mapped ⟨?_, ?_⟩)
    · exact fun xs _ t => reads xs t
    · exact fun ref _ e lowered => each ref e (resultAt_eq_ok_iff.mp lowered)

theorem thrifty_of_lowerTree {tree : SharedTree ScalarKey}
    (used : ∀ id bound body, .bind id bound body ∈ tree.subtrees → ∀ (scope : Scope ScalarKey) e,
      around.lowerTree g (scope.push id) body = .ok e → 2 ≤ e.usage.scalars 0)
    (run : around.lowerTree g scope tree = .ok e) : e.usage.Thrifty := by
  induction tree generalizing scope e with
  | var key => exact ScalarTerm.thrifty_of_ofKey run
  | bind id bound body ihBound ihBody =>
    obtain ⟨bound', body', outer, inner, rfl⟩ := lowerTree_bind_eq_ok run
    rw [SharedTree.subtrees] at used
    have inBound := ihBound (fun id bound body inside =>
      used id bound body (List.mem_cons_of_mem _ (List.mem_append_left _ inside))) outer
    have inBody := ihBody (fun id bound body inside =>
      used id bound body (List.mem_cons_of_mem _ (List.mem_append_right _ inside))) inner
    exact ScalarTerm.thrifty_letIn inBound inBody (used _ _ _ List.mem_cons_self scope _ inner)
  | plain key operands ih =>
    refine thrifty_of_lowerNode reads (fun ref e looked => ?_) run
    rw [lookup_lowerOperands] at looked
    obtain ⟨operand, here, lowered⟩ := Option.map_eq_some_iff.mp looked
    have entry := OrderedMap.mem_of_get? here
    refine ih _ entry (fun id bound body inside => used id bound body ?_) lowered
    rw [SharedTree.subtrees_plain]
    exact List.mem_cons_of_mem _ (List.mem_flatMap.mpr ⟨_, entry, inside⟩)

theorem thrifty_of_lowerScalar (run : around.lowerScalar g share scope key = .ok e) :
    e.usage.Thrifty := by
  obtain ⟨tree, recovered, run⟩ := bind_eq_ok_iff.mp run
  rw [LoweringError.ofFault_eq_ok_iff] at recovered
  refine thrifty_of_lowerTree reads (fun id bound body binding scope e lowered => ?_) run
  have binds := SharedTree.mem_binders_of_binding binding
  cases share with
  | false =>
    have nameable := (View.stands_of_recover recovered).1.nameable_of_mem_binders binds
    exact absurd nameable (Graph.not_nameable_scalarView_false id)
  | true =>
    have leaves := g.trivialLeaves_scalarView
    have named := View.named_of_mem_binders leaves recovered binds
    have unbound := View.not_mem_binders_of_binding leaves recovered binding
    obtain ⟨_, _, arranged⟩ := View.arranged_of_binding leaves recovered binding
    calc 2 ≤ body.mentions (g.scalarView true) id :=
          View.two_le_mentions_of_recover leaves recovered binding
      _ ≤ e.usage.scalars 0 :=
          mentions_le_of_lowerTree arranged named unbound (Scope.index_push_self id) lowered

end Thrifty
end Surroundings

namespace Lowering

variable {l : Lowering} {share : Bool}

section Bodies

variable {array : ArrayKey → Except LoweringError ArrayTerm} {code : ScalarKey} {f : FunTerm}
  (lowers : l.LowersBody array code f)
include lowers

private theorem LowersBody.thrifty (reads : ∀ xs t, array xs = .ok t → t.usage.Thrifty) :
    f.usage.Thrifty := by
  obtain ⟨_, scope, e, run, rfl⟩ := lowers
  rw [Usage.Thrifty, FunTerm.lets_ofBody]
  refine Surroundings.thrifty_of_lowerScalar ?_ run
  exact reads

private theorem LowersBody.arrays_pos {reader : ScalarKey} {xs : ArrayKey} {t : ArrayTerm} {i : Nat}
    (reached : l.graph.ReachesScalar code reader) (read : xs ∈ l.graph.reads reader)
    (lowered : array xs = .ok t) (used : 0 < t.usage.arrays i) : 0 < f.usage.arrays i := by
  obtain ⟨_, scope, e, run, rfl⟩ := lowers
  rw [FunTerm.arrays_ofBody]
  refine Surroundings.arrays_pos_of_lowerScalar read ?_ used reached run
  exact lowered

end Bodies

variable {key : ArrayKey} {operands : List (ArrayKey × Except LoweringError ArrayTerm)}
  {t : ArrayTerm}

private theorem thrifty_of_lowerNode
    (each : ∀ ref t, operands.lookup ref = some (.ok t) → t.usage.Thrifty)
    (run : l.lowerNode key operands = .ok t) : t.usage.Thrifty := by
  obtain ⟨node, lowered, _, mapped, rfl⟩ := lowerNode_eq_ok run
  have reads : ∀ ref t, (reading operands).array ref = .ok t → t.usage.Thrifty :=
    fun ref t found => each ref t (resultAt_eq_ok_iff.mp found)
  refine ArrayTerm.thrifty_op (ArrayOp.forall_of_mapM_eq_ok mapped fun part _ => ?_)
  cases part with
  | array xs => exact reads xs
  | scalar e => exact fun _ => Surroundings.thrifty_of_lowerScalar reads
  | function f => exact fun _ run => (lowersBody_of_lowerLambda run).thrifty reads
  | stencil f => exact fun _ run => (lowersBody_of_lowerStencil run).thrifty reads

private theorem arrays_pos_of_lowerNode {refs : List ArrayKey}
    (listed : (l.graph.arrayView share).operands key = .ok refs) {ref : ArrayKey}
    (member : ref ∈ refs) {u : ArrayTerm} (looked : operands.lookup ref = some (.ok u)) {i : Nat}
    (used : 0 < u.usage.arrays i) (run : l.lowerNode key operands = .ok t) :
    0 < t.usage.arrays i := by
  obtain ⟨node, found, code, rfl⟩ := (Graph.arrayOperands_eq_ok_iff l.shareScalars).mp listed
  obtain ⟨node', lowered, found', mapped, rfl⟩ := lowerNode_eq_ok run
  obtain rfl := Option.some.inj (found.symm.trans found')
  obtain ⟨array, scalar, function, stencil, values, equal⟩ :=
    ArrayOp.exists_mapM_eq (ArrayOp.forall_of_mapM bind_eq_ok_iff.mp mapped)
  obtain rfl := Except.ok.inj (equal.symm.trans mapped)
  have reads : (reading operands).array ref = .ok u := resultAt_eq_ok_iff.mpr looked
  have enough : ∀ part ∈ node.parts,
      0 < (ArrayTerm.partUsage (part.map array scalar function stencil)).arrays i →
      0 < (ArrayTerm.op (node.mapOperands array scalar function stencil)).usage.arrays i := by
    intro part inside positive
    refine positive.trans_le (ArrayTerm.arrays_le_op ?_ i)
    rw [ArrayOp.parts_mapOperands]
    exact List.mem_map_of_mem inside
  rcases List.mem_append.mp member with operand | below
  · obtain ⟨part, inside, here⟩ := List.mem_filterMap.mp operand
    apply enough part inside
    cases part with
    | array xs =>
      obtain rfl := Option.some.inj here
      obtain rfl := Except.ok.inj (reads.symm.trans (values _ inside))
      exact used
    | _ => cases here
  · obtain ⟨e, inCode, below⟩ := List.mem_flatMap.mp below
    obtain ⟨reader, reached, read⟩ := (Graph.mem_readBelow (code e inCode).1).mp below
    obtain ⟨part, inside, here⟩ := List.mem_filterMap.mp inCode
    have value := values part inside
    apply enough part inside
    cases part with
    | array xs => cases here
    | scalar e' =>
      obtain rfl := Option.some.inj here
      exact Surroundings.arrays_pos_of_lowerScalar read reads used reached value
    | function f =>
      obtain rfl := Option.some.inj here
      exact (lowersBody_of_lowerLambda value).arrays_pos reached read reads used
    | stencil f =>
      obtain rfl := Option.some.inj here
      exact (lowersBody_of_lowerStencil value).arrays_pos reached read reads used

private theorem arrays_pos_of_lowerTree {tree : SharedTree ArrayKey}
    {chain : ArrayKey → List ArrayKey} {named : ArrayKey → Prop} {ids : List ArrayKey}
    (arranged : tree.Arranged (l.graph.arrayView share) chain named key ids) {target : ArrayKey}
    (free : target ∈ tree.free) {scope : Scope ArrayKey} {i : Nat}
    (index : scope.index target = .ok i) (run : l.lowerTree scope tree = .ok t) :
    0 < t.usage.arrays i := by
  induction arranged generalizing scope t i with
  | @bind id key rest bound body _ _ ihBound ihBody =>
    obtain ⟨bound', body', outer, inner, rfl⟩ := lowerTree_bind_eq_ok run
    rw [ArrayTerm.usage_letIn]
    rcases SharedTree.mem_free_bind.mp free with inBound | ⟨inBody, different⟩
    · exact Nat.add_pos_left (ihBound inBound index outer) _
    · exact Nat.add_pos_right _ (ihBody inBody (Scope.index_push index (Ne.symm different)) inner)
  | @plain key operands keys withName below ih =>
    obtain ⟨entry, member, inside⟩ := SharedTree.mem_free_plain.mp free
    have nodup : (OrderedMap.keys operands).Nodup := keys ▸ nodup_firstSeen List.nodup_nil _
    have ref : entry.1 ∈ (l.graph.arrayView share).references key := by
      have key : entry.1 ∈ OrderedMap.keys operands := List.mem_map_of_mem member
      rw [keys, mem_firstSeen] at key
      exact key.resolve_left List.not_mem_nil
    obtain ⟨refs, listed, ref⟩ := View.mem_references.mp ref
    obtain ⟨node, found, _⟩ := (Graph.arrayOperands_eq_ok_iff l.shareScalars).mp listed
    obtain ⟨_, lowered⟩ := (exists_lowerNode_iff found listed).mp ⟨t, run⟩
    obtain ⟨u, looked⟩ := lowered entry.1 ref
    refine arrays_pos_of_lowerNode listed ref looked ?_ run
    rw [lookup_lowerOperands] at looked
    obtain ⟨operand, here, lowered⟩ := Option.map_eq_some_iff.mp looked
    obtain rfl := Option.some.inj (here.symm.trans (OrderedMap.get?_of_mem nodup member))
    by_cases name : named entry.1
    · rw [withName entry member name] at inside lowered
      obtain rfl := SharedTree.mem_free_var.mp inside
      obtain ⟨j, index', run⟩ := bind_eq_ok_iff.mp lowered
      rw [LoweringError.ofFault_eq_ok_iff] at index'
      rw [pure_eq_ok_iff] at run
      obtain rfl := Except.ok.inj (index.symm.trans index')
      simp [← run, ArrayTerm.usage_var, Term.usageForm]
    · exact ih entry member name inside index lowered

theorem thrifty_of_lowerTree {tree : SharedTree ArrayKey}
    (used : ∀ id bound body, .bind id bound body ∈ tree.subtrees → ∀ (scope : Scope ArrayKey) t,
      l.lowerTree (scope.push id) body = .ok t → 0 < t.usage.arrays 0) {scope : Scope ArrayKey}
    (run : l.lowerTree scope tree = .ok t) : t.usage.Thrifty := by
  induction tree generalizing scope t with
  | var key =>
    obtain ⟨i, _, run⟩ := bind_eq_ok_iff.mp run
    rw [pure_eq_ok_iff] at run
    rw [← run, ArrayTerm.usage_var]
    exact nofun
  | bind id bound body ihBound ihBody =>
    obtain ⟨bound', body', outer, inner, rfl⟩ := lowerTree_bind_eq_ok run
    rw [SharedTree.subtrees] at used
    have inBound := ihBound (fun id bound body inside =>
      used id bound body (List.mem_cons_of_mem _ (List.mem_append_left _ inside))) outer
    have inBody := ihBody (fun id bound body inside =>
      used id bound body (List.mem_cons_of_mem _ (List.mem_append_right _ inside))) inner
    exact ArrayTerm.thrifty_letIn inBound inBody (used _ _ _ List.mem_cons_self scope _ inner)
  | plain key operands ih =>
    refine thrifty_of_lowerNode (fun ref t looked => ?_) run
    rw [lookup_lowerOperands] at looked
    obtain ⟨operand, here, lowered⟩ := Option.map_eq_some_iff.mp looked
    have entry := OrderedMap.mem_of_get? here
    refine ih _ entry (fun id bound body inside => used id bound body ?_) lowered
    rw [SharedTree.subtrees_plain]
    exact List.mem_cons_of_mem _ (List.mem_flatMap.mpr ⟨_, entry, inside⟩)

end Lowering

namespace Graph

/-- Every `let` of a lowered program is used: one of an array at least once, one of a scalar at
least twice. Variables inside scalar code count for the arrays that they refer to. -/
theorem uses_of_lower {g : Graph} {options : Options} {root : ArrayKey} {t : ArrayTerm}
    (run : g.lower options root = .ok t) : ∀ binding ∈ t.usage.lets,
      (binding.level = .array → 1 ≤ binding.uses) ∧
      (binding.level = .scalar → 2 ≤ binding.uses) := by
  obtain ⟨tree, recovered, lowered⟩ := lower_eq_ok run
  refine Lowering.thrifty_of_lowerTree (fun id bound body binding scope t lowered => ?_) lowered
  have binds := SharedTree.mem_binders_of_binding binding
  cases shared : options.shareArrays with
  | false =>
    rw [shared] at recovered
    have nameable := (View.stands_of_recover recovered).1.nameable_of_mem_binders binds
    exact absurd nameable (not_nameable_arrayView_false id)
  | true =>
    rw [shared] at recovered
    obtain ⟨_, _, arranged⟩ := View.arranged_of_binding g.trivialLeaves_arrayView recovered binding
    obtain ⟨_, _, _, _, _, _, thin⟩ := View.recover_eq_ok recovered
    have free := SharedTree.mem_free_of_binding thin binding
    exact Lowering.arrays_pos_of_lowerTree arranged free (Scope.index_push_self id) lowered

/-- The array that a function reads twice through a scalar node has one variable, since the scalar
node is bound; the scalar node has two. -/
theorem uses_of_lower_shared_reader :
    let s (i : Nat) : ScalarKey := ⟨i⟩
    let a (i : Nat) : ArrayKey := ⟨i⟩
    let g : Graph := ⟨⟨#[.use ⟨[], [.bool true]⟩, .unit (s 1), .map ⟨[s 2], s 4⟩ (a 0)]⟩,
      ⟨#[.op (.size (a 0)), .op (.tuple [s 0, s 0]), .param, .op (.index (a 1) (s 2)),
        .op (.tuple [s 3, s 2, s 3])]⟩⟩
    let found : List LetUse := [⟨.array, 2⟩, ⟨.array, 1⟩, ⟨.scalar, 2⟩, ⟨.scalar, 2⟩]
    ∃ t, g.lower {} (a 2) = .ok t ∧ t.usage.lets = found ∧ ∀ binding ∈ found,
      (binding.level = .array → 1 ≤ binding.uses) ∧
      (binding.level = .scalar → 2 ≤ binding.uses) := by
  intro s a g found
  obtain ⟨t, run, listed⟩ : ∃ t, g.lower {} (a 2) = .ok t ∧ t.usage.lets = found := by
    subst found g a s
    exact ⟨_, rfl, rfl⟩
  exact ⟨t, run, listed, listed ▸ uses_of_lower run⟩

end Graph
end SharingRecovery
