import SharingRecovery.Lowering.Basic
import SharingRecovery.Proofs.Inlining
import SharingRecovery.Proofs.Lowered
import SharingRecovery.Proofs.Subtrees

set_option autoImplicit false

/-!
Lowered programs are closed. Every variable of a term is listed with the number of binders of its
kind around it; the check of a term accepts it exactly if each index is below that number. Lowering
takes every index from a scope that has one key for each of these binders.
-/

namespace SharingRecovery

/-- A variable of a term: its kind, its index, and the number of binders of its kind around it. -/
structure Occurrence where
  level : Level
  index : Nat
  depth : Nat
  deriving DecidableEq

namespace Term

/-- The variables of a term from left to right, as a function of the number of array binders around
it and, for scalar code, the number of scalar binders. Each scalar operand and each function starts
with no scalar binder. -/
def occurrencesForm :
    Algebra (Nat → List Occurrence) (Nat → Nat → List Occurrence)
      (Nat → Nat → List Occurrence) where
  arrayLet bound body := fun arrays => bound arrays ++ body (arrays + 1)
  arrayVar i := fun arrays => [⟨.array, i, arrays⟩]
  arrayOp op := fun arrays => op.parts.flatMap fun
    | .array t => t arrays
    | .scalar e => e arrays 0
    | .function f => f arrays 0
    | .stencil f => f arrays 0
  lam inner := fun arrays scalars => inner arrays (scalars + 1)
  body e := e
  scalarLet bound body := fun arrays scalars => bound arrays scalars ++ body arrays (scalars + 1)
  scalarVar i := fun _ scalars => [⟨.scalar, i, scalars⟩]
  scalarOp op := fun arrays scalars =>
    op.array?.toList.flatMap (· arrays) ++ op.scalars.flatMap (· arrays scalars)

end Term

def ArrayTerm.occurrences (t : ArrayTerm) : List Occurrence :=
  t.fold Term.occurrencesForm 0

def ArrayTerm.Scoped (arrays : Nat) (t : ArrayTerm) : Prop :=
  ∀ v ∈ t.fold Term.occurrencesForm arrays, v.index < v.depth

def FunTerm.Scoped (arrays scalars : Nat) (f : FunTerm) : Prop :=
  ∀ v ∈ f.fold Term.occurrencesForm arrays scalars, v.index < v.depth

def ScalarTerm.Scoped (arrays scalars : Nat) (e : ScalarTerm) : Prop :=
  ∀ v ∈ e.fold Term.occurrencesForm arrays scalars, v.index < v.depth

variable {arrays scalars : Nat}

namespace ArrayTerm

theorem scoped_letIn {bound body : ArrayTerm} :
    (letIn bound body).Scoped arrays ↔ bound.Scoped arrays ∧ body.Scoped (arrays + 1) := by
  simp only [Scoped, fold]
  exact List.forall_mem_append

theorem scoped_var {i : Nat} : (var i).Scoped arrays ↔ i < arrays := by
  simp only [Scoped, fold]
  exact List.forall_mem_singleton

theorem scoped_op {op : ArrayOp ArrayTerm ScalarTerm FunTerm FunTerm} :
    (ArrayTerm.op op).Scoped arrays ↔ op.Forall (Scoped arrays) (ScalarTerm.Scoped arrays 0)
      (FunTerm.Scoped arrays 0) (FunTerm.Scoped arrays 0) := by
  rw [Scoped, fold_op]
  simp only [Term.occurrencesForm, ArrayOp.parts_mapOperands, List.flatMap_map, List.mem_flatMap]
  constructor
  · intro all part member
    cases part <;> exact fun v inside => all v ⟨_, member, inside⟩
  · rintro each v ⟨part, member, inside⟩
    have bounded := each part member
    cases part <;> exact bounded v inside

end ArrayTerm

namespace FunTerm

theorem scoped_lam {inner : FunTerm} :
    (lam inner).Scoped arrays scalars ↔ inner.Scoped arrays (scalars + 1) := by
  simp only [Scoped, fold]
  exact Iff.rfl

theorem scoped_body {e : ScalarTerm} :
    (body e).Scoped arrays scalars ↔ e.Scoped arrays scalars := by
  simp only [Scoped, fold]
  exact Iff.rfl

theorem scoped_ofBody (n : Nat) {e : ScalarTerm} :
    (ofBody n e).Scoped arrays scalars ↔ e.Scoped arrays (scalars + n) := by
  induction n generalizing scalars with
  | zero => exact scoped_body
  | succ n ih => rw [ofBody, scoped_lam, ih, Nat.add_assoc, Nat.add_comm 1 n]

end FunTerm

namespace ScalarTerm

theorem scoped_letIn {bound body : ScalarTerm} : (letIn bound body).Scoped arrays scalars ↔
    bound.Scoped arrays scalars ∧ body.Scoped arrays (scalars + 1) := by
  simp only [Scoped, fold]
  exact List.forall_mem_append

theorem scoped_var {i : Nat} : (var i).Scoped arrays scalars ↔ i < scalars := by
  simp only [Scoped, fold]
  exact List.forall_mem_singleton

theorem scoped_op {op : ScalarOp ArrayTerm ScalarTerm} : (ScalarTerm.op op).Scoped arrays scalars ↔
    op.Forall (ArrayTerm.Scoped arrays) (Scoped arrays scalars) := by
  rw [Scoped, fold_op]
  simp only [Term.occurrencesForm, ScalarOp.array?_mapOperands, ScalarOp.scalars_mapOperands,
    List.forall_mem_append, List.mem_flatMap, List.flatMap_map]
  refine and_congr ?_ ?_
  · constructor
    · intro all t here v inside
      exact all v ⟨_, Option.mem_toList.mpr (Option.mem_map_of_mem _ here), inside⟩
    · rintro each v ⟨_, here, inside⟩
      obtain ⟨t, member, rfl⟩ := Option.mem_map.mp (Option.mem_toList.mp here)
      exact each t member v inside
  · constructor
    · intro all e here v inside
      exact all v ⟨e, here, inside⟩
    · rintro each v ⟨e, here, inside⟩
      exact each e here v inside

private theorem Scoped.project {e : ScalarTerm} (bounded : e.Scoped arrays scalars) (path : Path) :
    (e.project path).Scoped arrays scalars := by
  induction path generalizing e with
  | nil => exact bounded
  | cons i path ih =>
    have one : (ScalarTerm.op (.prj i e)).Scoped arrays scalars :=
      scoped_op.mpr ⟨by simp [ScalarOp.array?], List.forall_mem_singleton.mpr bounded⟩
    exact ih one

end ScalarTerm

namespace Term

def checkOccurrence (v : Occurrence) : Except ScopeError Unit :=
  checkVar v.level v.index v.depth

theorem checkOccurrence_eq_ok_iff {v : Occurrence} :
    checkOccurrence v = .ok () ↔ v.index < v.depth := by
  unfold checkOccurrence checkVar
  split <;> simp [*]

theorem checkOccurrence_eq_error_iff {v : Occurrence} {e : ScopeError} :
    checkOccurrence v = .error e ↔ v.depth ≤ v.index ∧ e = ⟨v.level, v.index, v.depth⟩ := by
  unfold checkOccurrence checkVar
  split
  · rename_i below
    exact iff_of_false nofun fun out => Nat.not_le.mpr below out.1
  · rename_i out
    rw [Except.error.injEq, eq_comm, and_iff_right (Nat.not_lt.mp out)]

theorem check_eq_forM :
    (∀ (t : ArrayTerm) (arrays : Nat),
      t.fold checkForm arrays = forM (t.fold occurrencesForm arrays) checkOccurrence) ∧
    (∀ (f : FunTerm) (arrays scalars : Nat),
      f.fold checkForm arrays scalars =
      forM (f.fold occurrencesForm arrays scalars) checkOccurrence) ∧
    ∀ (e : ScalarTerm) (arrays scalars : Nat),
      e.fold checkForm arrays scalars =
        forM (e.fold occurrencesForm arrays scalars) checkOccurrence := by
  refine Term.induction _ _ _ ?_ ?_ ?_ ?_ ?_ ?_ ?_ ?_
  · intro bound body one two arrays
    rw [ArrayTerm.fold, ArrayTerm.fold]
    refine Eq.trans ?_ List.forM_append.symm
    rw [← one, ← two]
    rfl
  · intro i arrays
    rw [ArrayTerm.fold, ArrayTerm.fold]
    simp [checkForm, occurrencesForm, checkOccurrence]
  · intro op each arrays
    rw [ArrayTerm.fold_op, ArrayTerm.fold_op]
    refine (ArrayOp.mapM_done _ _ _ _ _).trans ?_
    simp only [occurrencesForm, ArrayOp.parts_mapOperands, List.forM_map, List.flatMap_map]
    refine forM_flatMap_eq fun part member => ?_
    have here := each part member
    cases part with
    | array t => exact here arrays
    | scalar e => exact here arrays 0
    | function f => exact here arrays 0
    | stencil f => exact here arrays 0
  · intro inner here arrays scalars
    rw [FunTerm.fold, FunTerm.fold]
    exact here arrays (scalars + 1)
  · intro e here arrays scalars
    rw [FunTerm.fold, FunTerm.fold]
    exact here arrays scalars
  · intro bound body one two arrays scalars
    rw [ScalarTerm.fold, ScalarTerm.fold]
    refine Eq.trans ?_ List.forM_append.symm
    rw [← one, ← two]
    rfl
  · intro i arrays scalars
    rw [ScalarTerm.fold, ScalarTerm.fold]
    simp [checkForm, occurrencesForm, checkOccurrence]
  · intro op each arrays scalars
    rw [ScalarTerm.fold_op, ScalarTerm.fold_op]
    refine (ScalarOp.mapM_done _ _ _).trans ?_
    simp only [occurrencesForm, ScalarOp.array?_mapOperands, ScalarOp.scalars_mapOperands,
      Option.toList_map, List.forM_map, List.flatMap_map, List.forM_append]
    rw [forM_flatMap_eq fun t member => each.1 t (Option.mem_toList.mp member) arrays,
      forM_flatMap_eq fun e member => each.2 e member arrays scalars]
    rfl

private theorem checkOccurrences_eq_ok_iff {vs : List Occurrence} :
    forM vs checkOccurrence = .ok () ↔ ∀ v ∈ vs, v.index < v.depth := by
  rw [forM_eq_ok_iff]
  exact forall₂_congr fun _ _ => checkOccurrence_eq_ok_iff

theorem check_eq_ok_iff :
    (∀ (t : ArrayTerm) (arrays : Nat), t.fold checkForm arrays = .ok () ↔ t.Scoped arrays) ∧
    (∀ (f : FunTerm) (arrays scalars : Nat),
      f.fold checkForm arrays scalars = .ok () ↔ f.Scoped arrays scalars) ∧
    ∀ (e : ScalarTerm) (arrays scalars : Nat),
      e.fold checkForm arrays scalars = .ok () ↔ e.Scoped arrays scalars := by
  refine ⟨fun t arrays => ?_, fun f arrays scalars => ?_, fun e arrays scalars => ?_⟩
  · rw [check_eq_forM.1]
    exact checkOccurrences_eq_ok_iff
  · rw [check_eq_forM.2.1]
    exact checkOccurrences_eq_ok_iff
  · rw [check_eq_forM.2.2]
    exact checkOccurrences_eq_ok_iff

end Term

theorem Scope.index_lt {κ : Type} [DecidableEq κ] {scope : Scope κ} {key : κ} {i : Nat}
    (found : scope.index key = .ok i) : i < scope.depth := by
  rw [index, Fault.require_eq_ok_iff, index?] at found
  obtain ⟨inside, _⟩ := List.idxOf?_eq_some_iff.mp found
  exact inside

private theorem ScalarTerm.scoped_of_ofKey {scope : Scope ScalarKey} {key : ScalarKey}
    {e : ScalarTerm} (run : ofKey scope key = .ok e) : e.Scoped arrays scope.depth := by
  obtain ⟨i, found, rfl⟩ := ofKey_eq_ok run
  exact scoped_var.mpr (Scope.index_lt found)

namespace Surroundings

variable {around : Surroundings} {g : Graph}

private theorem scoped_of_lowerParam {scope : Scope ScalarKey} {key : ScalarKey} {e : ScalarTerm}
    (run : around.lowerParam scope key = .ok e) : e.Scoped arrays scope.depth := by
  obtain ⟨other, base, path, lowered, rfl⟩ := lowerParam_eq_ok run
  exact ScalarTerm.Scoped.project (ScalarTerm.scoped_of_ofKey lowered) path

variable (reads : ∀ key t, around.array key = .ok t → t.Scoped arrays)
include reads

private theorem scoped_of_lowerNode {scope : Scope ScalarKey} {key : ScalarKey}
    {operands : List (ScalarKey × Except LoweringError ScalarTerm)}
    (each : ∀ ref e, operands.lookup ref = some (.ok e) → e.Scoped arrays scope.depth)
    {e : ScalarTerm} (run : around.lowerNode g scope key operands = .ok e) :
    e.Scoped arrays scope.depth := by
  obtain ⟨_, run⟩ | ⟨operation, lowered, _, mapped, rfl⟩ := lowerNode_eq_ok run
  · exact scoped_of_lowerParam run
  · refine ScalarTerm.scoped_op.mpr (ScalarOp.forall_of_mapM_eq_ok mapped ⟨?_, ?_⟩)
    · exact fun xs _ t => reads xs t
    · exact fun ref _ e lowered => each ref e (resultAt_eq_ok_iff.mp lowered)

theorem scoped_of_lowerTree {tree : SharedTree ScalarKey} {scope : Scope ScalarKey} {e : ScalarTerm}
    (run : around.lowerTree g scope tree = .ok e) : e.Scoped arrays scope.depth := by
  induction tree generalizing scope e with
  | var key => exact ScalarTerm.scoped_of_ofKey run
  | bind key bound body ihBound ihBody =>
    obtain ⟨bound', body', lowered, lowered', rfl⟩ := lowerTree_bind_eq_ok run
    have outer := ihBound lowered
    have inner := ihBody lowered'
    exact ScalarTerm.scoped_letIn.mpr ⟨outer, inner⟩
  | plain key operands ih =>
    refine scoped_of_lowerNode reads (fun ref e looked => ?_) run
    rw [lookup_lowerOperands] at looked
    obtain ⟨operand, here, lowered⟩ := Option.map_eq_some_iff.mp looked
    exact ih _ (OrderedMap.mem_of_get? here) lowered

private theorem scoped_of_lowerScalar {share : Bool} {scope : Scope ScalarKey} {root : ScalarKey}
    {e : ScalarTerm} (run : around.lowerScalar g share scope root = .ok e) :
    e.Scoped arrays scope.depth := by
  obtain ⟨tree, _, run⟩ := bind_eq_ok_iff.mp run
  exact scoped_of_lowerTree reads run

end Surroundings

namespace Lowering

variable {l : Lowering}

private theorem LowersBody.scoped {array : ArrayKey → Except LoweringError ArrayTerm}
    {code : ScalarKey} {f : FunTerm} (lowers : l.LowersBody array code f)
    (reads : ∀ key t, array key = .ok t → t.Scoped arrays) : f.Scoped arrays 0 := by
  obtain ⟨_, scope, e, run, rfl⟩ := lowers
  rw [FunTerm.scoped_ofBody, Nat.zero_add]
  refine Surroundings.scoped_of_lowerScalar ?_ run
  exact reads

private theorem scoped_of_lowerNode {key : ArrayKey}
    {operands : List (ArrayKey × Except LoweringError ArrayTerm)}
    (each : ∀ ref t, operands.lookup ref = some (.ok t) → t.Scoped arrays) {t : ArrayTerm}
    (run : l.lowerNode key operands = .ok t) : t.Scoped arrays := by
  obtain ⟨node, lowered, _, mapped, rfl⟩ := lowerNode_eq_ok run
  have reads : ∀ ref t, (reading operands).array ref = .ok t → t.Scoped arrays :=
    fun ref t found => each ref t (resultAt_eq_ok_iff.mp found)
  refine ArrayTerm.scoped_op.mpr (ArrayOp.forall_of_mapM_eq_ok mapped fun part _ => ?_)
  cases part with
  | array xs => exact reads xs
  | scalar e => exact fun _ => Surroundings.scoped_of_lowerScalar reads
  | function f => exact fun _ run => (lowersBody_of_lowerLambda run).scoped reads
  | stencil f => exact fun _ run => (lowersBody_of_lowerStencil run).scoped reads

theorem scoped_of_lowerTree {tree : SharedTree ArrayKey} {scope : Scope ArrayKey} {t : ArrayTerm}
    (run : l.lowerTree scope tree = .ok t) : t.Scoped scope.depth := by
  induction tree generalizing scope t with
  | var key =>
    obtain ⟨i, found, rfl⟩ := lowerTree_var_eq_ok run
    exact ArrayTerm.scoped_var.mpr (Scope.index_lt found)
  | bind key bound body ihBound ihBody =>
    obtain ⟨bound', body', lowered, lowered', rfl⟩ := lowerTree_bind_eq_ok run
    have outer := ihBound lowered
    have inner := ihBody lowered'
    exact ArrayTerm.scoped_letIn.mpr ⟨outer, inner⟩
  | plain key operands ih =>
    refine scoped_of_lowerNode (fun ref t looked => ?_) run
    rw [lookup_lowerOperands] at looked
    obtain ⟨operand, here, lowered⟩ := Option.map_eq_some_iff.mp looked
    exact ih _ (OrderedMap.mem_of_get? here) lowered

end Lowering

private theorem LoweringError.ofFault_ne_scope {α : Type} {x : Except Fault α} {e : ScopeError} :
    ofFault x ≠ .error (.scope e) := by
  cases x <;> simp [ofFault, Except.mapError]

private theorem ScalarTerm.ofKey_ne_scope {scope : Scope ScalarKey} {key : ScalarKey}
    {e : ScopeError} : ofKey scope key ≠ .error (.scope e) :=
  bind_ne_error LoweringError.ofFault_ne_scope fun _ _ => pure_ne_error

namespace Surroundings

variable {around : Surroundings} {g : Graph} {e : ScopeError}

private theorem lowerParam_ne_scope {scope : Scope ScalarKey} {key : ScalarKey} :
    around.lowerParam scope key ≠ .error (.scope e) := by
  rw [lowerParam]
  split
  · exact ScalarTerm.ofKey_ne_scope
  · split
    · exact ScalarTerm.ofKey_ne_scope
    · exact bind_ne_error ScalarTerm.ofKey_ne_scope fun _ _ => pure_ne_error

variable (reads : ∀ key, around.array key ≠ .error (.scope e))
include reads

private theorem lowerNode_ne_scope {scope : Scope ScalarKey} {key : ScalarKey}
    {operands : List (ScalarKey × Except LoweringError ScalarTerm)}
    (each : ∀ ref, operands.lookup ref ≠ some (.error (.scope e))) :
    around.lowerNode g scope key operands ≠ .error (.scope e) := by
  intro failed
  obtain missing | ⟨node, fetched, _⟩ := bind_eq_error_iff.mp failed
  · exact LoweringError.ofFault_ne_scope missing
  have found := Graph.scalarNode_eq_ok_iff.mp (LoweringError.ofFault_eq_ok_iff.mp fetched)
  cases node with
  | param =>
    rw [lowerNode_of_param found] at failed
    exact lowerParam_ne_scope failed
  | op operation =>
    rw [lowerNode_of_op found] at failed
    refine bind_ne_error (ScalarOp.mapM_ne_error ⟨fun xs _ => reads xs, ?_⟩)
      (fun _ _ => pure_ne_error) failed
    exact fun ref _ => resultAt_ne_error (each ref) nofun

theorem lowerTree_ne_scope {tree : SharedTree ScalarKey} {scope : Scope ScalarKey} :
    around.lowerTree g scope tree ≠ .error (.scope e) := by
  induction tree generalizing scope with
  | var key => exact ScalarTerm.ofKey_ne_scope
  | bind key bound body ihBound ihBody =>
    exact bind_ne_error ihBound fun _ _ => bind_ne_error ihBody fun _ _ => pure_ne_error
  | plain key operands ih =>
    refine lowerNode_ne_scope reads fun ref looked => ?_
    rw [lookup_lowerOperands] at looked
    obtain ⟨operand, here, failed⟩ := Option.map_eq_some_iff.mp looked
    exact ih _ (OrderedMap.mem_of_get? here) failed

private theorem lowerScalar_ne_scope {share : Bool} {scope : Scope ScalarKey} {root : ScalarKey} :
    around.lowerScalar g share scope root ≠ .error (.scope e) :=
  bind_ne_error LoweringError.ofFault_ne_scope fun _ _ => lowerTree_ne_scope reads

end Surroundings

namespace Lowering

variable {l : Lowering} {e : ScopeError}

private theorem lowerNode_ne_scope {key : ArrayKey}
    {operands : List (ArrayKey × Except LoweringError ArrayTerm)}
    (each : ∀ ref, operands.lookup ref ≠ some (.error (.scope e))) :
    l.lowerNode key operands ≠ .error (.scope e) := by
  intro failed
  obtain missing | ⟨node, fetched, _⟩ := bind_eq_error_iff.mp failed
  · exact LoweringError.ofFault_ne_scope missing
  have found := Graph.arrayNode_eq_ok_iff.mp (LoweringError.ofFault_eq_ok_iff.mp fetched)
  rw [lowerNode_of_found found] at failed
  have reads : ∀ ref, (reading operands).array ref ≠ .error (.scope e) :=
    fun ref => resultAt_ne_error (each ref) nofun
  refine bind_ne_error (ArrayOp.mapM_ne_error fun part _ => ?_) (fun _ _ => pure_ne_error) failed
  cases part with
  | array xs => exact reads xs
  | scalar e => exact Surroundings.lowerScalar_ne_scope reads
  | function f =>
    exact bind_ne_error (Surroundings.lowerScalar_ne_scope reads) fun _ _ => pure_ne_error
  | stencil f =>
    change l.lowerStencil _ f ≠ _
    rw [lowerStencil]
    dsimp only
    split
    · simp
    · refine bind_ne_error (Surroundings.lowerScalar_ne_scope ?_) fun _ _ => pure_ne_error
      exact reads

theorem lowerTree_ne_scope {tree : SharedTree ArrayKey} {scope : Scope ArrayKey} :
    l.lowerTree scope tree ≠ .error (.scope e) := by
  induction tree generalizing scope with
  | var key => exact bind_ne_error LoweringError.ofFault_ne_scope fun _ _ => pure_ne_error
  | bind key bound body ihBound ihBody =>
    exact bind_ne_error ihBound fun _ _ => bind_ne_error ihBody fun _ _ => pure_ne_error
  | plain key operands ih =>
    refine lowerNode_ne_scope fun ref looked => ?_
    rw [lookup_lowerOperands] at looked
    obtain ⟨operand, here, failed⟩ := Option.map_eq_some_iff.mp looked
    exact ih _ (OrderedMap.mem_of_get? here) failed

end Lowering

namespace Graph

theorem lower_eq (g : Graph) (options : Options) (root : ArrayKey) : g.lower options root =
    g.recoverArrays options root >>=
      Lowering.lowerTree ⟨g, options.tuples, options.shareScalars⟩ .empty := by
  refine bind_congr fun tree => ?_
  cases lowered : Lowering.lowerTree ⟨g, options.tuples, options.shareScalars⟩ .empty tree with
  | error failure => rfl
  | ok t =>
    have closed : t.checkClosed = .ok () :=
      (Term.check_eq_ok_iff.1 t 0).mpr (Lowering.scoped_of_lowerTree lowered)
    have accepted : t.checkClosed.mapError LoweringError.scope = .ok () := by
      rw [closed]
      rfl
    change (if options.checked then t.checkClosed.mapError LoweringError.scope >>= fun _ => .ok t
      else .ok t) = _
    rw [accepted]
    exact ite_self _

/-- Every variable of a lowered program has a binder of its kind, in scalar code within its own
operand or function. The check of the result therefore changes nothing, and never fails. -/
theorem closed_of_lower (g : Graph) (options : Options) (root : ArrayKey) :
    (∀ t, g.lower { options with checked := false } root = .ok t →
      t.checkClosed = .ok () ∧ ∀ v ∈ t.occurrences, v.index < v.depth) ∧
    g.lower { options with checked := true } root = g.lower { options with checked := false } root ∧
    ∀ e, g.lower options root ≠ .error (.scope e) := by
  refine ⟨fun t run => ?_, ?_, fun e => ?_⟩
  · obtain ⟨tree, _, lowered⟩ := lower_eq_ok run
    have bounded : t.Scoped 0 := Lowering.scoped_of_lowerTree lowered
    exact ⟨(Term.check_eq_ok_iff.1 t 0).mpr bounded, bounded⟩
  · rw [lower_eq, lower_eq]
    rfl
  · rw [lower_eq]
    exact bind_ne_error LoweringError.ofFault_ne_scope fun _ _ => Lowering.lowerTree_ne_scope

/-- A function with one parameter given twice that reads an array bound further out, and a stencil
with one neighbour given three times: scalar indices restart inside each function. -/
theorem closed_of_lower_repeated_params :
    let s (i : Nat) : ScalarKey := ⟨i⟩
    let a (i : Nat) : ArrayKey := ⟨i⟩
    let g : Graph := ⟨⟨#[.use ⟨[], [.bool true]⟩,
        .stencil ⟨⟨[3]⟩, s 0, [s 1, s 1, s 1], s 2⟩ .clamp (a 0),
        .zipWith ⟨[s 0, s 0], s 5⟩ (a 1) (a 1)]⟩,
      ⟨#[.param, .param, .op (.tuple [s 1, s 0]), .op (.size (a 0)), .op (.tuple [s 0, s 3]),
        .op (.tuple [s 4, s 4])]⟩⟩
    let found : List Occurrence :=
      [⟨.scalar, 0, 1⟩, ⟨.scalar, 0, 1⟩, ⟨.array, 0, 1⟩, ⟨.scalar, 0, 2⟩, ⟨.array, 1, 2⟩,
        ⟨.scalar, 0, 3⟩, ⟨.scalar, 0, 3⟩, ⟨.array, 0, 2⟩, ⟨.array, 0, 2⟩]
    ∃ t, g.lower {} (a 2) = .ok t ∧ g.lower { checked := true } (a 2) = .ok t ∧
      t.occurrences = found ∧ ∀ v ∈ found, v.index < v.depth := by
  intro s a g found
  obtain ⟨t, run, listed⟩ : ∃ t, g.lower {} (a 2) = .ok t ∧ t.occurrences = found := by
    subst found g a s
    exact ⟨_, rfl, rfl⟩
  obtain ⟨closed, same, _⟩ := closed_of_lower g {} (a 2)
  exact ⟨t, run, same.trans run, listed, listed ▸ (closed t run).2⟩

end Graph
end SharingRecovery
