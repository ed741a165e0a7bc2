import SharingRecovery.Proofs.Scoping

set_option autoImplicit false

/-!
Free indices. What is free in a term is computed from its parts: a binder takes its own variable
away and counts the others from further out. Nothing of the scalar variables of an array operation
is free in scalar code around it, while its array variables are.

A program passes the check exactly if no array index is free in it and no scalar index is free in
any scalar operand or function of its array operations. The check reports the first variable, from
left to right, that points past the binders around it.
-/

namespace SharingRecovery

namespace Term

def outside (indices : List Nat) : List Nat :=
  indices.filterMap fun
    | 0 => none
    | i + 1 => some i

private theorem forall_mem_outside {indices : List Nat} {depth : Nat} :
    (∀ i ∈ outside indices, i < depth) ↔ ∀ i ∈ indices, i < depth + 1 := by
  simp only [outside, List.mem_filterMap]
  constructor
  · intro below i inside
    cases i with
    | zero => exact depth.succ_pos
    | succ i => exact Nat.succ_lt_succ (below i ⟨i + 1, inside, rfl⟩)
  · rintro below i ⟨_ | j, inside, found⟩
    · cases found
    · obtain rfl : j = i := Option.some.inj found
      exact Nat.lt_of_succ_lt_succ (below _ inside)

def freeArraysForm : Algebra (List Nat) (List Nat) (List Nat) where
  arrayLet bound body := bound ++ outside body
  arrayVar i := [i]
  arrayOp op := op.parts.flatMap fun
    | .array t => t
    | .scalar e => e
    | .function f => f
    | .stencil f => f
  lam inner := inner
  body e := e
  scalarLet bound body := bound ++ body
  scalarVar _ := []
  scalarOp op := op.array?.toList.flatten ++ op.scalars.flatten

/-- The scalar indices that are free in scalar code. None comes out of an array. -/
def freeScalarsForm : Algebra Unit (List Nat) (List Nat) where
  arrayLet _ _ := ()
  arrayVar _ := ()
  arrayOp _ := ()
  lam inner := outside inner
  body e := e
  scalarLet bound body := bound ++ outside body
  scalarVar i := [i]
  scalarOp op := op.scalars.flatten

end Term

inductive Phrase where
  | array (t : ArrayTerm)
  | function (f : FunTerm)
  | scalar (e : ScalarTerm)

namespace Phrase

def ofPart : ArrayOp.Part ArrayTerm ScalarTerm FunTerm FunTerm → Phrase
  | .array t => .array t
  | .scalar e => .scalar e
  | .function f => .function f
  | .stencil f => .function f

def parts : Phrase → List Phrase
  | .array (.letIn bound body) => [.array bound, .array body]
  | .array (.var _) => []
  | .array (.op op) => op.parts.map ofPart
  | .function (.lam inner) => [.function inner]
  | .function (.body e) => [.scalar e]
  | .scalar (.letIn bound body) => [.scalar bound, .scalar body]
  | .scalar (.var _) => []
  | .scalar (.op op) => op.array?.toList.map .array ++ op.scalars.map .scalar

def Contains : Phrase → Phrase → Prop :=
  Relation.ReflTransGen fun outer inner => inner ∈ outer.parts

def freeArrays : Phrase → List Nat
  | .array t => t.fold Term.freeArraysForm
  | .function f => f.fold Term.freeArraysForm
  | .scalar e => e.fold Term.freeArraysForm

def freeScalars : Phrase → List Nat
  | .array _ => []
  | .function f => f.fold Term.freeScalarsForm
  | .scalar e => e.fold Term.freeScalarsForm

def operands : Phrase → List Phrase
  | .array (.op op) => op.parts.map ofPart
  | _ => []

/-- A phrase is an operand of an array operation that is inside another phrase at any depth. -/
def Embeds (phrase operand : Phrase) : Prop :=
  ∃ inner, phrase.Contains inner ∧ operand ∈ inner.operands

def Scoped (arrays scalars : Nat) : Phrase → Prop
  | .array t => t.Scoped arrays
  | .function f => f.Scoped arrays scalars
  | .scalar e => e.Scoped arrays scalars

variable {arrays scalars : Nat}

private theorem freeArrays_arrayOp (op : ArrayOp ArrayTerm ScalarTerm FunTerm FunTerm) :
    (array (.op op)).freeArrays = (array (.op op)).parts.flatMap freeArrays := by
  rw [freeArrays, ArrayTerm.fold_op, parts, List.flatMap_map]
  simp only [Term.freeArraysForm, ArrayOp.parts_mapOperands, List.flatMap_map]
  congr 1
  funext part
  cases part <;> rfl

private theorem freeArrays_scalarOp (op : ScalarOp ArrayTerm ScalarTerm) :
    (scalar (.op op)).freeArrays = (scalar (.op op)).parts.flatMap freeArrays := by
  rw [freeArrays, ScalarTerm.fold_op, parts, List.flatMap_append, List.flatMap_map,
    List.flatMap_map]
  simp only [Term.freeArraysForm, ScalarOp.array?_mapOperands, ScalarOp.scalars_mapOperands]
  cases op.array? <;> simp [freeArrays, List.flatMap_def] <;> rfl

private theorem freeScalars_scalarOp (op : ScalarOp ArrayTerm ScalarTerm) :
    (scalar (.op op)).freeScalars = (scalar (.op op)).parts.flatMap freeScalars := by
  rw [freeScalars, ScalarTerm.fold_op, parts, List.flatMap_append, List.flatMap_map,
    List.flatMap_map]
  simp only [Term.freeScalarsForm, ScalarOp.scalars_mapOperands]
  cases op.array? <;> simp [freeScalars, List.flatMap_def] <;> rfl

private theorem scoped_arrayOp {op : ArrayOp ArrayTerm ScalarTerm FunTerm FunTerm} :
    (array (.op op)).Scoped arrays scalars ↔
      ∀ part ∈ (array (.op op)).parts, part.Scoped arrays 0 := by
  rw [Scoped, ArrayTerm.scoped_op, parts, List.forall_mem_map]
  refine forall₂_congr fun part _ => ?_
  cases part <;> exact Iff.rfl

private theorem scoped_scalarOp {op : ScalarOp ArrayTerm ScalarTerm} :
    (scalar (.op op)).Scoped arrays scalars ↔
      ∀ part ∈ (scalar (.op op)).parts, part.Scoped arrays scalars := by
  rw [Scoped, ScalarTerm.scoped_op, parts, List.forall_mem_append, List.forall_mem_map,
    List.forall_mem_map]
  simp only [Option.mem_toList]
  exact Iff.rfl

def Sealed (phrase : Phrase) : Prop :=
  ∀ operand, phrase.Embeds operand → operand.freeScalars = []

private theorem embeds_iff {phrase operand : Phrase} : phrase.Embeds operand ↔
    operand ∈ phrase.operands ∨ ∃ part ∈ phrase.parts, part.Embeds operand := by
  constructor
  · rintro ⟨inner, contains, inside⟩
    rcases Relation.ReflTransGen.cases_head_iff.mp contains with rfl | ⟨part, member, below⟩
    · exact .inl inside
    · exact .inr ⟨part, member, inner, below, inside⟩
  · rintro (inside | ⟨part, member, inner, below, inside⟩)
    · exact ⟨phrase, .refl, inside⟩
    · exact ⟨inner, .head member below, inside⟩

private theorem sealed_iff {phrase : Phrase} : phrase.Sealed ↔
    (∀ operand ∈ phrase.operands, operand.freeScalars = []) ∧
      ∀ part ∈ phrase.parts, part.Sealed := by
  constructor
  · intro closed
    refine ⟨fun operand member => closed operand (embeds_iff.mpr (.inl member)), ?_⟩
    intro part member operand inside
    exact closed operand (embeds_iff.mpr (.inr ⟨part, member, inside⟩))
  · rintro ⟨here, below⟩ operand embeds
    rcases embeds_iff.mp embeds with member | ⟨part, member, inside⟩
    · exact here operand member
    · exact below part member operand inside

def Decided (phrase : Phrase) : Prop :=
  ∀ arrays scalars, phrase.Scoped arrays scalars ↔ (∀ i ∈ phrase.freeArrays, i < arrays) ∧
    (∀ i ∈ phrase.freeScalars, i < scalars) ∧ phrase.Sealed

private theorem decided_arrayLet {bound body : ArrayTerm} (one : (array bound).Decided)
    (two : (array body).Decided) : (array (.letIn bound body)).Decided := by
  intro arrays scalars
  have outer := one arrays scalars
  have inner := two (arrays + 1) scalars
  rw [sealed_iff]
  simp only [Scoped, ArrayTerm.scoped_letIn, freeArrays, ArrayTerm.fold, Term.freeArraysForm,
    List.forall_mem_append, Term.forall_mem_outside, freeScalars, operands, parts,
    List.forall_mem_cons] at outer inner ⊢
  rw [outer, inner]
  constructor
  · rintro ⟨⟨one, _, closed⟩, two, _, closed'⟩
    exact ⟨⟨one, two⟩, List.forall_mem_nil _, List.forall_mem_nil _, closed, closed',
      List.forall_mem_nil _⟩
  · rintro ⟨⟨one, two⟩, _, _, closed, closed', _⟩
    exact ⟨⟨one, List.forall_mem_nil _, closed⟩, two, List.forall_mem_nil _, closed'⟩

private theorem decided_scalarLet {bound body : ScalarTerm} (one : (scalar bound).Decided)
    (two : (scalar body).Decided) : (scalar (.letIn bound body)).Decided := by
  intro arrays scalars
  have outer := one arrays scalars
  have inner := two arrays (scalars + 1)
  rw [sealed_iff]
  simp only [Scoped, ScalarTerm.scoped_letIn, freeArrays, freeScalars, ScalarTerm.fold,
    Term.freeArraysForm, Term.freeScalarsForm, List.forall_mem_append, Term.forall_mem_outside,
    operands, parts, List.forall_mem_cons] at outer inner ⊢
  rw [outer, inner]
  constructor
  · rintro ⟨⟨arrays, scalars, closed⟩, arrays', scalars', closed'⟩
    exact ⟨⟨arrays, arrays'⟩, ⟨scalars, scalars'⟩, List.forall_mem_nil _, closed, closed',
      List.forall_mem_nil _⟩
  · rintro ⟨⟨arrays, arrays'⟩, ⟨scalars, scalars'⟩, _, closed, closed', _⟩
    exact ⟨⟨arrays, scalars, closed⟩, arrays', scalars', closed'⟩

private theorem decided_lam {inner : FunTerm} (here : (function inner).Decided) :
    (function (.lam inner)).Decided := by
  intro arrays scalars
  have below := here arrays (scalars + 1)
  rw [sealed_iff]
  simp only [Scoped, FunTerm.scoped_lam, freeArrays, freeScalars, FunTerm.fold, Term.freeArraysForm,
    Term.freeScalarsForm, Term.forall_mem_outside, operands, parts, List.forall_mem_singleton]
    at below ⊢
  rw [below]
  tauto

private theorem decided_body {e : ScalarTerm} (here : (scalar e).Decided) :
    (function (.body e)).Decided := by
  intro arrays scalars
  have below := here arrays scalars
  rw [sealed_iff]
  simp only [Scoped, FunTerm.scoped_body, freeArrays, freeScalars, FunTerm.fold,
    Term.freeArraysForm, Term.freeScalarsForm, operands, parts,
    List.forall_mem_singleton] at below ⊢
  rw [below]
  tauto

private theorem decided_arrayOp {op : ArrayOp ArrayTerm ScalarTerm FunTerm FunTerm}
    (each : ∀ part ∈ (array (.op op)).parts, part.Decided) : (array (.op op)).Decided := by
  intro arrays scalars
  have below_zero {indices : List Nat} : (∀ i ∈ indices, i < 0) ↔ indices = [] := by
    simp [List.eq_nil_iff_forall_not_mem]
  rw [scoped_arrayOp, freeArrays_arrayOp, sealed_iff]
  simp only [List.mem_flatMap]
  constructor
  · intro bounded
    have parts := fun part member => (each part member arrays 0).mp (bounded part member)
    refine ⟨?_, nofun, fun part member => below_zero.mp (parts part member).2.1,
      fun part member => (parts part member).2.2⟩
    rintro i ⟨part, member, inside⟩
    exact (parts part member).1 i inside
  · rintro ⟨below, _, here, deeper⟩ part member
    refine (each part member arrays 0).mpr ⟨fun i inside => ?_, ?_, deeper part member⟩
    · exact below i ⟨part, member, inside⟩
    · exact below_zero.mpr (here part member)

private theorem decided_scalarOp {op : ScalarOp ArrayTerm ScalarTerm}
    (each : ∀ part ∈ (scalar (.op op)).parts, part.Decided) : (scalar (.op op)).Decided := by
  intro arrays scalars
  rw [scoped_scalarOp, freeArrays_scalarOp, freeScalars_scalarOp, sealed_iff]
  simp only [List.mem_flatMap]
  constructor
  · intro bounded
    have parts := fun part member => (each part member arrays scalars).mp (bounded part member)
    refine ⟨?_, ?_, nofun, fun part member => (parts part member).2.2⟩
    · rintro i ⟨part, member, inside⟩
      exact (parts part member).1 i inside
    · rintro i ⟨part, member, inside⟩
      exact (parts part member).2.1 i inside
  · rintro ⟨arrays, scalars, _, deeper⟩ part member
    refine (each part member _ _).mpr ⟨fun i inside => ?_, fun i inside => ?_, deeper part member⟩
    · exact arrays i ⟨part, member, inside⟩
    · exact scalars i ⟨part, member, inside⟩

theorem decided (phrase : Phrase) : phrase.Decided := by
  have all := Term.induction (fun t => (array t).Decided) (fun f => (function f).Decided)
    (fun e => (scalar e).Decided) (fun _ _ => decided_arrayLet) ?_ ?_ (fun _ => decided_lam)
    (fun _ => decided_body) (fun _ _ => decided_scalarLet) ?_ ?_
  · cases phrase with
    | array t => exact all.1 t
    | function f => exact all.2.1 f
    | scalar e => exact all.2.2 e
  · intro i arrays scalars
    rw [sealed_iff]
    simp [Scoped, ArrayTerm.scoped_var, freeArrays, ArrayTerm.fold, Term.freeArraysForm,
      freeScalars, operands, parts]
  · intro op each
    refine decided_arrayOp (List.forall_mem_map.mpr fun part member => ?_)
    have here := each part member
    cases part <;> exact here
  · intro i arrays scalars
    rw [sealed_iff]
    simp [Scoped, ScalarTerm.scoped_var, freeArrays, freeScalars, ScalarTerm.fold,
      Term.freeArraysForm, Term.freeScalarsForm, operands, parts]
  · intro op each
    refine decided_scalarOp ?_
    simp only [parts, List.forall_mem_append, List.forall_mem_map, Option.mem_toList]
    exact each

end Phrase

private theorem ArrayTerm.checkClosed_eq_forM (t : ArrayTerm) :
    t.checkClosed = forM t.occurrences Term.checkOccurrence :=
  Term.check_eq_forM.1 t 0

/-- The check accepts a program exactly if no array index is free in it and no scalar index is free
in an operand of an array operation at any depth. Otherwise it reports the first variable from left
to right that points past the binders around it, with the number of these. -/
theorem ArrayTerm.checkClosed_iff_free (t : ArrayTerm) :
    (t.checkClosed = .ok () ↔ (Phrase.array t).freeArrays = [] ∧
      ∀ operand, (Phrase.array t).Embeds operand → operand.freeScalars = []) ∧
    ∀ e, t.checkClosed = .error e ↔ ∃ before v after, t.occurrences = before ++ v :: after ∧
      (∀ u ∈ before, u.index < u.depth) ∧ v.depth ≤ v.index ∧ e = ⟨v.level, v.index, v.depth⟩ := by
  constructor
  · have free := (Phrase.array t).decided 0 0
    rw [ArrayTerm.checkClosed, Term.check_eq_ok_iff.1]
    refine free.trans
      ⟨fun ⟨arrays, _, closed⟩ => ⟨?_, closed⟩, fun ⟨arrays, closed⟩ => ⟨?_, nofun, closed⟩⟩
    · exact List.eq_nil_iff_forall_not_mem.mpr fun i inside => Nat.not_lt_zero i (arrays i inside)
    · rw [arrays]
      exact nofun
  · intro e
    simp only [checkClosed_eq_forM, forM_eq_error_iff, Term.checkOccurrence_eq_ok_iff,
      Term.checkOccurrence_eq_error_iff]

/-- Scalar indices restart inside an array that scalar code reads: of two variables with the index
one, the one in the inner function has one binder and the one outside has two. -/
theorem ArrayTerm.checkClosed_of_read_array :
    let read : ArrayTerm := .op (.map (.lam (.body (.var 1))) (.var 0))
    let code : ScalarTerm := .letIn (.var 0) (.op (.index read (.var 1)))
    let t : ArrayTerm := .letIn (.op (.use ⟨[], [.bool true]⟩))
        (.op (.map (.lam (.body code)) (.var 0)))
    t.occurrences =
        [⟨.scalar, 0, 1⟩, ⟨.scalar, 1, 1⟩, ⟨.array, 0, 1⟩, ⟨.scalar, 1, 2⟩, ⟨.array, 0, 1⟩] ∧
      t.checkClosed = .error ⟨.scalar, 1, 1⟩ ∧ (Phrase.array t).freeArrays = [] ∧
      ∃ operand, (Phrase.array t).Embeds operand ∧ operand.freeScalars ≠ [] := by
  intro read code t
  have listed : t.occurrences =
      [⟨.scalar, 0, 1⟩, ⟨.scalar, 1, 1⟩, ⟨.array, 0, 1⟩, ⟨.scalar, 1, 2⟩, ⟨.array, 0, 1⟩] := rfl
  have arrays : (Phrase.array t).freeArrays = [] := rfl
  obtain ⟨accepted, reported⟩ := t.checkClosed_iff_free
  have failed : t.checkClosed = .error ⟨.scalar, 1, 1⟩ :=
    (reported _).mpr ⟨[⟨.scalar, 0, 1⟩], _, _, listed, by simp, le_rfl, rfl⟩
  refine ⟨listed, failed, arrays, ?_⟩
  by_contra sealed
  push Not at sealed
  cases failed.symm.trans (accepted.mpr ⟨arrays, sealed⟩)

end SharingRecovery
