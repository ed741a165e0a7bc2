import Mathlib.Logic.Function.Iterate
import SharingRecovery.Proofs.Operations
import SharingRecovery.Term.Basic

set_option autoImplicit false

/-!
Inlining: every `let` is replaced by its body with the bound term substituted for the variable. What
is substituted is lifted below binders, so that nothing is captured. Scalar code inside an array
operation has no variables of the scalar code around it, so scalar terms are not substituted into
arrays.
-/

namespace SharingRecovery

instance : Inhabited ArrayTerm := ⟨.var 0⟩
instance : Inhabited ScalarTerm := ⟨.var 0⟩
instance : Inhabited FunTerm := ⟨.body default⟩

namespace Term

theorem induction (array : ArrayTerm → Prop) (function : FunTerm → Prop)
    (scalar : ScalarTerm → Prop)
    (arrayLet : ∀ bound body, array bound → array body → array (.letIn bound body))
    (arrayVar : ∀ i, array (.var i))
    (arrayOp : ∀ op, op.Forall array scalar function function → array (.op op))
    (lam : ∀ inner, function inner → function (.lam inner))
    (body : ∀ e, scalar e → function (.body e))
    (scalarLet : ∀ bound body, scalar bound → scalar body → scalar (.letIn bound body))
    (scalarVar : ∀ i, scalar (.var i))
    (scalarOp : ∀ op, op.Forall array scalar → scalar (.op op)) :
    (∀ t, array t) ∧ (∀ f, function f) ∧ ∀ e, scalar e := by
  -- Functions and scalars are operands of array terms, so it is enough to know the operands of
  -- these.
  have all : ∀ t, array t ∧ ∀ op, t = .op op → op.Forall array scalar function function := by
    refine @ArrayTerm.rec (fun t => array t ∧ ∀ op, t = .op op →
      op.Forall array scalar function function) function scalar
      (ArrayOp.Forall array scalar function function) (ScalarOp.Forall array scalar)
      (fun es => ∀ e ∈ es, scalar e)
      (fun bound body one two => ⟨arrayLet bound body one.1 two.1, by simp⟩)
      (fun i => ⟨arrayVar i, by simp⟩)
      (fun op each => ⟨arrayOp op each, fun op' same => ArrayTerm.op.inj same ▸ each⟩)
      lam body scalarLet scalarVar scalarOp
      ?_ ?_ ?_ ?_ ?_ ?_ ?_ ?_ ?_ ?_ ?_ ?_ ?_ ?_ ?_ ?_
      ?_ ?_ ?_ ?_ ?_ ?_ ?_ ?_ (by simp)
      (fun e es one others => List.forall_mem_cons.mpr ⟨one, others⟩)
    all_goals
      intros
      simp only [ArrayOp.Forall, ArrayOp.parts, ArrayOp.Part.Holds, ScalarOp.Forall,
        ScalarOp.array?, ScalarOp.scalars, List.forall_mem_cons, List.not_mem_nil, Option.mem_def,
        Option.some.injEq, reduceCtorEq, false_imp_iff, implies_true, and_true, true_and,
        forall_eq', *] <;> assumption
  refine ⟨fun t => (all t).1, fun f => ?_, fun e => ?_⟩
  · exact (all (.op (.map f (.var 0)))).2 _ rfl (.function f) List.mem_cons_self
  · exact (all (.op (.unit e))).2 _ rfl (.scalar e) List.mem_cons_self

/-- Replaces array variables by what is given for them, as a function of the number of array binders
around them. -/
def arrayVarsForm (f : Nat → Nat → ArrayTerm) :
    Algebra (Nat → ArrayTerm) (Nat → FunTerm) (Nat → ScalarTerm) where
  arrayLet bound body := fun depth => .letIn (bound depth) (body (depth + 1))
  arrayVar i := fun depth => f depth i
  arrayOp op := fun depth => .op (op.mapOperands (· depth) (· depth) (· depth) (· depth))
  lam inner := fun depth => .lam (inner depth)
  body e := fun depth => .body (e depth)
  scalarLet bound body := fun depth => .letIn (bound depth) (body depth)
  scalarVar i := fun _ => .var i
  scalarOp op := fun depth => .op (op.mapOperands (· depth) (· depth))

end Term

namespace ArrayTerm

def lift (t : ArrayTerm) : ArrayTerm :=
  t.fold (Term.arrayVarsForm fun depth i => .var (if i < depth then i else i + 1)) 0

/-- What variables become below so many binders if a term is put in the place of the one after
these, and this variable is dropped. -/
def instantiateVar (t : ArrayTerm) (depth i : Nat) : ArrayTerm :=
  if i < depth then .var i else if i = depth then lift^[depth] t else .var (i - 1)

def instantiate (t body : ArrayTerm) : ArrayTerm :=
  body.fold (Term.arrayVarsForm t.instantiateVar) 0

end ArrayTerm

namespace ScalarTerm

@[elab_as_elim, induction_eliminator]
theorem induction {motive : ScalarTerm → Prop}
    (letIn : ∀ bound body, motive bound → motive body → motive (.letIn bound body))
    (var : ∀ i, motive (.var i))
    (op : ∀ op, (∀ e ∈ op.scalars, motive e) → motive (.op op)) (e : ScalarTerm) : motive e :=
  (Term.induction (fun _ => True) (fun _ => True) motive (by simp) (by simp) (by simp) (by simp)
    (by simp) letIn var fun operation each => op operation each.2).2.2 e

mutual

def mapVars (f : Nat → Nat → ScalarTerm) (depth : Nat) : ScalarTerm → ScalarTerm
  | .letIn bound body => .letIn (bound.mapVars f depth) (body.mapVars f (depth + 1))
  | .var i => f depth i
  | .op (.const value) => .op (.const value)
  | .op (.tuple es) => .op (.tuple (mapVarsOfAll f depth es))
  | .op (.prj i e) => .op (.prj i (e.mapVars f depth))
  | .op (.cond c t e) =>
    .op (.cond (c.mapVars f depth) (t.mapVars f depth) (e.mapVars f depth))
  | .op (.primApp p es) => .op (.primApp p (mapVarsOfAll f depth es))
  | .op (.index xs ix) => .op (.index xs (ix.mapVars f depth))
  | .op (.shape xs) => .op (.shape xs)
  | .op (.size xs) => .op (.size xs)

def mapVarsOfAll (f : Nat → Nat → ScalarTerm) (depth : Nat) : List ScalarTerm → List ScalarTerm
  | [] => []
  | e :: es => e.mapVars f depth :: mapVarsOfAll f depth es

end

def lift (e : ScalarTerm) : ScalarTerm :=
  e.mapVars (fun depth i => .var (if i < depth then i else i + 1)) 0

def instantiateVar (e : ScalarTerm) (depth i : Nat) : ScalarTerm :=
  if i < depth then .var i else if i = depth then lift^[depth] e else .var (i - 1)

def instantiate (e body : ScalarTerm) : ScalarTerm :=
  body.mapVars e.instantiateVar 0

theorem mapVars_op (f : Nat → Nat → ScalarTerm) (depth : Nat) (op : ScalarOp ArrayTerm ScalarTerm) :
    (ScalarTerm.op op).mapVars f depth = .op (op.mapOperands id (mapVars f depth)) := by
  have all : ∀ es, mapVarsOfAll f depth es = es.map (mapVars f depth) := by
    intro es
    induction es with
    | nil => rfl
    | cons e es ih => rw [mapVarsOfAll, ih, List.map_cons]
  cases op <;> simp [mapVars, all, ScalarOp.mapOperands, ScalarOp.mapM]

theorem foldList_eq {α φ ε : Type} (alg : Term.Algebra α φ ε) (es : List ScalarTerm) :
    foldList alg es = es.map (fold alg) := by
  induction es with
  | nil => rfl
  | cons e es ih => rw [foldList, ih, List.map_cons]

theorem fold_op {α φ ε : Type} (alg : Term.Algebra α φ ε) (op : ScalarOp ArrayTerm ScalarTerm) :
    (ScalarTerm.op op).fold alg =
      alg.scalarOp (op.mapOperands (ArrayTerm.fold alg) (fold alg)) := by
  cases op <;> simp [fold, foldList_eq, ScalarOp.mapOperands, ScalarOp.mapM]

end ScalarTerm

theorem ArrayTerm.fold_op {α φ ε : Type} (alg : Term.Algebra α φ ε)
    (op : ArrayOp ArrayTerm ScalarTerm FunTerm FunTerm) :
    (ArrayTerm.op op).fold alg = alg.arrayOp
      (op.mapOperands (fold alg) (ScalarTerm.fold alg) (FunTerm.fold alg) (FunTerm.fold alg)) := by
  cases op <;> rw [fold] <;> rfl

/-- Every `let` is replaced by its body, with the bound term in the place of the variable. -/
def Term.inlineForm : Term.Algebra ArrayTerm FunTerm ScalarTerm where
  arrayLet bound body := bound.instantiate body
  arrayVar := .var
  arrayOp := .op
  lam := .lam
  body := .body
  scalarLet bound body := bound.instantiate body
  scalarVar := .var
  scalarOp := .op

def ArrayTerm.inline (t : ArrayTerm) : ArrayTerm :=
  t.fold Term.inlineForm

def FunTerm.inline (f : FunTerm) : FunTerm :=
  f.fold Term.inlineForm

def ScalarTerm.inline (e : ScalarTerm) : ScalarTerm :=
  e.fold Term.inlineForm

end SharingRecovery
