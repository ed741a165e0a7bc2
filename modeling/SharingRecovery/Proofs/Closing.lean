import SharingRecovery.Proofs.Inlining

set_option autoImplicit false

/-!
Closing a term: terms are put in the place of all its variables at once. Only terms without `let`s
are closed, so there is no binder to cross. Inlining a `let` and closing is closing the body with
the closed bound term in front.
-/

namespace SharingRecovery

namespace Term

def push {α : Type} (a : α) (terms : Nat → Option α) : Nat → Option α
  | 0 => some a
  | i + 1 => terms i

def same (i : Nat) : Option ScalarTerm :=
  some (.var i)

def closeForm (arrays : Nat → Option ArrayTerm) :
    Algebra (Option ArrayTerm) (Option FunTerm)
      ((Nat → Option ScalarTerm) → Option ScalarTerm) where
  arrayLet _ _ := none
  arrayVar i := arrays i
  arrayOp op := ArrayTerm.op <$> op.mapM id (· same) id id
  lam inner := FunTerm.lam <$> inner
  body e := FunTerm.body <$> e same
  scalarLet _ _ := fun _ => none
  scalarVar i := fun scalars => scalars i
  scalarOp op := fun scalars => ScalarTerm.op <$> op.mapM id (· scalars)

end Term

/-- Puts terms in the place of the array variables. There is no result if there is a `let`, or no
term for a variable. -/
def ArrayTerm.close (arrays : Nat → Option ArrayTerm) (t : ArrayTerm) : Option ArrayTerm :=
  t.fold (Term.closeForm arrays)

def FunTerm.close (arrays : Nat → Option ArrayTerm) (f : FunTerm) : Option FunTerm :=
  f.fold (Term.closeForm arrays)

def ScalarTerm.close (arrays : Nat → Option ArrayTerm) (scalars : Nat → Option ScalarTerm)
    (e : ScalarTerm) : Option ScalarTerm :=
  e.fold (Term.closeForm arrays) scalars

variable {arrays : Nat → Option ArrayTerm} {scalars scalars' : Nat → Option ScalarTerm}

theorem ArrayTerm.close_op (op : ArrayOp ArrayTerm ScalarTerm FunTerm FunTerm) :
    (ArrayTerm.op op).close arrays = ArrayTerm.op <$> op.mapM (close arrays)
      (ScalarTerm.close arrays Term.same) (FunTerm.close arrays) (FunTerm.close arrays) := by
  rw [close, fold_op]
  exact congrArg (ArrayTerm.op <$> ·) (ArrayOp.mapM_mapOperands op _ _ _ _ _ _ _ _)

theorem ScalarTerm.close_op (op : ScalarOp ArrayTerm ScalarTerm) :
    (ScalarTerm.op op).close arrays scalars =
      ScalarTerm.op <$> op.mapM (ArrayTerm.close arrays) (close arrays scalars) := by
  rw [close, fold_op]
  exact congrArg (ScalarTerm.op <$> ·) (ScalarOp.mapM_mapOperands op _ _ _ _)

theorem ScalarTerm.close_instantiate {bound closed : ScalarTerm}
    (closes : bound.close arrays scalars = some closed) (body : ScalarTerm) :
    (bound.instantiate body).close arrays scalars =
      body.close arrays (Term.push closed scalars) := by
  induction body with
  | letIn _ _ _ _ => rfl
  | var i =>
    cases i with
    | zero => exact closes
    | succ i => rfl
  | op operation ih =>
    rw [instantiate, mapVars_op, close_op, close_op, ScalarOp.mapM_mapOperands]
    exact congrArg (ScalarTerm.op <$> ·) (ScalarOp.mapM_congr ⟨fun _ _ => rfl, ih⟩)

theorem ArrayTerm.close_instantiate {bound closed : ArrayTerm}
    (closes : bound.close arrays = some closed) (body : ArrayTerm) :
    (bound.instantiate body).close arrays = body.close (Term.push closed arrays) := by
  let form := Term.arrayVarsForm bound.instantiateVar
  refine (Term.induction
    (fun body => (body.fold form 0).close arrays = body.close (Term.push closed arrays))
    (fun f => (f.fold form 0).close arrays = f.close (Term.push closed arrays))
    (fun e => ∀ scalars, (e.fold form 0).close arrays scalars =
      e.close (Term.push closed arrays) scalars)
    ?_ ?_ ?_ ?_ ?_ ?_ ?_ ?_).1 body
  · exact fun _ _ _ _ => rfl
  · intro i
    cases i with
    | zero => exact closes
    | succ i => rfl
  · intro operation each
    have step : (ArrayTerm.op operation).fold form 0 = .op (operation.mapOperands
        (fun t => t.fold form 0) (fun e => e.fold form 0) (fun f => f.fold form 0)
        fun f => f.fold form 0) := by
      rw [fold_op]
      exact congrArg ArrayTerm.op (ArrayOp.mapM_mapOperands operation _ _ _ _ _ _ _ _)
    rw [step, close_op, close_op, ArrayOp.mapM_mapOperands]
    refine congrArg (ArrayTerm.op <$> ·) (ArrayOp.mapM_congr ?_)
    exact each.imp₂ each (fun _ here _ => here) (fun _ here _ => here Term.same)
      (fun _ here _ => here) (fun _ here _ => here)
  · intro inner here
    exact congrArg (FunTerm.lam <$> ·) here
  · intro e here
    exact congrArg (FunTerm.body <$> ·) (here Term.same)
  · exact fun _ _ _ _ _ => rfl
  · exact fun _ _ => rfl
  · intro operation each scalars
    have step : (ScalarTerm.op operation).fold form 0 = .op (operation.mapOperands
        (fun t => t.fold form 0) fun e => e.fold form 0) := by
      rw [ScalarTerm.fold_op]
      exact congrArg ScalarTerm.op (ScalarOp.mapM_mapOperands operation _ _ _ _)
    rw [step, ScalarTerm.close_op, ScalarTerm.close_op, ScalarOp.mapM_mapOperands]
    refine congrArg (ScalarTerm.op <$> ·) (ScalarOp.mapM_congr ?_)
    exact ⟨each.1, fun e member => each.2 e member scalars⟩

theorem ScalarTerm.close_mono (more : ∀ i e, scalars i = some e → scalars' i = some e)
    {e closed : ScalarTerm} (closes : e.close arrays scalars = some closed) :
    e.close arrays scalars' = some closed := by
  induction e generalizing closed with
  | letIn _ _ _ _ => cases closes
  | var i => exact more i closed closes
  | op operation ih =>
    rw [close_op] at closes ⊢
    obtain ⟨operation', run, rfl⟩ := Option.map_eq_some_iff.mp closes
    have parts := (ScalarOp.forall_of_mapM Option.bind_eq_some_iff.mp run).2
    rw [← ScalarOp.mapM_congr (a := ArrayTerm.close arrays) ⟨fun _ _ => rfl, fun e member => ?_⟩,
      run]
    · rfl
    · obtain ⟨result, found⟩ := parts e member
      exact found.trans (ih e member found).symm

theorem ArrayTerm.eq_of_close {t closed : ArrayTerm}
    (closes : t.close (fun _ => none) = some closed) :
    t = closed := by
  refine (Term.induction (fun t => ∀ u, t.close (fun _ => none) = some u → t = u)
    (fun f => ∀ u, f.close (fun _ => none) = some u → f = u)
    (fun e => ∀ u, e.close (fun _ => none) Term.same = some u → e = u)
    ?_ ?_ ?_ ?_ ?_ ?_ ?_ ?_).1 t closed closes
  · intro _ _ _ _ u closes
    cases closes
  · intro _ u closes
    cases closes
  · intro operation each u closes
    rw [close_op] at closes
    obtain ⟨operation', run, rfl⟩ := Option.map_eq_some_iff.mp closes
    rw [ArrayOp.eq_of_mapM run each]
  · intro inner here u closes
    obtain ⟨inner', below, rfl⟩ := Option.map_eq_some_iff.mp closes
    rw [here inner' below]
  · intro e here u closes
    obtain ⟨e', below, rfl⟩ := Option.map_eq_some_iff.mp closes
    rw [here e' below]
  · intro _ _ _ _ u closes
    cases closes
  · intro i u closes
    exact Option.some.inj closes
  · intro operation each u closes
    rw [ScalarTerm.close_op] at closes
    obtain ⟨operation', run, rfl⟩ := Option.map_eq_some_iff.mp closes
    rw [ScalarOp.eq_of_mapM run each]

end SharingRecovery
