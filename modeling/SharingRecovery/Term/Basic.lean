import SharingRecovery.Operation.Array
import SharingRecovery.Operation.Scalar

set_option autoImplicit false

/-!
Terms of the lowered language. Variables are indices that count binders from the innermost one
outwards. Array variables and scalar variables count separately: an array variable refers to an
array `let`, a scalar variable to a scalar `let` or to a function parameter.
-/

namespace SharingRecovery

mutual

inductive ArrayTerm where
  /-- The bound array is visible in the body as variable zero. -/
  | letIn (bound body : ArrayTerm)
  | var (index : Nat)
  | op (operation : ArrayOp ArrayTerm ScalarTerm FunTerm FunTerm)

inductive FunTerm where
  | lam (inner : FunTerm)
  | body (e : ScalarTerm)

inductive ScalarTerm where
  /-- The bound scalar is visible in the body as variable zero. -/
  | letIn (bound body : ScalarTerm)
  | var (index : Nat)
  | op (operation : ScalarOp ArrayTerm ScalarTerm)

end

namespace Term

/-- What to make of every constructor when a term is folded up. -/
structure Algebra (α φ ε : Type) where
  arrayLet : α → α → α
  arrayVar : Nat → α
  arrayOp : ArrayOp α ε φ φ → α
  lam : φ → φ
  body : ε → φ
  scalarLet : ε → ε → ε
  scalarVar : Nat → ε
  scalarOp : ScalarOp α ε → ε

end Term

mutual

def ArrayTerm.fold {α φ ε : Type} (alg : Term.Algebra α φ ε) : ArrayTerm → α
  | .letIn bound body => alg.arrayLet (bound.fold alg) (body.fold alg)
  | .var index => alg.arrayVar index
  | .op (.use a) => alg.arrayOp (.use a)
  | .op (.unit e) => alg.arrayOp (.unit (e.fold alg))
  | .op (.generate sh f) => alg.arrayOp (.generate (sh.fold alg) (f.fold alg))
  | .op (.reshape sh xs) => alg.arrayOp (.reshape (sh.fold alg) (xs.fold alg))
  | .op (.map f xs) => alg.arrayOp (.map (f.fold alg) (xs.fold alg))
  | .op (.zipWith f xs ys) =>
    alg.arrayOp (.zipWith (f.fold alg) (xs.fold alg) (ys.fold alg))
  | .op (.fold f z xs) => alg.arrayOp (.fold (f.fold alg) (z.fold alg) (xs.fold alg))
  | .op (.fold1 f xs) => alg.arrayOp (.fold1 (f.fold alg) (xs.fold alg))
  | .op (.foldSeg f z xs segs) =>
    alg.arrayOp (.foldSeg (f.fold alg) (z.fold alg) (xs.fold alg) (segs.fold alg))
  | .op (.scanl f z xs) => alg.arrayOp (.scanl (f.fold alg) (z.fold alg) (xs.fold alg))
  | .op (.scanlTotal f z xs) =>
    alg.arrayOp (.scanlTotal (f.fold alg) (z.fold alg) (xs.fold alg))
  | .op (.fst xs) => alg.arrayOp (.fst (xs.fold alg))
  | .op (.snd xs) => alg.arrayOp (.snd (xs.fold alg))
  | .op (.permute f defaults ix src) =>
    alg.arrayOp (.permute (f.fold alg) (defaults.fold alg) (ix.fold alg) (src.fold alg))
  | .op (.backpermute sh ix src) =>
    alg.arrayOp (.backpermute (sh.fold alg) (ix.fold alg) (src.fold alg))
  | .op (.stencil f boundary xs) =>
    alg.arrayOp (.stencil (f.fold alg) boundary (xs.fold alg))

def FunTerm.fold {α φ ε : Type} (alg : Term.Algebra α φ ε) : FunTerm → φ
  | .lam inner => alg.lam (inner.fold alg)
  | .body e => alg.body (e.fold alg)

def ScalarTerm.fold {α φ ε : Type} (alg : Term.Algebra α φ ε) : ScalarTerm → ε
  | .letIn bound body => alg.scalarLet (bound.fold alg) (body.fold alg)
  | .var index => alg.scalarVar index
  | .op (.const value) => alg.scalarOp (.const value)
  | .op (.tuple es) => alg.scalarOp (.tuple (ScalarTerm.foldList alg es))
  | .op (.prj i e) => alg.scalarOp (.prj i (e.fold alg))
  | .op (.cond c t e) => alg.scalarOp (.cond (c.fold alg) (t.fold alg) (e.fold alg))
  | .op (.primApp p es) => alg.scalarOp (.primApp p (ScalarTerm.foldList alg es))
  | .op (.index xs ix) => alg.scalarOp (.index (xs.fold alg) (ix.fold alg))
  | .op (.shape xs) => alg.scalarOp (.shape (xs.fold alg))
  | .op (.size xs) => alg.scalarOp (.size (xs.fold alg))

def ScalarTerm.foldList {α φ ε : Type} (alg : Term.Algebra α φ ε) : List ScalarTerm → List ε
  | [] => []
  | e :: es => e.fold alg :: ScalarTerm.foldList alg es

end

namespace FunTerm

def ofBody : Nat → ScalarTerm → FunTerm
  | 0, e => .body e
  | n + 1, e => .lam (ofBody n e)

def arity : FunTerm → Nat
  | .lam inner => inner.arity + 1
  | .body _ => 0

def inside : FunTerm → ScalarTerm
  | .lam inner => inner.inside
  | .body e => e

end FunTerm
end SharingRecovery
