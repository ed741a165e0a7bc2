import SharingRecovery.Graph.Basic

set_option autoImplicit false

/-!
Construction of program graphs, in any monad whose state holds a graph. A function given to an array
operation is called once, on fresh placeholders, before the node of the operation is added; the
scalar node it returns becomes the body.
-/

namespace SharingRecovery.Builder

variable {m : Type → Type} [Monad m] [MonadStateOf Graph m]

def array (node : ArrayNode) : m ArrayKey :=
  modifyGet fun g => g.insertArray node

def scalar (node : ScalarNode) : m ScalarKey :=
  modifyGet fun g => g.insertScalar node

def operation (op : ScalarOp ArrayKey ScalarKey) : m ScalarKey :=
  scalar (.op op)

def param : m ScalarKey :=
  scalar .param

def params : Nat → m (List ScalarKey)
  | 0 => return []
  | n + 1 => return (← param) :: (← params n)

def lambda1 (f : ScalarKey → m ScalarKey) : m Lambda := do
  let x ← param
  return ⟨[x], ← f x⟩

def lambda2 (f : ScalarKey → ScalarKey → m ScalarKey) : m Lambda := do
  let x ← param
  let y ← param
  return ⟨[x, y], ← f x y⟩

def stencilLambda (neighbourhood : Neighbourhood) (f : List ScalarKey → m ScalarKey) :
    m StencilLambda := do
  let argument ← param
  let neighbours ← params neighbourhood.size
  return ⟨neighbourhood, argument, neighbours, ← f neighbours⟩

def constant (value : Scalar) : m ScalarKey :=
  operation (.const value)

def tuple (es : List ScalarKey) : m ScalarKey :=
  operation (.tuple es)

def prj (i : Nat) (e : ScalarKey) : m ScalarKey :=
  operation (.prj i e)

def cond (c t e : ScalarKey) : m ScalarKey :=
  operation (.cond c t e)

def prim (p : Prim) (es : List ScalarKey) : m ScalarKey :=
  operation (.primApp p es)

def add (a b : ScalarKey) : m ScalarKey :=
  prim .add [a, b]

def mul (a b : ScalarKey) : m ScalarKey :=
  prim .mul [a, b]

def sub (a b : ScalarKey) : m ScalarKey :=
  prim .sub [a, b]

def index (xs : ArrayKey) (ix : ScalarKey) : m ScalarKey :=
  operation (.index xs ix)

def shape (xs : ArrayKey) : m ScalarKey :=
  operation (.shape xs)

def size (xs : ArrayKey) : m ScalarKey :=
  operation (.size xs)

def use (xs : HostArray) : m ArrayKey :=
  array (.use xs)

def unit (e : ScalarKey) : m ArrayKey :=
  array (.unit e)

def generate (sh : ScalarKey) (f : ScalarKey → m ScalarKey) : m ArrayKey := do
  array (.generate sh (← lambda1 f))

def reshape (sh : ScalarKey) (xs : ArrayKey) : m ArrayKey :=
  array (.reshape sh xs)

def map (f : ScalarKey → m ScalarKey) (xs : ArrayKey) : m ArrayKey := do
  array (.map (← lambda1 f) xs)

def zipWith (f : ScalarKey → ScalarKey → m ScalarKey) (xs ys : ArrayKey) : m ArrayKey := do
  array (.zipWith (← lambda2 f) xs ys)

def fold (f : ScalarKey → ScalarKey → m ScalarKey) (z : ScalarKey) (xs : ArrayKey) :
    m ArrayKey := do
  array (.fold (← lambda2 f) z xs)

def fold1 (f : ScalarKey → ScalarKey → m ScalarKey) (xs : ArrayKey) : m ArrayKey := do
  array (.fold1 (← lambda2 f) xs)

def foldSeg (f : ScalarKey → ScalarKey → m ScalarKey) (z : ScalarKey) (xs segs : ArrayKey) :
    m ArrayKey := do
  array (.foldSeg (← lambda2 f) z xs segs)

def scanl (f : ScalarKey → ScalarKey → m ScalarKey) (z : ScalarKey) (xs : ArrayKey) :
    m ArrayKey := do
  array (.scanl (← lambda2 f) z xs)

def scanlTotal (f : ScalarKey → ScalarKey → m ScalarKey) (z : ScalarKey) (xs : ArrayKey) :
    m ArrayKey := do
  array (.scanlTotal (← lambda2 f) z xs)

def fst (xs : ArrayKey) : m ArrayKey :=
  array (.fst xs)

def snd (xs : ArrayKey) : m ArrayKey :=
  array (.snd xs)

/-- A forward permutation into an array of defaults. The combining function is called before the
index function. -/
def permute (f : ScalarKey → ScalarKey → m ScalarKey) (defaults : ArrayKey)
    (ix : ScalarKey → m ScalarKey) (src : ArrayKey) : m ArrayKey := do
  let f ← lambda2 f
  let ix ← lambda1 ix
  array (.permute f defaults ix src)

def backpermute (sh : ScalarKey) (ix : ScalarKey → m ScalarKey) (src : ArrayKey) :
    m ArrayKey := do
  array (.backpermute sh (← lambda1 ix) src)

def stencil (neighbourhood : Neighbourhood) (f : List ScalarKey → m ScalarKey)
    (boundary : Boundary) (xs : ArrayKey) : m ArrayKey := do
  array (.stencil (← stencilLambda neighbourhood f) boundary xs)

end SharingRecovery.Builder
