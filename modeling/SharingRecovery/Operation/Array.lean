import SharingRecovery.Boundary
import SharingRecovery.HostArray

set_option autoImplicit false

/-!
Array operations over any kind of operands. The nodes of a program graph and the terms they are
lowered to share these constructors: in the graph the operands are keys, in a term they are terms.
-/

namespace SharingRecovery

/-- An array operation with array operands in `A`, scalar operands in `E`, functions in `F` and
stencil functions in `S`. -/
inductive ArrayOp (A E F S : Type) where
  /-- An array given with the program. -/
  | use (array : HostArray)
  /-- An array of one element. -/
  | unit (e : E)
  /-- An array computed from its indices. -/
  | generate (sh : E) (f : F)
  /-- The same elements in another shape. -/
  | reshape (sh : E) (xs : A)
  /-- A function applied to every element. -/
  | map (f : F) (xs : A)
  /-- Two arrays combined element by element. -/
  | zipWith (f : F) (xs ys : A)
  /-- A reduction of the innermost dimension. -/
  | fold (f : F) (z : E) (xs : A)
  /-- A reduction of the innermost dimension, which is not empty. -/
  | fold1 (f : F) (xs : A)
  /-- A reduction of every segment. -/
  | foldSeg (f : F) (z : E) (xs segs : A)
  /-- A prescan from the left. -/
  | scanl (f : F) (z : E) (xs : A)
  /-- A prescan from the left, and the total. -/
  | scanlTotal (f : F) (z : E) (xs : A)
  /-- The first result of an operation with two. -/
  | fst (xs : A)
  /-- The second result of an operation with two. -/
  | snd (xs : A)
  /-- A forward permutation into an array of defaults. -/
  | permute (f : F) (defaults : A) (ix : F) (src : A)
  /-- A backward permutation. -/
  | backpermute (sh : E) (ix : F) (src : A)
  /-- A function of the neighbourhood of every element. -/
  | stencil (f : S) (boundary : Boundary) (xs : A)
  deriving DecidableEq, BEq

namespace ArrayOp

variable {A E F S : Type}

inductive Part (A E F S : Type) where
  | array (a : A)
  | scalar (e : E)
  | function (f : F)
  | stencil (s : S)

def parts : ArrayOp A E F S → List (Part A E F S)
  | .use _ => []
  | .unit e => [.scalar e]
  | .generate sh f => [.scalar sh, .function f]
  | .reshape sh xs => [.scalar sh, .array xs]
  | .map f xs => [.function f, .array xs]
  | .zipWith f xs ys => [.function f, .array xs, .array ys]
  | .fold f z xs => [.function f, .scalar z, .array xs]
  | .fold1 f xs => [.function f, .array xs]
  | .foldSeg f z xs segs => [.function f, .scalar z, .array xs, .array segs]
  | .scanl f z xs => [.function f, .scalar z, .array xs]
  | .scanlTotal f z xs => [.function f, .scalar z, .array xs]
  | .fst xs => [.array xs]
  | .snd xs => [.array xs]
  | .permute f defaults ix src => [.function f, .array defaults, .function ix, .array src]
  | .backpermute sh ix src => [.scalar sh, .function ix, .array src]
  | .stencil f _ xs => [.stencil f, .array xs]

def arrays (op : ArrayOp A E F S) : List A :=
  op.parts.filterMap fun
    | .array a => some a
    | _ => none

/-- Replaces every operand, in order of declaration. -/
def mapM {A' E' F' S' : Type} {m : Type → Type} [Monad m]
    (array : A → m A') (scalar : E → m E') (function : F → m F') (stencil : S → m S') :
    ArrayOp A E F S → m (ArrayOp A' E' F' S')
  | .use a => return .use a
  | .unit e => return .unit (← scalar e)
  | .generate sh f => return .generate (← scalar sh) (← function f)
  | .reshape sh xs => return .reshape (← scalar sh) (← array xs)
  | .map f xs => return .map (← function f) (← array xs)
  | .zipWith f xs ys => return .zipWith (← function f) (← array xs) (← array ys)
  | .fold f z xs => return .fold (← function f) (← scalar z) (← array xs)
  | .fold1 f xs => return .fold1 (← function f) (← array xs)
  | .foldSeg f z xs segs =>
    return .foldSeg (← function f) (← scalar z) (← array xs) (← array segs)
  | .scanl f z xs => return .scanl (← function f) (← scalar z) (← array xs)
  | .scanlTotal f z xs => return .scanlTotal (← function f) (← scalar z) (← array xs)
  | .fst xs => return .fst (← array xs)
  | .snd xs => return .snd (← array xs)
  | .permute f defaults ix src =>
    return .permute (← function f) (← array defaults) (← function ix) (← array src)
  | .backpermute sh ix src => return .backpermute (← scalar sh) (← function ix) (← array src)
  | .stencil f boundary xs => return .stencil (← stencil f) boundary (← array xs)

def toJson (array : A → Json) (scalar : E → Json) (function : F → Json) (stencil : S → Json) :
    ArrayOp A E F S → Json
  | .use a => .tagged "Use" a.toJson
  | .unit e => .tagged "Unit" (scalar e)
  | .generate sh f => .tagged "Generate" (.arr [scalar sh, function f])
  | .reshape sh xs => .tagged "Reshape" (.arr [scalar sh, array xs])
  | .map f xs => .tagged "Map" (.arr [function f, array xs])
  | .zipWith f xs ys => .tagged "ZipWith" (.arr [function f, array xs, array ys])
  | .fold f z xs => .tagged "Fold" (.arr [function f, scalar z, array xs])
  | .fold1 f xs => .tagged "Fold1" (.arr [function f, array xs])
  | .foldSeg f z xs segs =>
    .tagged "FoldSeg" (.arr [function f, scalar z, array xs, array segs])
  | .scanl f z xs => .tagged "Scanl" (.arr [function f, scalar z, array xs])
  | .scanlTotal f z xs => .tagged "ScanlTotal" (.arr [function f, scalar z, array xs])
  | .fst xs => .tagged "Fst" (array xs)
  | .snd xs => .tagged "Snd" (array xs)
  | .permute f defaults ix src =>
    .tagged "Permute" (.arr [function f, array defaults, function ix, array src])
  | .backpermute sh ix src => .tagged "Backpermute" (.arr [scalar sh, function ix, array src])
  | .stencil f boundary xs => .tagged "Stencil" (.arr [stencil f, boundary.toJson, array xs])

/-- Reads the operation with a given tag, given readers of its operands. Several operands are a list
of exactly that length. -/
def ofTagged? (array : Json → Option A) (scalar : Json → Option E) (function : Json → Option F)
    (stencil : Json → Option S) (tag : String) (payload : Json) : Option (ArrayOp A E F S) :=
  match tag, payload with
  | "Use", a => return .use (← HostArray.ofJson? a)
  | "Unit", e => return .unit (← scalar e)
  | "Generate", .arr [sh, f] => return .generate (← scalar sh) (← function f)
  | "Reshape", .arr [sh, xs] => return .reshape (← scalar sh) (← array xs)
  | "Map", .arr [f, xs] => return .map (← function f) (← array xs)
  | "ZipWith", .arr [f, xs, ys] => return .zipWith (← function f) (← array xs) (← array ys)
  | "Fold", .arr [f, z, xs] => return .fold (← function f) (← scalar z) (← array xs)
  | "Fold1", .arr [f, xs] => return .fold1 (← function f) (← array xs)
  | "FoldSeg", .arr [f, z, xs, segs] =>
    return .foldSeg (← function f) (← scalar z) (← array xs) (← array segs)
  | "Scanl", .arr [f, z, xs] => return .scanl (← function f) (← scalar z) (← array xs)
  | "ScanlTotal", .arr [f, z, xs] => return .scanlTotal (← function f) (← scalar z) (← array xs)
  | "Fst", xs => return .fst (← array xs)
  | "Snd", xs => return .snd (← array xs)
  | "Permute", .arr [f, defaults, ix, src] =>
    return .permute (← function f) (← array defaults) (← function ix) (← array src)
  | "Backpermute", .arr [sh, ix, src] =>
    return .backpermute (← scalar sh) (← function ix) (← array src)
  | "Stencil", .arr [f, boundary, xs] =>
    return .stencil (← stencil f) (← Boundary.ofJson? boundary) (← array xs)
  | _, _ => none

end ArrayOp
end SharingRecovery
