import SharingRecovery.Graph.Basic
import SharingRecovery.Proofs.Inlining
import SharingRecovery.Term.Json

set_option autoImplicit false

/-!
Reading what has been written. All that a JSON form can lose are the numbers at its leaves: a number
that is no machine word is refused when it is read, and a double that is not finite is written as
null. The JSON form of a graph or of a term is read back as the same graph or term if it has no such
leaf, and it is not read at all if it has one.
-/

namespace SharingRecovery

open Json

/-- A number in a graph or in a term that its JSON form has to carry. -/
inductive Leaf where
  | word (n : Nat)
  | float (x : Float)

namespace Leaf

/-- Numbers have to be words, and doubles have to be finite. -/
def Readable : Leaf → Prop
  | .word n => n < Word.limit
  | .float x => x.isFinite = true

instance : DecidablePred Readable
  | .word n => inferInstanceAs (Decidable (n < Word.limit))
  | .float x => inferInstanceAs (Decidable (x.isFinite = true))

/-- A value, provided that its leaves are readable. -/
def accept {α : Type} (leaves : List Leaf) (value : α) : Option α :=
  if ∀ leaf ∈ leaves, leaf.Readable then some value else none

variable {α β : Type} {leaves rest : List Leaf}

private theorem accept_nil (value : α) : accept [] value = some value := by
  simp [accept]

private theorem accept_bind (value : α) (f : α → Option β) :
    (accept leaves value).bind f = if ∀ leaf ∈ leaves, leaf.Readable then f value else none := by
  unfold accept
  split <;> rfl

private theorem accept_bind_some (value : α) (f : α → β) :
    ((accept leaves value).bind fun a => some (f a)) = accept leaves (f value) :=
  accept_bind value _

private theorem accept_map (value : α) (f : α → β) :
    (accept leaves value).map f = accept leaves (f value) := by
  rw [Option.map_eq_bind]
  exact accept_bind_some value f

private theorem accept_bind_accept (value : α) (f : α → β) :
    ((accept leaves value).bind fun a => accept rest (f a)) =
    accept (leaves ++ rest) (f value) := by
  rw [accept_bind]
  simp only [accept, List.mem_append, or_imp, forall_and, ite_and]

private theorem mapM_accept {items : List α} {f : α → Option α} {leaves : α → List Leaf}
    (each : ∀ a ∈ items, f a = accept (leaves a) a) :
    items.mapM f = accept (items.flatMap leaves) items := by
  induction items with
  | nil => exact (accept_nil _).symm
  | cons a items ih =>
    have first := each a List.mem_cons_self
    have others := ih fun b member => each b (List.mem_cons_of_mem a member)
    simp only [List.mapM_cons, Option.bind_eq_bind, Option.pure_def, first, others,
      accept_bind_some, accept_bind_accept, List.flatMap_cons]

end Leaf

open Leaf

namespace Json

theorem word?_ofNat (n : Nat) : (ofNat n).word? = accept [.word n] n := by
  simp only [ofNat, word?, Int.natCast_nonneg, if_true, Int.toNat_natCast, Word.checked, accept,
    List.mem_singleton, forall_eq, Readable]

theorem list?_ofList {α : Type} {write : α → Json} {read : Json → Option α} {leaves : α → List Leaf}
    (each : ∀ a, read (write a) = accept (leaves a) a) (items : List α) :
    (ofList write items).list? read = accept (items.flatMap leaves) items := by
  rw [ofList, list?, List.mapM_map]
  exact mapM_accept fun a _ => each a

private theorem depth_le_depthItems {item : Json} {items : List Json} (member : item ∈ items) :
    item.depth ≤ depthItems items := by
  induction member with
  | head rest => exact Nat.le_max_left _ _
  | tail first _ ih => exact Nat.le_trans ih (Nat.le_max_right _ _)

private theorem depth_tagged_lt {tag : String} {payload : Json} {bound : Nat}
    (enough : (tagged tag payload).depth < bound + 1) : payload.depth < bound := by
  simp only [tagged, depth, depthFields] at enough
  omega

private theorem depth_pair_lt {tag : String} {first second : Json} {bound : Nat}
    (enough : (tagged tag (.arr [first, second])).depth < bound + 1) :
    first.depth < bound ∧ second.depth < bound := by
  have list := depth_tagged_lt enough
  simp only [depth, depthItems] at list
  omega

private theorem depth_lt_ofList {α : Type} (write : α → Json) {items : List α} {a : α}
    (member : a ∈ items) : (write a).depth < (ofList write items).depth :=
  Nat.lt_succ_of_le (depth_le_depthItems (List.mem_map_of_mem member))

end Json

def Scalar.leaves : Scalar → List Leaf
  | .float x => [.float x]
  | _ => []

theorem Scalar.ofJson?_toJson (value : Scalar) :
    ofJson? value.toJson = accept value.leaves value := by
  cases value with
  | int n =>
    show (int64? (.num (.int n.toInt))).map Scalar.int = _
    rw [int64?, if_pos ⟨n.minValue_le_toInt, n.toInt_le⟩, Int64.ofInt_toInt]
    exact (accept_nil _).symm
  | float x =>
    show (float? (ofFloat x)).map Scalar.float = _
    by_cases finite : x.isFinite = true <;> simp [ofFloat, float?, accept, leaves, Readable, finite]
  | bool b => exact (accept_nil _).symm

def HostArray.leaves (a : HostArray) : List Leaf :=
  a.shape.flatMap (fun n => [.word n]) ++ a.data.flatMap Scalar.leaves

theorem HostArray.ofJson?_toJson (a : HostArray) : ofJson? a.toJson = accept a.leaves a := by
  show ((ofList ofNat a.shape).list? word? >>= fun shape =>
    (ofList Scalar.toJson a.data).list? Scalar.ofJson? >>= fun data =>
    some (HostArray.mk shape data)) = _
  simp only [list?_ofList word?_ofNat, list?_ofList Scalar.ofJson?_toJson, Option.bind_eq_bind,
    accept_bind_some, accept_bind_accept, leaves]

def Neighbourhood.leaves (n : Neighbourhood) : List Leaf :=
  n.extents.flatMap fun extent => [.word extent]

theorem Neighbourhood.ofJson?_toJson (n : Neighbourhood) :
    ofJson? n.toJson = accept n.leaves n := by
  show ((ofList ofNat n.extents).list? word? >>= fun extents => some (Neighbourhood.mk extents)) = _
  simp only [list?_ofList word?_ofNat, Option.bind_eq_bind, accept_bind_some, leaves]

def Boundary.leaves : Boundary → List Leaf
  | .constant value => value.leaves
  | _ => []

theorem Boundary.ofJson?_toJson (boundary : Boundary) :
    ofJson? boundary.toJson = accept boundary.leaves boundary := by
  cases boundary with
  | clamp | reflect | wrap => exact (accept_nil _).symm
  | constant value =>
    have bare : (toJson (.constant value)).bareTag? = none := by
      cases value <;> rfl
    have tag : (toJson (.constant value)).tagged? = some ("Constant", value.toJson) := rfl
    simp only [ofJson?, bare, tag, Scalar.ofJson?_toJson, accept_map, leaves]

theorem Prim.ofJson?_toJson (p : Prim) : ofJson? p.toJson = some p := by
  cases p <;> rfl

theorem ArrayKey.ofJson?_toJson (key : ArrayKey) :
    ofJson? key.toJson = accept [.word key.slot] key := by
  rw [ofJson?, toJson, word?_ofNat, accept_map]

theorem ScalarKey.ofJson?_toJson (key : ScalarKey) :
    ofJson? key.toJson = accept [.word key.slot] key := by
  rw [ofJson?, toJson, word?_ofNat, accept_map]

def Lambda.leaves (f : Lambda) : List Leaf :=
  f.params.flatMap (fun key => [.word key.slot]) ++ [.word f.body.slot]

theorem Lambda.ofJson?_toJson (f : Lambda) : ofJson? f.toJson = accept f.leaves f := by
  show ((ofList ScalarKey.toJson f.params).list? ScalarKey.ofJson? >>= fun params =>
    ScalarKey.ofJson? f.body.toJson >>= fun body => some (Lambda.mk params body)) = _
  simp only [list?_ofList ScalarKey.ofJson?_toJson, ScalarKey.ofJson?_toJson, Option.bind_eq_bind,
    accept_bind_some, accept_bind_accept, leaves]

def StencilLambda.leaves (f : StencilLambda) : List Leaf :=
  f.neighbourhood.leaves ++ ([.word f.argument.slot] ++
    (f.neighbours.flatMap (fun key => [.word key.slot]) ++ [.word f.body.slot]))

theorem StencilLambda.ofJson?_toJson (f : StencilLambda) :
    ofJson? f.toJson = accept f.leaves f := by
  show (Neighbourhood.ofJson? f.neighbourhood.toJson >>= fun neighbourhood =>
    ScalarKey.ofJson? f.argument.toJson >>= fun argument =>
    (ofList ScalarKey.toJson f.neighbours).list? ScalarKey.ofJson? >>= fun neighbours =>
    ScalarKey.ofJson? f.body.toJson >>= fun body =>
      some (StencilLambda.mk neighbourhood argument neighbours body)) = _
  simp only [Neighbourhood.ofJson?_toJson, list?_ofList ScalarKey.ofJson?_toJson,
    ScalarKey.ofJson?_toJson, Option.bind_eq_bind, accept_bind_some, accept_bind_accept, leaves]

/-! ### Operations -/

section Operations

variable {A E F S : Type}

namespace ArrayOp

def constants : ArrayOp A E F S → List Leaf
  | .use a => a.leaves
  | .stencil _ boundary _ => boundary.leaves
  | _ => []

def Part.leaves (array : A → List Leaf) (scalar : E → List Leaf) (function : F → List Leaf)
    (stencil : S → List Leaf) : Part A E F S → List Leaf
  | .array a => array a
  | .scalar e => scalar e
  | .function f => function f
  | .stencil s => stencil s

def leaves (array : A → List Leaf) (scalar : E → List Leaf) (function : F → List Leaf)
    (stencil : S → List Leaf) (op : ArrayOp A E F S) : List Leaf :=
  op.constants ++ op.parts.flatMap (Part.leaves array scalar function stencil)

private theorem mapM_accept {op : ArrayOp A E F S} {a : A → Option A} {e : E → Option E}
    {f : F → Option F} {s : S → Option S} {la : A → List Leaf} {le : E → List Leaf}
    {lf : F → List Leaf} {ls : S → List Leaf}
    (each : op.Forall (fun x => a x = accept (la x) x) (fun x => e x = accept (le x) x)
      (fun x => f x = accept (lf x) x) fun x => s x = accept (ls x) x) :
    op.mapM a e f s = accept (op.parts.flatMap (Part.leaves la le lf ls)) op := by
  rw [mapM_congr each]
  cases op <;> simp only [mapM, parts, Part.leaves, List.flatMap_cons, List.flatMap_nil,
    List.append_nil, Option.bind_eq_bind, Option.pure_def, accept_nil, accept_bind_some,
    accept_bind_accept]

-- Reading an operation reads what is no operand, and then every operand.
private theorem ofTagged?_toJson_mapM (op : ArrayOp A E F S) (a : A → Json)
    (e : E → Json) (f : F → Json) (s : S → Json) (a' : Json → Option A) (e' : Json → Option E)
    (f' : Json → Option F) (s' : Json → Option S) :
    ∃ tag payload, op.toJson a e f s = .tagged tag payload ∧ tag ∉ ["Alet", "Avar"] ∧
      ofTagged? a' e' f' s' tag payload = (accept op.constants ()).bind fun _ =>
        op.mapM (fun x => a' (a x)) (fun x => e' (e x)) (fun x => f' (f x)) fun x => s' (s x) := by
  cases op with
  | use array =>
    refine ⟨_, _, rfl, by decide, ?_⟩
    show (HostArray.ofJson? array.toJson >>= fun array => some (ArrayOp.use array)) = _
    simp only [HostArray.ofJson?_toJson, Option.bind_eq_bind, accept_bind, constants, mapM]
    rfl
  | stencil g boundary xs =>
    refine ⟨_, _, rfl, by decide, ?_⟩
    show (s' (s g) >>= fun g => Boundary.ofJson? boundary.toJson >>= fun boundary =>
      a' (a xs) >>= fun xs => some (ArrayOp.stencil g boundary xs)) = _
    simp only [Boundary.ofJson?_toJson, Option.bind_eq_bind, accept_bind, constants, mapM]
    split
    · rfl
    · exact Option.bind_fun_none _
  | _ =>
    refine ⟨_, _, rfl, by decide, ?_⟩
    rw [constants, accept_nil]
    · rfl
    all_goals simp

theorem ofTagged?_toJson {op : ArrayOp A E F S} {a : A → Json} {e : E → Json} {f : F → Json}
    {s : S → Json} {a' : Json → Option A} {e' : Json → Option E} {f' : Json → Option F}
    {s' : Json → Option S} {la : A → List Leaf} {le : E → List Leaf} {lf : F → List Leaf}
    {ls : S → List Leaf}
    (each : op.Forall (fun x => a' (a x) = accept (la x) x) (fun x => e' (e x) = accept (le x) x)
      (fun x => f' (f x) = accept (lf x) x) fun x => s' (s x) = accept (ls x) x) :
    ∃ tag payload, op.toJson a e f s = .tagged tag payload ∧ tag ∉ ["Alet", "Avar"] ∧
      ofTagged? a' e' f' s' tag payload = accept (op.leaves la le lf ls) op := by
  obtain ⟨tag, payload, written, other, read⟩ := ofTagged?_toJson_mapM op a e f s a' e' f' s'
  refine ⟨tag, payload, written, other, ?_⟩
  rw [read, mapM_accept each]
  exact accept_bind_accept () fun _ => op

private theorem depth_lt_toJson (op : ArrayOp A E F S) (a : A → Json) (e : E → Json) (f : F → Json)
    (s : S → Json) : op.Forall (fun x => (a x).depth < (op.toJson a e f s).depth)
      (fun x => (e x).depth < (op.toJson a e f s).depth)
      (fun x => (f x).depth < (op.toJson a e f s).depth)
      fun x => (s x).depth < (op.toJson a e f s).depth := by
  cases op <;> simp [Forall, parts, Part.Holds, toJson, tagged, depth, depthItems, depthFields] <;>
    omega

private theorem toJson_mapOperands (op : ArrayOp A E F S) (a : A → Json)
    (e : E → Json) (f : F → Json) (s : S → Json) :
    (op.mapOperands a e f s).toJson id id id id = op.toJson a e f s := by
  cases op <;> rfl

private theorem leaves_mapOperands (op : ArrayOp A E F S) (a : A → List Leaf) (e : E → List Leaf)
    (f : F → List Leaf) (s : S → List Leaf) :
    (op.mapOperands a e f s).leaves id id id id = op.leaves a e f s := by
  cases op <;> rfl

end ArrayOp

namespace ScalarOp

def constants : ScalarOp A E → List Leaf
  | .const value => value.leaves
  | .prj i _ => [.word i]
  | _ => []

def leaves (array : A → List Leaf) (scalar : E → List Leaf) (op : ScalarOp A E) : List Leaf :=
  op.constants ++ (op.array?.toList.flatMap array ++ op.scalars.flatMap scalar)

private theorem mapM_accept {op : ScalarOp A E} {a : A → Option A} {e : E → Option E}
    {la : A → List Leaf} {le : E → List Leaf}
    (each : op.Forall (fun x => a x = accept (la x) x) fun x => e x = accept (le x) x) :
    op.mapM a e = accept (op.array?.toList.flatMap la ++ op.scalars.flatMap le) op := by
  rw [mapM_congr each]
  cases op <;> simp only [mapM, array?, scalars, Option.toList_none, Option.toList_some,
    List.flatMap_cons, List.flatMap_nil, List.append_nil, List.nil_append, Option.bind_eq_bind,
    Option.pure_def, Leaf.mapM_accept fun _ _ => rfl, accept_nil, accept_bind_some,
    accept_bind_accept]

-- Reading an operation reads what is no operand, and then every operand.
private theorem ofTagged?_toJson_mapM (op : ScalarOp A E) (a : A → Json) (e : E → Json)
    (a' : Json → Option A) (e' : Json → Option E) :
    ∃ tag payload, op.toJson a e = .tagged tag payload ∧ tag ∉ ["Let", "Var", "Param"] ∧
      ofTagged? a' e' tag payload = (accept op.constants ()).bind fun _ =>
        op.mapM (fun x => a' (a x)) fun x => e' (e x) := by
  cases op with
  | const value =>
    refine ⟨_, _, rfl, by decide, ?_⟩
    show (Scalar.ofJson? value.toJson >>= fun value => some (ScalarOp.const value)) = _
    simp only [Scalar.ofJson?_toJson, Option.bind_eq_bind, accept_bind, constants, mapM]
    rfl
  | prj i x =>
    refine ⟨_, _, rfl, by decide, ?_⟩
    show ((ofNat i).word? >>= fun i => e' (e x) >>= fun x => some (ScalarOp.prj i x)) = _
    simp only [word?_ofNat, Option.bind_eq_bind, accept_bind, constants, mapM]
    rfl
  | tuple es =>
    refine ⟨_, _, rfl, by decide, ?_⟩
    show ((es.map e).mapM e' >>= fun es => some (ScalarOp.tuple es)) = _
    rw [constants, accept_nil, List.mapM_map]
    · rfl
    all_goals simp
  | primApp p es =>
    refine ⟨_, _, rfl, by decide, ?_⟩
    show (Prim.ofJson? p.toJson >>= fun p => (es.map e).mapM e' >>= fun es =>
      some (ScalarOp.primApp p es)) = _
    rw [constants, accept_nil, List.mapM_map, Prim.ofJson?_toJson]
    · rfl
    all_goals simp
  | _ =>
    refine ⟨_, _, rfl, by decide, ?_⟩
    rw [constants, accept_nil]
    · rfl
    all_goals simp

theorem ofTagged?_toJson {op : ScalarOp A E} {a : A → Json} {e : E → Json} {a' : Json → Option A}
    {e' : Json → Option E} {la : A → List Leaf} {le : E → List Leaf}
    (each : op.Forall (fun x => a' (a x) = accept (la x) x) fun x => e' (e x) = accept (le x) x) :
    ∃ tag payload, op.toJson a e = .tagged tag payload ∧ tag ∉ ["Let", "Var", "Param"] ∧
      ofTagged? a' e' tag payload = accept (op.leaves la le) op := by
  obtain ⟨tag, payload, written, other, read⟩ := ofTagged?_toJson_mapM op a e a' e'
  refine ⟨tag, payload, written, other, ?_⟩
  rw [read, mapM_accept each]
  exact accept_bind_accept () fun _ => op

private theorem depth_lt_toJson (op : ScalarOp A E) (a : A → Json) (e : E → Json) :
    op.Forall (fun x => (a x).depth < (op.toJson a e).depth)
      fun x => (e x).depth < (op.toJson a e).depth := by
  cases op with
  | tuple es | primApp p es =>
    refine ⟨by simp [array?], fun x member => ?_⟩
    have item := depth_lt_ofList e (show x ∈ es from member)
    simp only [toJson, tagged, depth, depthItems, depthFields]
    omega
  | _ => simp [Forall, array?, scalars, toJson, tagged, depth, depthItems, depthFields] <;> omega

private theorem toJson_mapOperands (op : ScalarOp A E) (a : A → Json) (e : E → Json) :
    (op.mapOperands a e).toJson id id = op.toJson a e := by
  cases op <;> simp [mapOperands, mapM, toJson, ofList]

private theorem leaves_mapOperands (op : ScalarOp A E) (a : A → List Leaf) (e : E → List Leaf) :
    (op.mapOperands a e).leaves id id = op.leaves a e := by
  have constants : (op.mapOperands a e).constants = op.constants := by cases op <;> rfl
  rw [leaves, leaves, constants, array?_mapOperands, scalars_mapOperands, List.flatMap_map,
    Option.toList_map, List.flatMap_map]
  rfl

end ScalarOp
end Operations

/-! ### Graphs -/

def ArrayNode.leaves (node : ArrayNode) : List Leaf :=
  ArrayOp.leaves (fun key => [.word key.slot]) (fun key => [.word key.slot]) Lambda.leaves
    StencilLambda.leaves node

theorem ArrayNode.ofJson?_toJson (node : ArrayNode) :
    ofJson? node.toJson = accept node.leaves node := by
  have each : ArrayOp.Forall (fun key => ArrayKey.ofJson? key.toJson = accept [.word key.slot] key)
      (fun key => ScalarKey.ofJson? key.toJson = accept [.word key.slot] key)
      (fun f => Lambda.ofJson? f.toJson = accept f.leaves f)
      (fun f => StencilLambda.ofJson? f.toJson = accept f.leaves f) node := by
    rintro (key | key | f | f) -
    · exact ArrayKey.ofJson?_toJson key
    · exact ScalarKey.ofJson?_toJson key
    · exact Lambda.ofJson?_toJson f
    · exact StencilLambda.ofJson?_toJson f
  obtain ⟨tag, payload, written, -, read⟩ := ArrayOp.ofTagged?_toJson each
  rw [toJson, written]
  exact read

def ScalarNode.leaves : ScalarNode → List Leaf
  | .param => []
  | .op operation => operation.leaves (fun key => [.word key.slot]) fun key => [.word key.slot]

theorem ScalarNode.ofJson?_toJson (node : ScalarNode) :
    ofJson? node.toJson = accept node.leaves node := by
  cases node with
  | param => exact (accept_nil _).symm
  | op operation =>
    have each : operation.Forall
        (fun key => ArrayKey.ofJson? key.toJson = accept [.word key.slot] key)
        (fun key => ScalarKey.ofJson? key.toJson = accept [.word key.slot] key) :=
      ⟨fun key _ => ArrayKey.ofJson?_toJson key, fun key _ => ScalarKey.ofJson?_toJson key⟩
    obtain ⟨tag, payload, written, other, read⟩ := ScalarOp.ofTagged?_toJson each
    have bare : (tagged tag payload).bareTag? ≠ some "Param" := by
      rw [tagged]
      unfold bareTag?
      split <;> simp_all
    rw [toJson, written, ofJson?, if_neg bare]
    show (ScalarOp.ofTagged? ArrayKey.ofJson? ScalarKey.ofJson? tag payload >>= fun operation =>
      some (ScalarNode.op operation)) = _
    rw [read]
    exact accept_bind_some operation ScalarNode.op

theorem Arena.ofJson?_toJson {α : Type} {write : α → Json} {read : Json → Option α}
    {leaves : α → List Leaf} (each : ∀ a, read (write a) = accept (leaves a) a) (arena : Arena α) :
    ofJson? read (arena.toJson write) = accept (arena.slots.toList.flatMap leaves) arena := by
  rw [ofJson?, toJson, list?_ofList each, accept_map]

def Graph.leaves (g : Graph) : List Leaf :=
  g.arrays.slots.toList.flatMap ArrayNode.leaves ++ g.scalars.slots.toList.flatMap ScalarNode.leaves

theorem Graph.ofJson?_toJson (g : Graph) : ofJson? g.toJson = accept g.leaves g := by
  show (Arena.ofJson? ArrayNode.ofJson? (g.arrays.toJson ArrayNode.toJson) >>= fun arrays =>
    Arena.ofJson? ScalarNode.ofJson? (g.scalars.toJson ScalarNode.toJson) >>= fun scalars =>
      some (Graph.mk arrays scalars)) = _
  simp only [Arena.ofJson?_toJson ArrayNode.ofJson?_toJson,
    Arena.ofJson?_toJson ScalarNode.ofJson?_toJson,
    Option.bind_eq_bind, accept_bind_some, accept_bind_accept, leaves]

/-! ### Terms -/

def Term.leafForm : Term.Algebra (List Leaf) (List Leaf) (List Leaf) where
  arrayLet bound body := bound ++ body
  arrayVar index := [.word index]
  arrayOp operation := operation.leaves id id id id
  lam inner := inner
  body e := e
  scalarLet bound body := bound ++ body
  scalarVar index := [.word index]
  scalarOp operation := operation.leaves id id

def ArrayTerm.leaves (t : ArrayTerm) : List Leaf :=
  t.fold Term.leafForm

def FunTerm.leaves (f : FunTerm) : List Leaf :=
  f.fold Term.leafForm

def ScalarTerm.leaves (e : ScalarTerm) : List Leaf :=
  e.fold Term.leafForm

theorem ArrayTerm.toJson_op (op : ArrayOp ArrayTerm ScalarTerm FunTerm FunTerm) :
    (ArrayTerm.op op).toJson =
      op.toJson toJson ScalarTerm.toJson FunTerm.toJson FunTerm.toJson := by
  rw [toJson, fold_op]
  exact ArrayOp.toJson_mapOperands op _ _ _ _

theorem ArrayTerm.leaves_op (op : ArrayOp ArrayTerm ScalarTerm FunTerm FunTerm) :
    (ArrayTerm.op op).leaves =
      op.leaves leaves ScalarTerm.leaves FunTerm.leaves FunTerm.leaves := by
  rw [leaves, fold_op]
  exact ArrayOp.leaves_mapOperands op _ _ _ _

theorem ScalarTerm.toJson_op (op : ScalarOp ArrayTerm ScalarTerm) :
    (ScalarTerm.op op).toJson = op.toJson ArrayTerm.toJson toJson := by
  rw [toJson, fold_op]
  exact ScalarOp.toJson_mapOperands op _ _

theorem ScalarTerm.leaves_op (op : ScalarOp ArrayTerm ScalarTerm) :
    (ScalarTerm.op op).leaves = op.leaves ArrayTerm.leaves leaves := by
  rw [leaves, fold_op]
  exact ScalarOp.leaves_mapOperands op _ _

namespace Term

variable {depth : Nat} {tag : String} {payload : Json}

private theorem readArray?_tagged (other : tag ∉ ["Alet", "Avar"]) :
    readArray? (depth + 1) (.tagged tag payload) = (ArrayOp.ofTagged? (readArray? depth)
      (readScalar? depth) (readFun? depth) (readFun? depth) tag payload).map .op := by
  rw [List.mem_pair, not_or] at other
  simp only [readArray?, tagged, tagged?, Option.bind_eq_bind, Option.bind_some, Option.pure_def]
  split
  next same => exact absurd (congrArg Prod.fst same) other.1
  next same => exact absurd (congrArg Prod.fst same) other.2
  next same =>
    obtain ⟨rfl, rfl⟩ := Prod.mk.inj same
    exact Option.map_eq_bind.symm

private theorem readScalar?_tagged (other : tag ∉ ["Let", "Var", "Param"]) :
    readScalar? (depth + 1) (.tagged tag payload) = (ScalarOp.ofTagged? (readArray? depth)
      (readScalar? depth) tag payload).map .op := by
  rw [List.mem_cons, List.mem_pair, not_or, not_or] at other
  simp only [readScalar?, tagged, tagged?, Option.bind_eq_bind, Option.bind_some, Option.pure_def]
  split
  next same => exact absurd (congrArg Prod.fst same) other.1
  next same => exact absurd (congrArg Prod.fst same) other.2.1
  next same =>
    obtain ⟨rfl, rfl⟩ := Prod.mk.inj same
    exact Option.map_eq_bind.symm

-- No nesting is below an allowance of zero, so only the others have to be looked at.
private theorem read_of_succ {α : Type} {read : Nat → Json → Option α} {json : Json}
    {result : Option α} (step : ∀ depth, json.depth < depth + 1 → read (depth + 1) json = result) :
    ∀ depth, json.depth < depth → read depth json = result
  | 0, enough => absurd enough (Nat.not_lt_zero _)
  | depth + 1, enough => step depth enough

/-- Terms are read back with any allowance for nesting that is greater than the nesting of their
JSON form. -/
theorem read_toJson :
    (∀ (t : ArrayTerm) depth, t.toJson.depth < depth →
      readArray? depth t.toJson = accept t.leaves t) ∧
    (∀ (f : FunTerm) depth, f.toJson.depth < depth →
      readFun? depth f.toJson = accept f.leaves f) ∧
    ∀ (e : ScalarTerm) depth, e.toJson.depth < depth →
      readScalar? depth e.toJson = accept e.leaves e := by
  refine Term.induction _ _ _ ?arrayLet ?arrayVar ?arrayOp ?lam ?body ?scalarLet
    ?scalarVar ?scalarOp
  case arrayLet =>
    refine fun bound body readBound readBody => read_of_succ fun depth enough => ?_
    replace enough := depth_pair_lt enough
    show (readArray? depth bound.toJson >>= fun bound =>
      readArray? depth body.toJson >>= fun body =>
      some (ArrayTerm.letIn bound body)) = _
    rw [readBound depth enough.1, readBody depth enough.2]
    simp only [Option.bind_eq_bind, accept_bind_some, accept_bind_accept]
    rfl
  case arrayVar =>
    refine fun i => read_of_succ fun depth enough => ?_
    show ((ofNat i).word? >>= fun i => some (ArrayTerm.var i)) = _
    rw [word?_ofNat]
    exact accept_bind_some i ArrayTerm.var
  case arrayOp =>
    refine fun op each => read_of_succ fun depth enough => ?_
    rw [ArrayTerm.toJson_op] at enough ⊢
    have read := each.imp₂
      (op.depth_lt_toJson ArrayTerm.toJson ScalarTerm.toJson FunTerm.toJson FunTerm.toJson)
      (fun t ih below => ih depth (by omega)) (fun e ih below => ih depth (by omega))
      (fun f ih below => ih depth (by omega)) (fun f ih below => ih depth (by omega))
    obtain ⟨tag, payload, written, other, read⟩ := ArrayOp.ofTagged?_toJson read
    rw [written, readArray?_tagged other, read, accept_map, ArrayTerm.leaves_op]
  case lam =>
    refine fun inner readInner => read_of_succ fun depth enough => ?_
    show (readFun? depth inner.toJson >>= fun inner => some (FunTerm.lam inner)) = _
    rw [readInner depth (depth_tagged_lt enough)]
    exact accept_bind_some inner FunTerm.lam
  case body =>
    refine fun e readBody => read_of_succ fun depth enough => ?_
    show (readScalar? depth e.toJson >>= fun e => some (FunTerm.body e)) = _
    rw [readBody depth (depth_tagged_lt enough)]
    exact accept_bind_some e FunTerm.body
  case scalarLet =>
    refine fun bound body readBound readBody => read_of_succ fun depth enough => ?_
    replace enough := depth_pair_lt enough
    show (readScalar? depth bound.toJson >>= fun bound =>
      readScalar? depth body.toJson >>= fun body =>
      some (ScalarTerm.letIn bound body)) = _
    rw [readBound depth enough.1, readBody depth enough.2]
    simp only [Option.bind_eq_bind, accept_bind_some, accept_bind_accept]
    rfl
  case scalarVar =>
    refine fun i => read_of_succ fun depth enough => ?_
    show ((ofNat i).word? >>= fun i => some (ScalarTerm.var i)) = _
    rw [word?_ofNat]
    exact accept_bind_some i ScalarTerm.var
  case scalarOp =>
    refine fun op each => read_of_succ fun depth enough => ?_
    rw [ScalarTerm.toJson_op] at enough ⊢
    have read := each.imp₂ (op.depth_lt_toJson ArrayTerm.toJson ScalarTerm.toJson)
      (fun t ih below => ih depth (by omega)) (fun e ih below => ih depth (by omega))
    obtain ⟨tag, payload, written, other, read⟩ := ScalarOp.ofTagged?_toJson read
    rw [written, readScalar?_tagged other, read, accept_map, ScalarTerm.leaves_op]

end Term

/-- The JSON form of a graph is read back as this graph if all numbers in it are words and all
doubles in it are finite, and is refused otherwise. The same holds of array terms, functions and
scalar terms, however deeply they are nested. -/
theorem json_round_trip (g : Graph) (t : ArrayTerm) (f : FunTerm) (e : ScalarTerm) :
    (Graph.ofJson? g.toJson = if ∀ leaf ∈ g.leaves, leaf.Readable then some g else none) ∧
    (ArrayTerm.ofJson? t.toJson = if ∀ leaf ∈ t.leaves, leaf.Readable then some t else none) ∧
    (FunTerm.ofJson? f.toJson = if ∀ leaf ∈ f.leaves, leaf.Readable then some f else none) ∧
    (ScalarTerm.ofJson? e.toJson = if ∀ leaf ∈ e.leaves, leaf.Readable then some e else none) :=
  ⟨g.ofJson?_toJson, Term.read_toJson.1 t _ (Nat.lt_succ_self _),
    Term.read_toJson.2.1 f _ (Nat.lt_succ_self _), Term.read_toJson.2.2 e _ (Nat.lt_succ_self _)⟩

-- An infinite component spoils the whole tuple.
example :
    let infinite : Scalar := .float (Float.ofBits 0x7ff0000000000000)
    ScalarTerm.ofJson? (ScalarTerm.op (.tuple [.var 0, .op (.const infinite)])).toJson = none := rfl

end SharingRecovery
