import SharingRecovery.Graph.Builder
import SharingRecovery.Proofs.WellFormed

set_option autoImplicit false

/-!
What construction makes. A graph that is built from nothing by the constructors, functions that
build on it themselves included, holds only keys that exist, has no cycle, and has placeholders of
its own for every function.

Neither the array slots nor the scalar slots alone order the nodes, since a function may add array
nodes between the placeholders and the body. What one call keeps is therefore stated of the graph as
a whole: a new node refers to nodes that were there before, and they to others that were there
before.
-/

namespace SharingRecovery

def ArrayNode.placeholders (node : ArrayNode) : List ScalarKey :=
  node.parts.flatMap fun
    | .array _ => []
    | .scalar _ => []
    | .function f => f.params
    | .stencil f => f.argument :: f.neighbours

def ArrayNode.keys (node : ArrayNode) : List NodeKey :=
  node.arrays.map .array ++ node.scalarCode.map .scalar ++ node.placeholders.map .scalar

def ScalarNode.keys (node : ScalarNode) : List NodeKey :=
  node.operands.map .scalar ++ node.array?.toList.map .array

namespace Graph

def placeholders (g : Graph) : List ScalarKey :=
  g.arrays.slots.toList.flatMap ArrayNode.placeholders

/-- A sound graph: every key that is held exists, nothing refers to itself through others, no
placeholder is given twice, neither to one function nor to two, and a stencil has as many neighbours
as its neighbourhood. -/
structure Sound (g : Graph) : Prop where
  array_keys : ∀ key node, g.array? key = some node → ∀ held ∈ node.keys, g.Has held
  scalar_keys : ∀ key node, g.scalar? key = some node → ∀ held ∈ node.keys, g.Has held
  acyclic : g.Acyclic
  nodup : g.placeholders.Nodup
  params : ∀ key ∈ g.placeholders, g.scalar? key = some .param
  stencils : ∀ key f boundary xs, g.array? key = some (.stencil f boundary xs) →
    f.neighbours.length = f.neighbourhood.size

structure Kept (g h : Graph) : Prop where
  array : ∀ key node, g.array? key = some node → h.array? key = some node
  scalar : ∀ key node, g.scalar? key = some node → h.scalar? key = some node

variable {g h k : Graph}

theorem Kept.trans (first : g.Kept h) (second : h.Kept k) : g.Kept k where
  array key node found := second.array key node (first.array key node found)
  scalar key node found := second.scalar key node (first.scalar key node found)

theorem Kept.has (kept : g.Kept h) {key : NodeKey} (has : g.Has key) : h.Has key := by
  cases key with
  | array key =>
    obtain ⟨node, found⟩ := has
    exact ⟨node, kept.array key node found⟩
  | scalar key =>
    obtain ⟨node, found⟩ := has
    exact ⟨node, kept.scalar key node found⟩

private theorem Sound.has_of_refers (sound : g.Sound) {source target : NodeKey}
    (member : target ∈ g.refers source) : g.Has target := by
  cases source with
  | array key =>
    obtain ⟨node, found, _⟩ := mem_refers_array.mp member
    rw [refers, found] at member
    exact sound.array_keys key node found target (List.mem_append_left _ member)
  | scalar key =>
    obtain ⟨node, found, _⟩ := mem_refers_scalar.mp member
    rw [refers, found] at member
    exact sound.scalar_keys key node found target member

private theorem Sound.acyclic_of_insert (sound : g.Sound) {new : NodeKey} (absent : ¬g.Has new)
    (same : ∀ key, key ≠ new → h.refers key = g.refers key)
    (operands : ∀ target ∈ h.refers new, g.Has target) : h.Acyclic := by
  have inside : ∀ {source target}, h.Reaches source target → g.Has source →
      g.Reaches source target ∧ g.Has target := by
    intro source target reaches has
    induction reaches with
    | refl => exact ⟨.refl, has⟩
    | @tail middle target _ member ih =>
      obtain ⟨before, has⟩ := ih
      have different : middle ≠ new := fun equal => absent (equal ▸ has)
      rw [same middle different] at member
      exact ⟨before.tail member, sound.has_of_refers member⟩
  intro source target member back
  by_cases equal : source = new
  · subst equal
    exact absent (inside back (operands target member)).2
  · rw [same source equal] at member
    exact sound.acyclic source target member (inside back (sound.has_of_refers member)).1

section Scalar

variable (g) (node : ScalarNode)

private theorem scalar?_insertScalar (key : ScalarKey) : (g.insertScalar node).2.scalar? key =
    if key = (g.insertScalar node).1 then some node else g.scalar? key := by
  refine (g.scalars.get?_insert node key.slot).trans ?_
  have same : key.slot = g.scalars.size ↔ key = (g.insertScalar node).1 :=
    ScalarKey.slot_injective.eq_iff' rfl
  simp only [same]
  rfl

private theorem not_has_insertScalar : ¬g.Has (.scalar (g.insertScalar node).1) := by
  rintro ⟨other, found⟩
  exact absurd (slot_lt_of_scalar found) (Nat.lt_irrefl g.scalars.size)

private theorem kept_insertScalar : g.Kept (g.insertScalar node).2 where
  array key other found := found
  scalar key other found := by
    rw [scalar?_insertScalar, if_neg]
    · exact found
    · rintro rfl
      exact not_has_insertScalar g node ⟨other, found⟩

end Scalar

theorem Sound.insertScalar (sound : g.Sound) {node : ScalarNode}
    (operands : ∀ key ∈ node.keys, g.Has key) : (g.insertScalar node).2.Sound := by
  have kept := kept_insertScalar g node
  have absent := not_has_insertScalar g node
  have found := scalar?_insertScalar g node
  refine {
    array_keys := fun key other here held member =>
      kept.has (sound.array_keys key other here held member)
    scalar_keys := fun key other here held member => ?_
    acyclic := sound.acyclic_of_insert absent (fun key different => ?_) fun target member => ?_
    nodup := sound.nodup
    params := fun key member => kept.scalar key .param (sound.params key member)
    stencils := sound.stencils }
  · rw [found] at here
    split at here
    · obtain rfl := Option.some.inj here
      exact kept.has (operands held member)
    · exact kept.has (sound.scalar_keys key other here held member)
  · cases key with
    | array key => rfl
    | scalar key =>
      have different : key ≠ (g.insertScalar node).1 := fun equal => different (congrArg _ equal)
      rw [refers, refers, found, if_neg different]
  · rw [refers, found, if_pos rfl] at member
    exact operands target member

section Array

variable (g) (node : ArrayNode)

private theorem array?_insertArray (key : ArrayKey) : (g.insertArray node).2.array? key =
    if key = (g.insertArray node).1 then some node else g.array? key := by
  refine (g.arrays.get?_insert node key.slot).trans ?_
  have same : key.slot = g.arrays.size ↔ key = (g.insertArray node).1 :=
    ArrayKey.slot_injective.eq_iff' rfl
  simp only [same]
  rfl

private theorem not_has_insertArray : ¬g.Has (.array (g.insertArray node).1) := by
  rintro ⟨other, found⟩
  exact absurd (slot_lt_of_array found) (Nat.lt_irrefl g.arrays.size)

private theorem kept_insertArray : g.Kept (g.insertArray node).2 where
  scalar key other found := found
  array key other found := by
    rw [array?_insertArray, if_neg]
    · exact found
    · rintro rfl
      exact not_has_insertArray g node ⟨other, found⟩

private theorem placeholders_insertArray :
    (g.insertArray node).2.placeholders = g.placeholders ++ node.placeholders := by
  show (g.arrays.slots.push node).toList.flatMap ArrayNode.placeholders = _
  rw [Array.toList_push, List.flatMap_append, List.flatMap_singleton]
  rfl

end Array

theorem Sound.insertArray (sound : g.Sound) {node : ArrayNode}
    (operands : ∀ key ∈ node.keys, g.Has key) (nodup : node.placeholders.Nodup)
    (params : ∀ key ∈ node.placeholders, g.scalar? key = some .param)
    (unused : ∀ key ∈ node.placeholders, key ∉ g.placeholders)
    (stencil : ∀ f boundary xs, node = .stencil f boundary xs →
      f.neighbours.length = f.neighbourhood.size) : (g.insertArray node).2.Sound := by
  have kept := kept_insertArray g node
  have absent := not_has_insertArray g node
  have found := array?_insertArray g node
  have placeholders := placeholders_insertArray g node
  refine {
    scalar_keys := fun key other here held member =>
      kept.has (sound.scalar_keys key other here held member)
    array_keys := fun key other here held member => ?_
    acyclic := sound.acyclic_of_insert absent (fun key different => ?_) fun target member => ?_
    nodup := ?_
    params := fun key member => ?_
    stencils := fun key f boundary xs here => ?_ }
  · rw [found] at here
    split at here
    · obtain rfl := Option.some.inj here
      exact kept.has (operands held member)
    · exact kept.has (sound.array_keys key other here held member)
  · cases key with
    | scalar key => rfl
    | array key =>
      have different : key ≠ (g.insertArray node).1 := fun equal => different (congrArg _ equal)
      rw [refers, refers, found, if_neg different]
  · rw [refers, found, if_pos rfl] at member
    exact operands target (List.mem_append_left _ member)
  · rw [placeholders]
    exact sound.nodup.append nodup fun key old new => unused key new old
  · rw [placeholders, List.mem_append] at member
    exact member.elim (sound.params key) (params key)
  · rw [found] at here
    split at here
    · exact stencil f boundary xs (Option.some.inj here)
    · exact sound.stencils key f boundary xs here

/-- A graph has grown into a sound one, in which the functions that are new have new placeholders.
Further new placeholders are kept back: they belong to no function yet. -/
structure Grown (g h : Graph) (back : List ScalarKey) : Prop where
  sound : h.Sound
  kept : g.Kept h
  fresh : ∀ key ∈ h.placeholders, key ∈ g.placeholders ∨ ¬g.Has (.scalar key)
  nodup : back.Nodup
  params : ∀ key ∈ back, h.scalar? key = some .param
  unused : ∀ key ∈ back, key ∉ h.placeholders
  new : ∀ key ∈ back, ¬g.Has (.scalar key)

namespace Grown

variable {back back' : List ScalarKey}

theorem refl (sound : g.Sound) : g.Grown g [] where
  sound
  kept := ⟨fun _ _ found => found, fun _ _ found => found⟩
  fresh _ member := .inl member
  nodup := List.nodup_nil
  params := nofun
  unused := nofun
  new := nofun

theorem trans (first : g.Grown h back) (second : h.Grown k back') : g.Grown k (back ++ back') := by
  have there : ∀ key ∈ back, h.Has (.scalar key) := fun key member => ⟨_, first.params key member⟩
  refine {
    sound := second.sound
    kept := first.kept.trans second.kept
    fresh := fun key member => ?_
    nodup := first.nodup.append second.nodup fun key one two => second.new key two (there key one)
    params := fun key member => ?_
    unused := fun key member => ?_
    new := fun key member => ?_ }
  · rcases second.fresh key member with old | absent
    · exact first.fresh key old
    · exact .inr fun has => absent (first.kept.has has)
  · rcases List.mem_append.mp member with member | member
    · exact second.kept.scalar key .param (first.params key member)
    · exact second.params key member
  · rcases List.mem_append.mp member with member | member
    · intro used
      rcases second.fresh key used with old | absent
      · exact first.unused key member old
      · exact absent (there key member)
    · exact second.unused key member
  · rcases List.mem_append.mp member with member | member
    · exact first.new key member
    · exact fun has => second.new key member (first.kept.has has)

private theorem array (grown : g.Grown h back) {node : ArrayNode}
    (placeholders : node.placeholders = back) (arrays : ∀ xs ∈ node.arrays, h.Has (.array xs))
    (code : ∀ e ∈ node.scalarCode, h.Has (.scalar e))
    (stencil : ∀ f boundary xs, node = .stencil f boundary xs →
      f.neighbours.length = f.neighbourhood.size) : g.Grown (h.insertArray node).2 [] := by
  subst placeholders
  refine {
    sound := grown.sound.insertArray ?_ grown.nodup grown.params grown.unused stencil
    kept := grown.kept.trans (kept_insertArray h node)
    fresh := fun key member => ?_
    nodup := List.nodup_nil
    params := nofun
    unused := nofun
    new := nofun }
  · intro key member
    simp only [ArrayNode.keys, List.mem_append, List.mem_map] at member
    rcases member with (⟨xs, inside, rfl⟩ | ⟨e, inside, rfl⟩) | ⟨x, inside, rfl⟩
    · exact arrays xs inside
    · exact code e inside
    · exact ⟨_, grown.params x inside⟩
  · rw [placeholders_insertArray, List.mem_append] at member
    rcases member with old | taken
    · exact grown.fresh key old
    · exact .inr (grown.new key taken)

private theorem param (sound : g.Sound) :
    g.Grown (g.insertScalar .param).2 [(g.insertScalar .param).1] where
  sound := sound.insertScalar nofun
  kept := kept_insertScalar g .param
  fresh _ member := .inl member
  nodup := List.nodup_singleton _
  params := List.forall_mem_singleton.mpr (by rw [scalar?_insertScalar, if_pos rfl])
  unused := List.forall_mem_singleton.mpr fun used =>
    not_has_insertScalar g .param ⟨_, sound.params _ used⟩
  new := List.forall_mem_singleton.mpr (not_has_insertScalar g .param)

private theorem operation (sound : g.Sound) {op : ScalarOp ArrayKey ScalarKey}
    (operands : op.Forall (fun xs => g.Has (.array xs)) fun e => g.Has (.scalar e)) :
    g.Grown (g.insertScalar (.op op)).2 [] where
  sound := by
    refine sound.insertScalar fun key member => ?_
    simp only [ScalarNode.keys, List.mem_append, List.mem_map] at member
    rcases member with ⟨e, inside, rfl⟩ | ⟨xs, inside, rfl⟩
    · exact operands.2 e inside
    · exact operands.1 xs (Option.mem_toList.mp inside)
  kept := kept_insertScalar g (.op op)
  fresh _ member := .inl member
  nodup := List.nodup_nil
  params := nofun
  unused := nofun
  new := nofun

private theorem drop (grown : g.Grown h back) : g.Grown h [] where
  sound := grown.sound
  kept := grown.kept
  fresh := grown.fresh
  nodup := List.nodup_nil
  params := nofun
  unused := nofun
  new := nofun

private theorem calls (first : g.Grown h back) (second : h.Grown k []) : g.Grown k back := by
  have both := first.trans second
  rwa [List.append_nil] at both

end Grown
end Graph

namespace Builder

def after {α : Type} (build : StateM Graph α) (g : Graph) : Graph :=
  (build.run g).2

def Returns (f : StateM Graph Lambda) (g : Graph) : Prop :=
  (after f g).Has (.scalar (f.run g).1.body)

def ReturnsStencil (f : StateM Graph StencilLambda) (g : Graph) : Prop :=
  (after f g).Has (.scalar (f.run g).1.body)

/-- A graph comes from another by calls of constructors, each with operands that exist when it is
called. A function that is given to a constructor makes calls itself, after its placeholders have
been added, and returns a key that exists then. The other scalar constructors are calls of
`operation`, as is shown below. -/
inductive Calls : Graph → Graph → Prop
  | none (g : Graph) : Calls g g
  | trans {g h k : Graph} : Calls g h → Calls h k → Calls g k
  | param (g : Graph) : Calls g (after param g)
  | operation {g : Graph} {op : ScalarOp ArrayKey ScalarKey} :
      op.Forall (fun xs => g.Has (.array xs)) (fun e => g.Has (.scalar e)) →
      Calls g (after (operation op) g)
  | use (g : Graph) (xs : HostArray) : Calls g (after (use xs) g)
  | unit {g : Graph} {e : ScalarKey} : g.Has (.scalar e) → Calls g (after (unit e) g)
  | generate {g : Graph} {sh : ScalarKey} {f : ScalarKey → StateM Graph ScalarKey} :
      g.Has (.scalar sh) →
      Calls (after (params 1) g) (after (lambda1 f) g) → Returns (lambda1 f) g →
      Calls g (after (generate sh f) g)
  | reshape {g : Graph} {sh : ScalarKey} {xs : ArrayKey} : g.Has (.scalar sh) → g.Has (.array xs) →
      Calls g (after (reshape sh xs) g)
  | map {g : Graph} {f : ScalarKey → StateM Graph ScalarKey} {xs : ArrayKey} : g.Has (.array xs) →
      Calls (after (params 1) g) (after (lambda1 f) g) → Returns (lambda1 f) g →
      Calls g (after (map f xs) g)
  | zipWith {g : Graph} {f : ScalarKey → ScalarKey → StateM Graph ScalarKey} {xs ys : ArrayKey} :
      g.Has (.array xs) → g.Has (.array ys) →
      Calls (after (params 2) g) (after (lambda2 f) g) → Returns (lambda2 f) g →
      Calls g (after (zipWith f xs ys) g)
  | fold {g : Graph} {f : ScalarKey → ScalarKey → StateM Graph ScalarKey} {z : ScalarKey}
      {xs : ArrayKey} : g.Has (.scalar z) → g.Has (.array xs) →
      Calls (after (params 2) g) (after (lambda2 f) g) → Returns (lambda2 f) g →
      Calls g (after (fold f z xs) g)
  | fold1 {g : Graph} {f : ScalarKey → ScalarKey → StateM Graph ScalarKey} {xs : ArrayKey} :
      g.Has (.array xs) →
      Calls (after (params 2) g) (after (lambda2 f) g) → Returns (lambda2 f) g →
      Calls g (after (fold1 f xs) g)
  | foldSeg {g : Graph} {f : ScalarKey → ScalarKey → StateM Graph ScalarKey} {z : ScalarKey}
      {xs segs : ArrayKey} : g.Has (.scalar z) → g.Has (.array xs) → g.Has (.array segs) →
      Calls (after (params 2) g) (after (lambda2 f) g) → Returns (lambda2 f) g →
      Calls g (after (foldSeg f z xs segs) g)
  | scanl {g : Graph} {f : ScalarKey → ScalarKey → StateM Graph ScalarKey} {z : ScalarKey}
      {xs : ArrayKey} : g.Has (.scalar z) → g.Has (.array xs) →
      Calls (after (params 2) g) (after (lambda2 f) g) → Returns (lambda2 f) g →
      Calls g (after (scanl f z xs) g)
  | scanlTotal {g : Graph} {f : ScalarKey → ScalarKey → StateM Graph ScalarKey} {z : ScalarKey}
      {xs : ArrayKey} : g.Has (.scalar z) → g.Has (.array xs) →
      Calls (after (params 2) g) (after (lambda2 f) g) → Returns (lambda2 f) g →
      Calls g (after (scanlTotal f z xs) g)
  | fst {g : Graph} {xs : ArrayKey} : g.Has (.array xs) → Calls g (after (fst xs) g)
  | snd {g : Graph} {xs : ArrayKey} : g.Has (.array xs) → Calls g (after (snd xs) g)
  | permute {g : Graph} {f : ScalarKey → ScalarKey → StateM Graph ScalarKey}
      {ix : ScalarKey → StateM Graph ScalarKey} {defaults src : ArrayKey} :
      g.Has (.array defaults) → g.Has (.array src) →
      Calls (after (params 2) g) (after (lambda2 f) g) → Returns (lambda2 f) g →
      Calls (after (params 1) (after (lambda2 f) g)) (after (lambda1 ix) (after (lambda2 f) g)) →
      Returns (lambda1 ix) (after (lambda2 f) g) → Calls g (after (permute f defaults ix src) g)
  | backpermute {g : Graph} {sh : ScalarKey} {ix : ScalarKey → StateM Graph ScalarKey}
      {src : ArrayKey} : g.Has (.scalar sh) → g.Has (.array src) →
      Calls (after (params 1) g) (after (lambda1 ix) g) → Returns (lambda1 ix) g →
      Calls g (after (backpermute sh ix src) g)
  | stencil {g : Graph} {neighbourhood : Neighbourhood}
      {f : List ScalarKey → StateM Graph ScalarKey} {boundary : Boundary} {xs : ArrayKey} :
      g.Has (.array xs) →
      Calls (after (params (neighbourhood.size + 1)) g) (after (stencilLambda neighbourhood f) g) →
      ReturnsStencil (stencilLambda neighbourhood f) g →
      Calls g (after (stencil neighbourhood f boundary xs) g)

private theorem forall_pair {α : Type} {holds : α → Prop} {a b : α} (first : holds a)
    (second : holds b) : ∀ x ∈ [a, b], holds x :=
  List.forall_mem_cons.mpr ⟨first, List.forall_mem_singleton.mpr second⟩

section Scalars

variable {g : Graph} {xs : ArrayKey} {a b c e : ScalarKey} {es : List ScalarKey}

theorem Calls.constant (g : Graph) (value : Scalar) : Calls g (after (constant value) g) :=
  .operation ⟨nofun, nofun⟩

theorem Calls.tuple (all : ∀ e ∈ es, g.Has (.scalar e)) : Calls g (after (tuple es) g) :=
  .operation ⟨nofun, all⟩

theorem Calls.prj (i : Nat) (has : g.Has (.scalar e)) : Calls g (after (prj i e) g) :=
  .operation ⟨nofun, List.forall_mem_singleton.mpr has⟩

theorem Calls.cond (has : g.Has (.scalar c)) (yes : g.Has (.scalar a)) (no : g.Has (.scalar b)) :
    Calls g (after (cond c a b) g) :=
  .operation ⟨nofun, List.forall_mem_cons.mpr ⟨has, forall_pair yes no⟩⟩

theorem Calls.prim (p : Prim) (all : ∀ e ∈ es, g.Has (.scalar e)) : Calls g (after (prim p es) g) :=
  .operation ⟨nofun, all⟩

theorem Calls.add (left : g.Has (.scalar a)) (right : g.Has (.scalar b)) :
    Calls g (after (add a b) g) :=
  .prim .add (forall_pair left right)

theorem Calls.mul (left : g.Has (.scalar a)) (right : g.Has (.scalar b)) :
    Calls g (after (mul a b) g) :=
  .prim .mul (forall_pair left right)

theorem Calls.sub (left : g.Has (.scalar a)) (right : g.Has (.scalar b)) :
    Calls g (after (sub a b) g) :=
  .prim .sub (forall_pair left right)

private theorem forall_read (has : g.Has (.array xs)) :
    ∀ ys ∈ some xs, g.Has (.array ys) := by
  intro ys read
  obtain rfl := Option.some.inj read
  exact has

theorem Calls.index (has : g.Has (.array xs)) (there : g.Has (.scalar e)) :
    Calls g (after (index xs e) g) :=
  .operation ⟨forall_read has, List.forall_mem_singleton.mpr there⟩

theorem Calls.shape (has : g.Has (.array xs)) : Calls g (after (shape xs) g) :=
  .operation ⟨forall_read has, nofun⟩

theorem Calls.size (has : g.Has (.array xs)) : Calls g (after (size xs) g) :=
  .operation ⟨forall_read has, nofun⟩

end Scalars

theorem Calls.params (g : Graph) (n : Nat) : Calls g (after (params n) g) := by
  induction n generalizing g with
  | zero => exact .none g
  | succ n ih => exact (Calls.param g).trans (ih _)

private theorem grown_params {g : Graph} (sound : g.Sound) (n : Nat) :
    g.Grown (after (params n) g) ((params n : StateM Graph _).run g).1 := by
  induction n generalizing g with
  | zero => exact .refl sound
  | succ n ih =>
    have first := Graph.Grown.param sound
    exact first.trans (ih first.sound)

private theorem length_params (n : Nat) (g : Graph) :
    ((params n : StateM Graph _).run g).1.length = n := by
  induction n generalizing g with
  | zero => rfl
  | succ n ih => exact congrArg (· + 1) (ih _)

private theorem grown_function {g h : Graph} (sound : g.Sound) (n : Nat)
    (inner : (after (params n) g).Sound → (after (params n) g).Grown h []) :
    g.Grown h ((params n : StateM Graph _).run g).1 :=
  (grown_params sound n).calls (inner (grown_params sound n).sound)

private theorem grown_call {g h : Graph} (sound : g.Sound) (n : Nat)
    (inner : (after (params n) g).Sound → (after (params n) g).Grown h []) {node : ArrayNode}
    (placeholders : node.placeholders = ((params n : StateM Graph _).run g).1)
    (arrays : ∀ xs ∈ node.arrays, g.Has (.array xs))
    (code : ∀ e ∈ node.scalarCode, g.Has (.scalar e) ∨ h.Has (.scalar e))
    (stencil : ∀ f boundary xs, node = .stencil f boundary xs →
      f.neighbours.length = f.neighbourhood.size) : g.Grown (h.insertArray node).2 [] := by
  have made := grown_function sound n inner
  refine made.array placeholders (fun xs member => ?_) (fun e member => ?_) stencil
  · exact made.kept.has (arrays xs member)
  · exact (code e member).elim made.kept.has id

/-- Calls of constructors keep a graph sound, and every function gets placeholders that are new. -/
theorem Calls.grown {g h : Graph} (calls : Calls g h) (sound : g.Sound) : g.Grown h [] := by
  have one {α : Type} {holds : α → Prop} {a : α} : holds a → ∀ x ∈ [a], holds x :=
    List.forall_mem_singleton.mpr
  induction calls with
  | none g => exact .refl sound
  | trans _ _ ih ih' =>
    have before := ih sound
    exact before.calls (ih' before.sound)
  | param g => exact (Graph.Grown.param sound).drop
  | operation operands => exact .operation sound operands
  | use g xs => exact (Graph.Grown.refl sound).array rfl nofun nofun nofun
  | unit e => exact (Graph.Grown.refl sound).array rfl nofun (one e) nofun
  | reshape sh xs => exact (Graph.Grown.refl sound).array rfl (one xs) (one sh) nofun
  | fst xs => exact (Graph.Grown.refl sound).array rfl (one xs) nofun nofun
  | snd xs => exact (Graph.Grown.refl sound).array rfl (one xs) nofun nofun
  | generate sh _ returns inner =>
    exact grown_call sound 1 inner rfl nofun (forall_pair (.inl sh) (.inr returns)) nofun
  | map xs _ returns inner => exact grown_call sound 1 inner rfl (one xs) (one (.inr returns)) nofun
  | backpermute sh src _ returns inner =>
    exact grown_call sound 1 inner rfl (one src) (forall_pair (.inl sh) (.inr returns)) nofun
  | zipWith xs ys _ returns inner =>
    exact grown_call sound 2 inner rfl (forall_pair xs ys) (one (.inr returns)) nofun
  | fold z xs _ returns inner =>
    exact grown_call sound 2 inner rfl (one xs) (forall_pair (.inr returns) (.inl z)) nofun
  | fold1 xs _ returns inner =>
    exact grown_call sound 2 inner rfl (one xs) (one (.inr returns)) nofun
  | foldSeg z xs segs _ returns inner =>
    exact grown_call sound 2 inner rfl (forall_pair xs segs) (forall_pair (.inr returns) (.inl z))
      nofun
  | scanl z xs _ returns inner =>
    exact grown_call sound 2 inner rfl (one xs) (forall_pair (.inr returns) (.inl z)) nofun
  | scanlTotal z xs _ returns inner =>
    exact grown_call sound 2 inner rfl (one xs) (forall_pair (.inr returns) (.inl z)) nofun
  | permute defaults src _ returns _ returns' inner inner' =>
    -- Two functions: what the first one keeps back stays so while the second one is made.
    have first := grown_function sound 2 inner
    have second := grown_function first.sound 1 inner'
    have made := first.trans second
    refine made.array rfl ?_ ?_ nofun
    · exact forall_pair (made.kept.has defaults) (made.kept.has src)
    · exact forall_pair (second.kept.has returns) returns'
  | @stencil g neighbourhood f boundary xs has _ returns inner =>
    refine grown_call sound (neighbourhood.size + 1) inner (List.append_nil _) (one has)
      (one (.inr returns)) ?_
    intro f' boundary' xs' same
    obtain ⟨rfl, _, _⟩ := ArrayOp.stencil.inj same
    exact length_params neighbourhood.size _

theorem sound_empty : Graph.empty.Sound where
  array_keys := nofun
  scalar_keys := nofun
  acyclic := by
    intro source target member
    cases source <;> cases member
  nodup := List.nodup_nil
  params := nofun
  stencils := nofun

/-- Calls of constructors make sound graphs and leave the nodes that are there as they are. With `n`
placeholders added first, this is what holds at every point inside a function of so many parameters;
such a point is itself reached by calls, so that functions may be nested. -/
theorem sound_of_calls {g h : Graph} (before : Calls .empty g) (n : Nat)
    (calls : Calls (after (params n) g) h) :
    Calls .empty h ∧ h.Sound ∧ (∀ key node, g.array? key = some node → h.array? key = some node) ∧
      ∀ key node, g.scalar? key = some node → h.scalar? key = some node := by
  have grown := grown_function (before.grown sound_empty).sound n calls.grown
  exact ⟨before.trans ((Calls.params g n).trans calls), grown.sound, grown.kept.array,
    grown.kept.scalar⟩

/-- A function that adds an array node with a function of its own, and uses its placeholder in both:
the inner array node comes before the outer one, and its placeholder after the other. -/
theorem sound_of_calls_nested :
    let xs : ArrayKey := ⟨0⟩
    let f (x : ScalarKey) : StateM Graph ScalarKey := do
      let ys ← map (fun y => add x y) xs
      index ys x
    let g : Graph := after (use ⟨[], [.bool true]⟩) .empty
    let h : Graph := after (lambda1 f) g
    let k : Graph := after (map f xs) g
    Calls .empty g ∧ Calls (after (params 1) g) h ∧ Calls g k ∧ h.Sound ∧ k.Sound ∧
      h.placeholders = [⟨1⟩] ∧ k.placeholders = [⟨1⟩, ⟨0⟩] ∧
      k.array? xs = some (.use ⟨[], [.bool true]⟩) := by
  intro xs f g h k
  have before : Calls .empty g := .use .empty _
  have summed : Calls (after (params 1) (after (params 1) g))
      (after (lambda1 (add ⟨0⟩)) (after (params 1) g)) :=
    .add ⟨_, rfl⟩ ⟨_, rfl⟩
  have inside : Calls (after (params 1) g) h :=
    .trans (.map ⟨_, rfl⟩ summed ⟨_, rfl⟩) (.index ⟨_, rfl⟩ ⟨_, rfl⟩)
  have whole : Calls g k := .map ⟨_, rfl⟩ inside ⟨_, rfl⟩
  obtain ⟨_, sound, _⟩ := sound_of_calls before 1 inside
  obtain ⟨_, sound', kept, _⟩ := sound_of_calls before 0 whole
  exact ⟨before, inside, whole, sound, sound', rfl, rfl, kept xs _ rfl⟩

end Builder
end SharingRecovery
