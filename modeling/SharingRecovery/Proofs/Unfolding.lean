import Mathlib.Algebra.BigOperators.Ring.List
import Mathlib.Algebra.Order.BigOperators.Group.List
import Mathlib.Algebra.Order.Ring.Nat
import Mathlib.Data.List.NodupEquivFin
import Mathlib.Data.Set.Subsingleton
import Mathlib.Logic.Relation
import SharingRecovery.Proofs.Outcome
import SharingRecovery.View.Basic

set_option autoImplicit false

/-!
The tree of a view below a node, and the number of paths from one node to another.

A node is founded if the tree below it is finite and all operands in it can be listed. Below a
founded node there is no cycle, and a node occurs in the tree once for every path that leads to it.
Paths are counted in two ways: through a node in the middle (`Founded.mul_paths`), and by their last
step (`Founded.paths_eq_sum_references`).
-/

namespace SharingRecovery

namespace Tree

variable {ι : Type}

def label : Tree ι → ι
  | .node id _ => id

mutual

def labels : Tree ι → List ι
  | .node id trees => id :: labelsOfAll trees

def labelsOfAll : List (Tree ι) → List ι
  | [] => []
  | tree :: trees => tree.labels ++ labelsOfAll trees

end

mutual

def height : Tree ι → Nat
  | .node _ trees => heightOfAll trees + 1

def heightOfAll : List (Tree ι) → Nat
  | [] => 0
  | tree :: trees => max tree.height (heightOfAll trees)

end

theorem labelsOfAll_eq (trees : List (Tree ι)) : labelsOfAll trees = trees.flatMap labels := by
  induction trees with
  | nil => rfl
  | cons tree trees ih => rw [labelsOfAll, ih, List.flatMap_cons]

theorem labels_node (id : ι) (trees : List (Tree ι)) :
    (node id trees).labels = id :: trees.flatMap labels := by
  rw [labels, labelsOfAll_eq]

theorem height_le_heightOfAll {tree : Tree ι} {trees : List (Tree ι)} (member : tree ∈ trees) :
    tree.height ≤ heightOfAll trees := by
  induction trees with
  | nil => simp at member
  | cons head trees ih =>
    rw [heightOfAll]
    rcases List.mem_cons.mp member with rfl | member
    · exact Nat.le_max_left _ _
    · exact (ih member).trans (Nat.le_max_right _ _)

theorem heightOfAll_le {trees : List (Tree ι)} {bound : Nat}
    (below : ∀ tree ∈ trees, tree.height ≤ bound) : heightOfAll trees ≤ bound := by
  induction trees with
  | nil => exact Nat.zero_le bound
  | cons tree trees ih =>
    rw [heightOfAll]
    exact Nat.max_le.mpr ⟨below tree List.mem_cons_self,
      ih fun other member => below other (List.mem_cons_of_mem tree member)⟩

/-- Every node of the tree has exactly its subtrees as operands. -/
inductive Unfolds (view : View ι) : Tree ι → Prop
  | node {id : ι} {trees : List (Tree ι)} :
      view.operands id = .ok (trees.map label) → (∀ tree ∈ trees, Unfolds view tree) →
      Unfolds view (.node id trees)

private theorem eq_of_map_label_eq {trees others : List (Tree ι)}
    (labels : trees.map label = others.map label)
    (unique : ∀ tree ∈ trees, ∀ other ∈ others, tree.label = other.label → tree = other) :
    trees = others := by
  refine List.ext_getElem (by simpa using congrArg List.length labels) fun i h h' => ?_
  refine unique _ (List.getElem_mem h) _ (List.getElem_mem h') ?_
  simpa [h, h'] using congrArg (fun ids => ids[i]?) labels

theorem Unfolds.unique {view : View ι} {tree other : Tree ι} (unfolds : tree.Unfolds view)
    (unfolds' : other.Unfolds view) (same : tree.label = other.label) : tree = other := by
  induction unfolds generalizing other with
  | @node id trees operands _ ih =>
    cases unfolds' with
    | @node id' others operands' below =>
      simp only [label] at same
      subst same
      have labels : trees.map label = others.map label :=
        Except.ok.inj (operands.symm.trans operands')
      rw [eq_of_map_label_eq labels fun tree inside other inside' =>
        ih tree inside (below other inside')]

private theorem Unfolds.of_operands {view view' : View ι} {tree : Tree ι}
    (unfolds : tree.Unfolds view) (same : view.operands = view'.operands) : tree.Unfolds view' := by
  induction unfolds with
  | node operands _ ih => exact .node (same ▸ operands) ih

end Tree

namespace View

variable {ι : Type} (view : View ι)

/-- The operands of a node; none if they cannot be listed. -/
def references (id : ι) : List ι :=
  match view.operands id with
  | .ok refs => refs
  | .error _ => []

def Reaches : ι → ι → Prop :=
  Relation.ReflTransGen fun source target => target ∈ view.references source

def Acyclic : Prop :=
  ∀ source, ∀ target ∈ view.references source, ¬view.Reaches target source

inductive Path : ι → ι → List ι → Prop
  | here (id : ι) : Path id id [id]
  | step {source middle target : ι} {path : List ι} :
      middle ∈ view.references source → Path middle target path →
      Path source target (source :: path)

/-- The tree below a node is finite, and all operands in it can be listed. -/
def Founded (id : ι) : Prop :=
  ∃ tree : Tree ι, tree.label = id ∧ tree.Unfolds view

open Classical in
noncomputable def unfolding (id : ι) : Tree ι :=
  if founded : view.Founded id then choose founded else .node id []

variable {view}

theorem references_eq {id : ι} {refs : List ι} (operands : view.operands id = .ok refs) :
    view.references id = refs := by
  simp [references, operands]

theorem mem_references {source target : ι} : target ∈ view.references source ↔
    ∃ refs, view.operands source = .ok refs ∧ target ∈ refs := by
  rw [references]
  cases view.operands source <;> simp

theorem unfolding_eq {tree : Tree ι} (unfolds : tree.Unfolds view) :
    view.unfolding tree.label = tree := by
  have founded : view.Founded tree.label := ⟨tree, rfl, unfolds⟩
  obtain ⟨label, unfolds'⟩ := Classical.choose_spec founded
  rw [unfolding, dif_pos founded]
  exact unfolds'.unique unfolds label

theorem Founded.operands {id : ι} (founded : view.Founded id) :
    view.operands id = .ok (view.references id) := by
  obtain ⟨_, rfl, operands, _⟩ := founded
  exact operands.trans (congrArg _ (references_eq operands).symm)

theorem Founded.of_reference {source target : ι} (founded : view.Founded source)
    (member : target ∈ view.references source) : view.Founded target := by
  obtain ⟨_, rfl, @⟨_, trees, operands, below⟩⟩ := founded
  rw [Tree.label, references_eq operands] at member
  obtain ⟨tree, inside, rfl⟩ := List.mem_map.mp member
  exact ⟨tree, rfl, below tree inside⟩

theorem Founded.unfolding_node {id : ι} (founded : view.Founded id) :
    view.unfolding id = .node id ((view.references id).map view.unfolding) := by
  obtain ⟨_, rfl, @⟨id, trees, operands, below⟩⟩ := founded
  have same : trees.map (view.unfolding ∘ Tree.label) = trees :=
    (List.map_congr_left fun tree inside => unfolding_eq (below tree inside)).trans trees.map_id
  rw [unfolding_eq (.node operands below), Tree.label, references_eq operands, List.map_map, same]

@[elab_as_elim]
theorem Founded.induction {motive : (id : ι) → view.Founded id → Prop}
    (step : ∀ (id : ι) (founded : view.Founded id),
      (∀ (target : ι) (member : target ∈ view.references id),
        motive target (founded.of_reference member)) → motive id founded)
    (id : ι) (founded : view.Founded id) : motive id founded := by
  obtain ⟨tree, rfl, unfolds⟩ := founded
  induction unfolds with
  | @node id trees operands below ih =>
    refine step id ⟨_, rfl, .node operands below⟩ fun target member => ?_
    rw [references_eq operands] at member
    obtain ⟨tree, inside, rfl⟩ := List.mem_map.mp member
    exact ih tree inside

theorem Reaches.refl (id : ι) : view.Reaches id id :=
  Relation.ReflTransGen.refl

theorem Reaches.trans {a b c : ι} (first : view.Reaches a b) (second : view.Reaches b c) :
    view.Reaches a c :=
  Relation.ReflTransGen.trans first second

theorem Reaches.of_reference {source target : ι} (member : target ∈ view.references source) :
    view.Reaches source target :=
  Relation.ReflTransGen.single member

theorem reaches_iff {source target : ι} : view.Reaches source target ↔
    source = target ∨ ∃ middle ∈ view.references source, view.Reaches middle target := by
  rw [Reaches, Relation.ReflTransGen.cases_head_iff]

theorem reaches_iff_tail {source target : ι} : view.Reaches source target ↔
    target = source ∨ ∃ middle, view.Reaches source middle ∧ target ∈ view.references middle := by
  rw [Reaches, Relation.ReflTransGen.cases_tail_iff]

theorem Founded.of_reaches {source target : ι} (founded : view.Founded source)
    (reaches : view.Reaches source target) : view.Founded target := by
  induction reaches with
  | refl => exact founded
  | tail _ member ih => exact ih.of_reference member

theorem Path.reaches {source target : ι} {path : List ι} (way : view.Path source target path) :
    view.Reaches source target := by
  induction way with
  | here id => exact .refl id
  | step member _ ih => exact (Reaches.of_reference member).trans ih

theorem Reaches.exists_path {source target : ι} (reaches : view.Reaches source target) :
    ∃ path, view.Path source target path := by
  induction reaches using Relation.ReflTransGen.head_induction_on with
  | refl => exact ⟨[target], .here target⟩
  | head member _ ih =>
    obtain ⟨path, way⟩ := ih
    exact ⟨_, .step member way⟩

theorem Path.source_mem {source target : ι} {path : List ι} (way : view.Path source target path) :
    source ∈ path := by
  cases way <;> exact List.mem_cons_self

theorem Path.target_mem {source target : ι} {path : List ι} (way : view.Path source target path) :
    target ∈ path := by
  induction way with
  | here id => exact List.mem_cons_self
  | step _ _ ih => exact List.mem_cons_of_mem _ ih

theorem Path.join {a b c : ι} {first second : List ι} (way : view.Path a b first)
    (more : view.Path b c second) :
    ∃ path, view.Path a c path ∧ ∀ id ∈ path, id ∈ first ∨ id ∈ second := by
  induction way with
  | here id => exact ⟨second, more, fun _ => .inr⟩
  | step member _ ih =>
    obtain ⟨path, joined, inside⟩ := ih more
    refine ⟨_, .step member joined, fun id on => ?_⟩
    rcases List.mem_cons.mp on with rfl | on
    · exact .inl List.mem_cons_self
    · exact (inside id on).imp_left (List.mem_cons_of_mem _)

theorem Path.divide {source target middle : ι} {path : List ι}
    (way : view.Path source target path) (on : middle ∈ path) :
    ∃ first second, view.Path source middle first ∧ view.Path middle target second ∧
      first ⊆ path ∧ second ⊆ path := by
  induction way with
  | here id =>
    obtain rfl := List.mem_singleton.mp on
    exact ⟨[middle], [middle], .here middle, .here middle, List.Subset.refl _, List.Subset.refl _⟩
  | @step source next target path member way ih =>
    rcases List.mem_cons.mp on with rfl | on
    · exact ⟨[middle], _, .here middle, .step member way, by simp, List.Subset.refl _⟩
    · obtain ⟨first, second, before, after, inside, inside'⟩ := ih on
      exact ⟨source :: first, second, .step member before, after,
        List.cons_subset_cons source inside, fun id on => List.mem_cons_of_mem source (inside' on)⟩

noncomputable def treeSize (view : View ι) (id : ι) : Nat :=
  (view.unfolding id).labels.length

theorem Founded.labels_unfolding {id : ι} (founded : view.Founded id) :
    (view.unfolding id).labels =
      id :: (view.references id).flatMap fun target => (view.unfolding target).labels := by
  rw [founded.unfolding_node, Tree.labels_node, List.flatMap_map]

theorem Founded.height_lt {source target : ι} (founded : view.Founded source)
    (member : target ∈ view.references source) :
    (view.unfolding target).height < (view.unfolding source).height := by
  rw [founded.unfolding_node, Tree.height]
  exact Nat.lt_succ_of_le (Tree.height_le_heightOfAll (List.mem_map_of_mem member))

theorem Founded.height_le_of_reaches {source target : ι} (founded : view.Founded source)
    (reaches : view.Reaches source target) :
    (view.unfolding target).height ≤ (view.unfolding source).height := by
  induction reaches with
  | refl => exact le_rfl
  | tail reaches member ih => exact ((founded.of_reaches reaches).height_lt member).le.trans ih

theorem Founded.height_pos {id : ι} (founded : view.Founded id) :
    0 < (view.unfolding id).height := by
  rw [founded.unfolding_node, Tree.height]
  exact Nat.succ_pos _

theorem Founded.treeSize_lt {source target : ι} (founded : view.Founded source)
    (member : target ∈ view.references source) : view.treeSize target < view.treeSize source := by
  rw [treeSize, treeSize, founded.labels_unfolding, List.length_cons, List.length_flatMap]
  exact Nat.lt_succ_of_le (List.single_le_sum (by simp) _ (List.mem_map_of_mem member))

theorem Founded.treeSize_eq {view' : View ι} {id : ι} (founded : view.Founded id)
    (same : view.operands = view'.operands) : view.treeSize id = view'.treeSize id := by
  obtain ⟨tree, rfl, unfolds⟩ := founded
  rw [treeSize, treeSize, unfolding_eq unfolds, unfolding_eq (unfolds.of_operands same)]

theorem Founded.treeSize_lt_of_reaches {source target : ι} (founded : view.Founded source)
    (reaches : view.Reaches source target) (different : source ≠ target) :
    view.treeSize target < view.treeSize source := by
  induction reaches using Relation.ReflTransGen.head_induction_on with
  | refl => exact absurd rfl different
  | @head source middle member _ ih =>
    have smaller := founded.treeSize_lt member
    by_cases same : middle = target
    · exact same ▸ smaller
    · exact (ih (founded.of_reference member) same).trans smaller

theorem Founded.eq_of_reaches {source target : ι} (founded : view.Founded source)
    (there : view.Reaches source target) (back : view.Reaches target source) : source = target := by
  by_contra different
  have smaller := founded.treeSize_lt_of_reaches there different
  have larger := (founded.of_reaches there).treeSize_lt_of_reaches back (Ne.symm different)
  omega

theorem Founded.not_reaches_back {source target : ι} (founded : view.Founded source)
    (member : target ∈ view.references source) : ¬view.Reaches target source := by
  intro back
  have same := founded.eq_of_reaches (.of_reference member) back
  have smaller := founded.treeSize_lt member
  rw [same] at smaller
  exact Nat.lt_irrefl _ smaller

variable [DecidableEq ι]

/-- The number of paths from one node to another: the number of times the second one occurs below
the first. -/
noncomputable def paths (view : View ι) (source target : ι) : Nat :=
  (view.unfolding source).labels.count target

theorem Founded.paths_eq {source : ι} (founded : view.Founded source) (target : ι) :
    view.paths source target = (if source = target then 1 else 0) +
      ((view.references source).map fun middle => view.paths middle target).sum := by
  rw [paths, founded.labels_unfolding, List.count_cons, List.count_flatMap, Nat.add_comm]
  simp only [beq_iff_eq]
  rfl

theorem Founded.paths_pos_iff {source : ι} (founded : view.Founded source) {target : ι} :
    0 < view.paths source target ↔ view.Reaches source target := by
  induction source, founded using Founded.induction with
  | step source founded ih =>
    rw [founded.paths_eq, reaches_iff]
    constructor
    · intro positive
      by_cases same : source = target
      · exact .inl same
      · rw [if_neg same, Nat.zero_add] at positive
        obtain ⟨n, inside, nonzero⟩ : ∃ n ∈ _, n ≠ 0 := by
          by_contra zeros
          push Not at zeros
          exact positive.ne' (List.sum_eq_zero zeros)
        obtain ⟨middle, member, rfl⟩ := List.mem_map.mp inside
        exact .inr ⟨middle, member, (ih middle member).mp (Nat.pos_of_ne_zero nonzero)⟩
    · rintro (same | ⟨middle, member, reaches⟩)
      · rw [if_pos same]
        omega
      · have positive := (ih middle member).mpr reaches
        have below := List.single_le_sum (by simp) _
          (List.mem_map_of_mem (f := fun middle => view.paths middle target) member)
        omega

theorem Founded.paths_eq_zero {source target : ι} (founded : view.Founded source)
    (unreached : ¬view.Reaches source target) : view.paths source target = 0 := by
  by_contra nonzero
  exact unreached (founded.paths_pos_iff.mp (Nat.pos_of_ne_zero nonzero))

theorem Founded.paths_self {id : ι} (founded : view.Founded id) : view.paths id id = 1 := by
  have below : ((view.references id).map fun middle => view.paths middle id).sum = 0 := by
    refine List.sum_eq_zero fun n inside => ?_
    obtain ⟨middle, member, rfl⟩ := List.mem_map.mp inside
    exact (founded.of_reference member).paths_eq_zero (founded.not_reaches_back member)
  rw [founded.paths_eq, if_pos rfl, below]

theorem Founded.paths_of_ne {source target : ι} (founded : view.Founded source)
    (different : source ≠ target) : view.paths source target =
      ((view.references source).map fun middle => view.paths middle target).sum := by
  rw [founded.paths_eq, if_neg different, Nat.zero_add]

private theorem sum_map_eq_iff {α : Type} {f g : α → Nat} {as : List α}
    (le : ∀ a ∈ as, f a ≤ g a) : (as.map f).sum = (as.map g).sum ↔ ∀ a ∈ as, f a = g a := by
  induction as with
  | nil => simp
  | cons a as ih =>
    have first := le a List.mem_cons_self
    have others : ∀ b ∈ as, f b ≤ g b := fun b inside => le b (List.mem_cons_of_mem a inside)
    have rest := List.sum_le_sum others
    rw [List.map_cons, List.sum_cons, List.map_cons, List.sum_cons, List.forall_mem_cons,
      ← ih others]
    omega

/-- The paths through a node in the middle are among all paths, and they are all of them exactly if
every path leads through that node. -/
theorem Founded.mul_paths {source : ι} (founded : view.Founded source) (middle target : ι) :
    view.paths source middle * view.paths middle target ≤ view.paths source target ∧
      (view.paths source middle * view.paths middle target = view.paths source target ↔
        ∀ path, view.Path source target path → middle ∈ path) := by
  induction source, founded using Founded.induction with
  | step source founded ih =>
    by_cases first : source = middle
    · subst first
      rw [founded.paths_self, Nat.one_mul]
      exact ⟨le_rfl, iff_of_true rfl fun _ way => way.source_mem⟩
    · have le : ∀ next ∈ view.references source,
          view.paths next middle * view.paths middle target ≤ view.paths next target :=
        fun next member => (ih next member).1
      have sum_le := List.sum_le_sum le
      rw [founded.paths_of_ne first, ← List.sum_map_mul_right]
      by_cases last : source = target
      · subst last
        rw [founded.paths_eq, if_pos rfl]
        refine ⟨by omega, iff_of_false (by omega) fun all => ?_⟩
        exact first (List.mem_singleton.mp (all _ (.here source))).symm
      · rw [founded.paths_of_ne last]
        refine ⟨sum_le, (sum_map_eq_iff le).trans ?_⟩
        constructor
        · intro all path way
          cases way with
          | here => exact absurd rfl last
          | step member way =>
            exact List.mem_cons_of_mem _ ((ih _ member).2.mp (all _ member) _ way)
        · intro all next member
          refine (ih next member).2.mpr fun path way => ?_
          exact (List.mem_cons.mp (all _ (.step member way))).resolve_left (Ne.symm first)

theorem Founded.paths_eq_sum_references {source : ι} (founded : view.Founded source) (target : ι) :
    view.paths source target = (if source = target then 1 else 0) +
      ((view.unfolding source).labels.map fun id => (view.references id).count target).sum := by
  induction source, founded using Founded.induction with
  | step source founded ih =>
    have steps : ((view.references source).map fun middle => view.paths middle target).sum =
        (view.references source).count target + ((view.references source).map fun middle =>
          ((view.unfolding middle).labels.map fun id =>
            (view.references id).count target).sum).sum := by
      generalize view.references source = refs at ih ⊢
      induction refs with
      | nil => rfl
      | cons ref refs more =>
        have rest := more fun middle member => ih middle (List.mem_cons_of_mem ref member)
        have here := ih ref List.mem_cons_self
        simp only [List.map_cons, List.sum_cons, List.count_cons, beq_iff_eq]
        omega
    rw [founded.paths_eq, steps, founded.labels_unfolding, List.map_cons, List.sum_cons,
      List.map_flatMap, List.flatMap_def, List.sum_flatten, List.map_map]
    rfl

theorem Founded.mem_labels_iff {source : ι} (founded : view.Founded source) {target : ι} :
    target ∈ (view.unfolding source).labels ↔ view.Reaches source target :=
  List.count_pos_iff.symm.trans founded.paths_pos_iff

/-- The references to a node from all that a root reaches: the node a reference comes from, and its
position among the operands there. -/
def referencesTo (view : View ι) (root target : ι) : Set (ι × Nat) :=
  {source | view.Reaches root source.1 ∧ (view.references source.1)[source.2]? = some target}

theorem count_le_one_iff {as : List ι} {a : ι} :
    as.count a ≤ 1 ↔ ∀ i j : Nat, as[i]? = some a → as[j]? = some a → i = j := by
  rw [← Nat.lt_succ_iff, ← not_le, ← List.duplicate_iff_two_le_count,
    List.duplicate_iff_exists_distinct_get]
  constructor
  · intro single i j first second
    obtain ⟨hi, first⟩ := List.getElem?_eq_some_iff.mp first
    obtain ⟨hj, second⟩ := List.getElem?_eq_some_iff.mp second
    by_contra different
    rcases Nat.lt_or_gt_of_ne different with before | after
    · exact single ⟨⟨i, hi⟩, ⟨j, hj⟩, before, first.symm, second.symm⟩
    · exact single ⟨⟨j, hj⟩, ⟨i, hi⟩, after, second.symm, first.symm⟩
  · rintro same ⟨i, j, before, first, second⟩
    have equal := same i j (by simp [first]) (by simp [second])
    omega

theorem count_references_le_one {root source target : ι} (reached : view.Reaches root source)
    (single : ¬(view.referencesTo root target).Nontrivial) :
    (view.references source).count target ≤ 1 := by
  rw [Set.not_nontrivial_iff] at single
  refine count_le_one_iff.mpr fun i j first second => ?_
  have here : (source, i) ∈ view.referencesTo root target := ⟨reached, first⟩
  have there : (source, j) ∈ view.referencesTo root target := ⟨reached, second⟩
  exact (Prod.mk.inj (single here there)).2

omit [DecidableEq ι] in
theorem countP_eq_sum (p : ι → Bool) (as : List ι) :
    as.countP p = (as.map fun a => if p a then 1 else 0).sum := by
  induction as with
  | nil => rfl
  | cons a as ih => rw [List.countP_cons, ih, List.map_cons, List.sum_cons, Nat.add_comm]

/-- A node is reached as often as one that refers to it if there is no other reference to it, and
more often otherwise. -/
theorem Founded.paths_reference {root source target : ι} (founded : view.Founded root)
    (reaches : view.Reaches root source) (member : target ∈ view.references source) :
    view.paths root source ≤ view.paths root target ∧
      (view.paths root source = view.paths root target ↔
        ¬(view.referencesTo root target).Nontrivial) := by
  have different : root ≠ target := by
    rintro rfl
    exact (founded.of_reaches reaches).not_reaches_back member reaches
  have le : ∀ id ∈ (view.unfolding root).labels,
      (if id = source then 1 else 0) ≤ (view.references id).count target := by
    intro id _
    split
    · rename_i same
      exact List.one_le_count_iff.mpr (same ▸ member)
    · exact Nat.zero_le _
  rw [founded.paths_eq_sum_references target, if_neg different, Nat.zero_add, paths, List.count,
    countP_eq_sum]
  simp only [beq_iff_eq]
  refine ⟨List.sum_le_sum le, (sum_map_eq_iff le).trans ?_⟩
  obtain ⟨position, here⟩ := List.getElem?_of_mem member
  rw [Set.not_nontrivial_iff]
  constructor
  · intro all
    -- Every reference comes from the one source, which refers to the node once.
    have only : ∀ reference ∈ view.referencesTo root target,
        reference.1 = source ∧ (view.references reference.1).count target ≤ 1 := by
      rintro ⟨id, i⟩ ⟨reached, found⟩
      have counted := all id (founded.mem_labels_iff.mpr reached)
      have positive := List.count_pos_iff.mpr (List.mem_of_getElem? found)
      dsimp only at found positive ⊢
      split at counted
      · rename_i same
        exact ⟨same, counted.ge⟩
      · omega
    rintro ⟨id, i⟩ first ⟨id', j⟩ second
    obtain ⟨rfl, once⟩ := only _ first
    obtain ⟨same, _⟩ := only _ second
    dsimp only at same
    subst same
    rw [count_le_one_iff.mp once i j first.2 second.2]
  · intro single id inside
    have reached := founded.mem_labels_iff.mp inside
    have unique : ∀ i : Nat, (view.references id)[i]? = some target →
        (id, i) = (source, position) :=
      fun i found => single ⟨reached, found⟩ ⟨reaches, here⟩
    split
    · rename_i same
      refine le_antisymm (List.one_le_count_iff.mpr (same ▸ member)) (count_le_one_iff.mpr ?_)
      intro i j first second
      have equal := (unique i first).trans (unique j second).symm
      exact (Prod.mk.inj equal).2
    · rename_i other
      refine (List.count_eq_zero.mpr fun member => other ?_).symm
      obtain ⟨i, found⟩ := List.getElem?_of_mem member
      exact (Prod.mk.inj (unique i found)).1

end View
end SharingRecovery
