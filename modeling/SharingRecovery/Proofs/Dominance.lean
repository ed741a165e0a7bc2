import SharingRecovery.Proofs.Unfolding

set_option autoImplicit false

/-!
Dominance in the graph behind a view: a node dominates another if every path from the root to the
other leads through it. The nodes that dominate a given one lie above each other in a row, so there
is a nearest one, the immediate dominator.
-/

namespace SharingRecovery.View

variable {ι : Type} {view : View ι} {root : ι}

def Dominates (view : View ι) (root dominator id : ι) : Prop :=
  ∀ path, view.Path root id path → dominator ∈ path

/-- The nearest of the nodes other than a given one that lie on every path from the root to it: all
others lie on every path to the nearest one. -/
structure ImmediatelyDominates (view : View ι) (root dominator id : ι) : Prop where
  dominates : view.Dominates root dominator id
  ne : dominator ≠ id
  nearest : ∀ other, view.Dominates root other id → other ≠ id → view.Dominates root other dominator

theorem dominates_self (id : ι) : view.Dominates root id id :=
  fun _ way => way.target_mem

theorem dominates_root (id : ι) : view.Dominates root root id :=
  fun _ way => way.source_mem

theorem Dominates.reaches {dominator id : ι} (dominates : view.Dominates root dominator id)
    (reached : view.Reaches root id) :
    view.Reaches root dominator ∧ view.Reaches dominator id := by
  obtain ⟨path, way⟩ := reached.exists_path
  obtain ⟨_, _, before, after, _, _⟩ := way.divide (dominates path way)
  exact ⟨before.reaches, after.reaches⟩

theorem Dominates.trans {a b c : ι} (first : view.Dominates root a b)
    (second : view.Dominates root b c) : view.Dominates root a c := by
  intro path way
  obtain ⟨before, _, toMiddle, _, inside, _⟩ := way.divide (second path way)
  exact inside (first before toMiddle)

theorem Dominates.of_reference {dominator source target : ι}
    (dominates : view.Dominates root dominator target) (ne : dominator ≠ target)
    (member : target ∈ view.references source) : view.Dominates root dominator source := by
  intro path way
  obtain ⟨longer, joined, inside⟩ := way.join (.step member (.here target))
  rcases inside dominator (dominates longer joined) with on | on
  · exact on
  · simp only [List.mem_cons, List.not_mem_nil, or_false, ne] at on
    exact on ▸ way.target_mem

theorem Dominates.antisymm {a b : ι} (founded : view.Founded root) (reached : view.Reaches root a)
    (first : view.Dominates root a b) (second : view.Dominates root b a) : a = b := by
  have above := (second.reaches reached)
  have below := (first.reaches above.1).2
  exact (founded.of_reaches reached).eq_of_reaches below above.2

theorem Dominates.total {a b id : ι} (founded : view.Founded root) (reached : view.Reaches root id)
    (first : view.Dominates root a id) (second : view.Dominates root b id) :
    view.Dominates root a b ∨ view.Dominates root b a := by
  -- A path to `b` that avoids `a` cannot go on to `id` without `a`; so `a` is met below `b`.
  have below : ∀ {a b : ι}, view.Dominates root a id → view.Dominates root b id →
      ¬view.Dominates root a b → view.Reaches b a ∧ a ≠ b := by
    intro a b first second avoids
    rw [Dominates] at avoids
    push Not at avoids
    obtain ⟨before, way, off⟩ := avoids
    obtain ⟨after, rest⟩ := (second.reaches reached).2.exists_path
    obtain ⟨path, joined, inside⟩ := way.join rest
    have on := (inside a (first path joined)).resolve_left off
    obtain ⟨_, _, toA, _, _, _⟩ := rest.divide on
    exact ⟨toA.reaches, fun same => off (same ▸ way.target_mem)⟩
  by_contra neither
  push Not at neither
  obtain ⟨there, ne⟩ := below first second neither.1
  obtain ⟨back, _⟩ := below second first neither.2
  exact ne ((founded.of_reaches (first.reaches reached).1).eq_of_reaches back there)

variable [DecidableEq ι]

/-- A node dominates another if the paths through it are all the paths there are. -/
theorem Founded.dominates_iff (founded : view.Founded root) {dominator id : ι} :
    view.Dominates root dominator id ↔
      view.paths root dominator * view.paths dominator id = view.paths root id :=
  (founded.mul_paths dominator id).2.symm

theorem exists_immediatelyDominates {dominator id : ι} (founded : view.Founded root)
    (reached : view.Reaches root id) (dominates : view.Dominates root dominator id)
    (ne : dominator ≠ id) :
    ∃ next, view.ImmediatelyDominates root dominator next ∧ view.Dominates root next id := by
  -- Take a dominator of `id` strictly below the given one with the largest tree.
  let Candidate (next : ι) : Prop := view.Dominates root dominator next ∧ dominator ≠ next ∧
    view.Dominates root next id
  have bounded : ∀ next, Candidate next → view.treeSize next ≤ view.treeSize root := by
    rintro next ⟨_, _, above⟩
    have reached' := (above.reaches reached).1
    by_cases same : root = next
    · rw [same]
    · exact (founded.treeSize_lt_of_reaches reached' same).le
  obtain ⟨next, ⟨first, different, second⟩, largest⟩ : ∃ next, Candidate next ∧
      ∀ other, Candidate other → view.treeSize other ≤ view.treeSize next := by
    have start : ∃ n next, Candidate next ∧ view.treeSize root - view.treeSize next = n :=
      ⟨_, id, ⟨dominates, ne, dominates_self id⟩, rfl⟩
    classical
    obtain ⟨next, candidate, size⟩ := Nat.find_spec start
    refine ⟨next, candidate, fun other candidate' => ?_⟩
    have least := Nat.find_min' start ⟨other, candidate', rfl⟩
    have le := bounded next candidate
    have le' := bounded other candidate'
    omega
  have reached' := (second.reaches reached).1
  refine ⟨next, ⟨first, different, fun other above ne' => ?_⟩, second⟩
  rcases Dominates.total founded reached' above first with above' | below
  · exact above'
  · by_cases same : dominator = other
    · rw [same]
      exact dominates_self other
    · have atMost := largest other ⟨below, same, above.trans second⟩
      have reaches := above.reaches reached'
      have more := (founded.of_reaches reaches.1).treeSize_lt_of_reaches reaches.2 ne'
      omega

theorem ImmediatelyDominates.unique {dominator a b id : ι} (founded : view.Founded root)
    (reached : view.Reaches root id) (first : view.ImmediatelyDominates root dominator a)
    (second : view.ImmediatelyDominates root dominator b) (above : view.Dominates root a id)
    (above' : view.Dominates root b id) : a = b := by
  have apart : ∀ {a b : ι}, view.ImmediatelyDominates root dominator a →
      view.ImmediatelyDominates root dominator b → view.Reaches root b →
      view.Dominates root a b → a = b := by
    intro a b first second reached below
    by_contra ne
    have up := second.nearest a below ne
    have reached' := (second.dominates.reaches reached).1
    exact first.ne (first.dominates.antisymm founded reached' up)
  rcases Dominates.total founded reached above above' with below | below
  · exact apart first second (above'.reaches reached).1 below
  · exact (apart second first (above.reaches reached).1 below).symm

end SharingRecovery.View
