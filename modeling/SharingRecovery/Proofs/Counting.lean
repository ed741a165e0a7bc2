import SharingRecovery.Proofs.FirstSeen
import SharingRecovery.Proofs.Unfolding
import SharingRecovery.Proofs.Walking

set_option autoImplicit false

/-!
What a tally says about the tree of a view: it holds the identities in the tree that are worth a
name, each with the number of paths that lead to it.
-/

namespace SharingRecovery

namespace View

variable {ι : Type}

def Nameable (view : View ι) (id : ι) : Prop :=
  view.isTrivial id = .ok false

theorem Nameable.not_trivial {view : View ι} {id : ι} (nameable : view.Nameable id) :
    view.isTrivial id ≠ .ok true := by
  rw [nameable]
  simp

end View

namespace Tally

variable {ι : Type} [DecidableEq ι] {view : View ι}

open Classical in
/-- Between two tallies the identities of a list have been counted, trivial ones left out. -/
def Adds (view : View ι) (ids : List ι) (before after : Tally ι) : Prop :=
  ∀ id, after.get? id =
    if view.Nameable id ∧ id ∈ ids then some ((before.get? id).getD 0 + ids.count id)
    else before.get? id

theorem Adds.nil (tally : Tally ι) : Adds view [] tally tally := by
  intro id
  simp

theorem Adds.append {ids ids' : List ι} {before between after : Tally ι}
    (first : Adds view ids before between) (second : Adds view ids' between after) :
    Adds view (ids ++ ids') before after := by
  intro id
  rw [second id, first id, List.count_append]
  by_cases nameable : view.Nameable id
  · by_cases inside : id ∈ ids <;> by_cases inside' : id ∈ ids' <;>
      simp [nameable, inside, inside', Nat.add_assoc, List.count_eq_zero_of_not_mem]
  · simp [nameable]

private theorem adds_of_add {tally after : Tally ι} {id : ι} (nameable : view.Nameable id)
    (run : tally.add id = .ok after) : Adds view [id] tally after := by
  obtain ⟨n, fits, equal⟩ := bind_eq_ok_iff.mp run
  rw [pure_eq_ok_iff] at equal
  subst equal
  obtain ⟨rfl, _⟩ := Word.checked_eq_some_iff.mp (Fault.require_eq_ok_iff.mp fits)
  intro other
  rw [get?, OrderedMap.get?_insert]
  by_cases same : other = id
  · subst same
    simp [nameable]
  · simp [same, get?]

private theorem adds_of_trivial {tally : Tally ι} {id : ι}
    (trivial : view.isTrivial id = .ok true) : Adds view [id] tally tally := by
  intro other
  rw [if_neg]
  rintro ⟨nameable, inside⟩
  rw [List.mem_singleton.mp inside] at nameable
  exact nameable.not_trivial trivial

def Fits (tally : Tally ι) : Prop :=
  ∀ id n, tally.get? id = some n → n < Word.limit

private theorem fits_empty : (empty : Tally ι).Fits := by
  intro id n found
  cases found

private theorem Fits.add {tally after : Tally ι} {id : ι} (fits : tally.Fits)
    (run : tally.add id = .ok after) : after.Fits := by
  obtain ⟨n, checked, run⟩ := bind_eq_ok_iff.mp run
  rw [pure_eq_ok_iff] at run
  subst run
  obtain ⟨rfl, small⟩ := Word.checked_eq_some_iff.mp (Fault.require_eq_ok_iff.mp checked)
  intro other m found
  rw [get?, OrderedMap.get?_insert] at found
  split at found
  · exact Option.some.inj found ▸ small
  · exact fits other m found

end Tally

namespace View

variable {ι : Type} [DecidableEq ι] {view : View ι}

private theorem tallyWithin_invariant (holds : Tally ι → Prop)
    (step : ∀ tally id after, holds tally → tally.add id = .ok after → holds after) {depth : Nat}
    {before after : Tally ι} {id : ι} (start : holds before)
    (run : view.tallyWithin depth before id = .ok after) : holds after := by
  induction depth generalizing before after id with
  | zero => cases run
  | succ depth ih =>
    rw [tallyWithin] at run
    obtain ⟨trivial, _, run⟩ := bind_eq_ok_iff.mp run
    cases trivial with
    | true =>
      obtain ⟨between, same, run⟩ := bind_eq_ok_iff.mp run
      obtain ⟨refs, _, run⟩ := bind_eq_ok_iff.mp run
      rw [pure_eq_ok_iff] at same
      exact foldlM_invariant (fun _ _ _ _ => ih) (same ▸ start) run
    | false =>
      obtain ⟨between, counted, run⟩ := bind_eq_ok_iff.mp run
      obtain ⟨refs, _, run⟩ := bind_eq_ok_iff.mp run
      exact foldlM_invariant (fun _ _ _ _ => ih) (step _ _ _ start counted) run

private theorem tallyWithin_succ_eq_ok {depth : Nat} {before after : Tally ι} {id : ι}
    (run : view.tallyWithin (depth + 1) before id = .ok after) :
    ∃ (trivial : Bool) (between : Tally ι) (refs : List ι), view.isTrivial id = .ok trivial ∧
      Tally.Adds view [id] before between ∧ view.operands id = .ok refs ∧
      refs.foldlM (view.tallyWithin depth) between = .ok after := by
  rw [tallyWithin] at run
  obtain ⟨trivial, decided, run⟩ := bind_eq_ok_iff.mp run
  cases trivial with
  | true =>
    obtain ⟨between, same, run⟩ := bind_eq_ok_iff.mp run
    obtain ⟨refs, operands, run⟩ := bind_eq_ok_iff.mp run
    rw [pure_eq_ok_iff] at same
    subst same
    exact ⟨true, before, refs, decided, Tally.adds_of_trivial decided, operands, run⟩
  | false =>
    obtain ⟨between, counted, run⟩ := bind_eq_ok_iff.mp run
    obtain ⟨refs, operands, run⟩ := bind_eq_ok_iff.mp run
    exact ⟨false, between, refs, decided, Tally.adds_of_add decided counted, operands, run⟩

/-- A walk that ends has gone through a finite tree and has counted what is in it. -/
theorem adds_of_tallyWithin {depth : Nat} {before after : Tally ι} {id : ι}
    (run : view.tallyWithin depth before id = .ok after) :
    ∃ tree : Tree ι, tree.label = id ∧ tree.Unfolds view ∧ tree.height ≤ depth ∧
      (∀ label ∈ tree.labels, ∃ trivial, view.isTrivial label = .ok trivial) ∧
      Tally.Adds view tree.labels before after := by
  induction depth generalizing before after id with
  | zero => simp [tallyWithin] at run
  | succ depth ih =>
    -- The loop over the operands, from any state, gives one tree for each of them.
    have loop : ∀ (refs : List ι) (between : Tally ι),
        refs.foldlM (view.tallyWithin depth) between = .ok after →
        ∃ trees : List (Tree ι), trees.map Tree.label = refs ∧
          (∀ tree ∈ trees, tree.Unfolds view ∧ tree.height ≤ depth ∧
            ∀ label ∈ tree.labels, ∃ trivial, view.isTrivial label = .ok trivial) ∧
          Tally.Adds view (trees.flatMap Tree.labels) between after := by
      intro refs
      induction refs with
      | nil =>
        intro between run
        rw [foldlM_nil_eq_ok_iff] at run
        subst run
        exact ⟨[], rfl, by simp, .nil between⟩
      | cons ref refs more =>
        intro between run
        obtain ⟨next, first, rest⟩ := foldlM_cons_eq_ok_iff.mp run
        obtain ⟨tree, rfl, unfolds, low, decided, adds⟩ := ih first
        obtain ⟨trees, rfl, each, adds'⟩ := more next rest
        refine ⟨tree :: trees, rfl, ?_, adds.append adds'⟩
        exact List.forall_mem_cons.mpr ⟨⟨unfolds, low, decided⟩, each⟩
    obtain ⟨trivial, between, refs, decided, first, operands, run⟩ := tallyWithin_succ_eq_ok run
    obtain ⟨trees, rfl, each, adds⟩ := loop refs between run
    refine ⟨.node id trees, rfl, .node operands fun tree inside => (each tree inside).1, ?_, ?_, ?_⟩
    · rw [Tree.height]
      exact Nat.succ_le_succ (Tree.heightOfAll_le fun tree inside => (each tree inside).2.1)
    · rw [Tree.labels_node, List.forall_mem_cons]
      refine ⟨⟨trivial, decided⟩, fun label inside => ?_⟩
      obtain ⟨tree, member, inside⟩ := List.mem_flatMap.mp inside
      exact (each tree member).2.2 label inside
    · rw [Tree.labels_node]
      exact first.append adds

open Classical in
/-- A tally holds the numbers of paths from an origin, below which all is finite and no path is
longer than the view allows. -/
structure Counts (view : View ι) (tally : Tally ι) (origin : ι) : Prop where
  founded : view.Founded origin
  height_le : (view.unfolding origin).height ≤ view.depth
  decided : ∀ id, view.Reaches origin id → ∃ trivial, view.isTrivial id = .ok trivial
  get?_eq : ∀ id, tally.get? id =
    if view.Nameable id ∧ view.Reaches origin id then some (view.paths origin id) else none

theorem counts_of_tally {root : ι} {tally : Tally ι} (run : view.tally root = .ok tally) :
    ∃ origin, view.identify root = .ok origin ∧ view.Counts tally origin := by
  rw [tally_eq] at run
  obtain ⟨origin, identified, run⟩ := bind_eq_ok_iff.mp run
  obtain ⟨tree, rfl, unfolds, low, decided, adds⟩ := adds_of_tallyWithin run
  have founded : view.Founded tree.label := ⟨tree, rfl, unfolds⟩
  have same := unfolding_eq unfolds
  refine ⟨tree.label, identified, founded, by rwa [same], fun id reaches => ?_, fun id => ?_⟩
  · exact decided id (by rwa [← same, founded.mem_labels_iff])
  · rw [adds id, ← founded.mem_labels_iff, same, paths, same]
    simp [Tally.get?, Tally.empty, OrderedMap.get?]

theorem fits_of_tally {root : ι} {tally : Tally ι} (run : view.tally root = .ok tally) :
    tally.Fits := by
  rw [tally_eq] at run
  obtain ⟨origin, _, run⟩ := bind_eq_ok_iff.mp run
  exact tallyWithin_invariant Tally.Fits (fun _ _ _ => Tally.Fits.add) Tally.fits_empty run

theorem nodup_of_tally {root : ι} {tally : Tally ι} (run : view.tally root = .ok tally) :
    (OrderedMap.keys tally.counts).Nodup := by
  rw [tally_eq] at run
  obtain ⟨origin, _, run⟩ := bind_eq_ok_iff.mp run
  have start : (OrderedMap.keys (Tally.empty : Tally ι).counts).Nodup := List.nodup_nil
  refine tallyWithin_invariant (fun tally => (OrderedMap.keys tally.counts).Nodup) ?_ start run
  intro tally id after nodup added
  obtain ⟨n, _, done⟩ := bind_eq_ok_iff.mp added
  rw [pure_eq_ok_iff] at done
  subst done
  rw [OrderedMap.keys_insert_eq]
  exact nodup_firstSeen nodup [id]

open Classical in
noncomputable def frequency (view : View ι) (origin id : ι) : Nat :=
  if view.Nameable id then view.paths origin id else 1

private theorem Counts.count_eq_ok {tally : Tally ι} {origin id : ι} {n : Nat}
    (counts : view.Counts tally origin) (run : tally.count id = .ok n) :
    view.Nameable id ∧ view.Reaches origin id ∧ n = view.paths origin id := by
  rw [Tally.count, Fault.require_eq_ok_iff, counts.get?_eq, Option.ite_none_right_eq_some,
    Option.some.injEq] at run
  exact ⟨run.1.1, run.1.2, run.2.symm⟩

/-- A tally holds the numbers of paths from a root to whatever the root reaches. It may hold more.
-/
structure Tallies (view : View ι) (tally : Tally ι) (root : ι) : Prop where
  founded : view.Founded root
  decided : ∀ id, view.Reaches root id → ∃ trivial, view.isTrivial id = .ok trivial
  get?_eq : ∀ id, view.Nameable id → view.Reaches root id →
    tally.get? id = some (view.paths root id)

theorem Counts.tallies {tally : Tally ι} {origin : ι} (counts : view.Counts tally origin) :
    view.Tallies tally origin where
  founded := counts.founded
  decided := counts.decided
  get?_eq id nameable reaches := by rw [counts.get?_eq, if_pos ⟨nameable, reaches⟩]

theorem Tallies.multiplicity_eq {tally : Tally ι} {root id : ι} (tallies : view.Tallies tally root)
    (reaches : view.Reaches root id) :
    view.multiplicity tally id = .ok (view.frequency root id) := by
  obtain ⟨trivial, decided⟩ := tallies.decided id reaches
  rw [multiplicity, decided, frequency]
  cases trivial with
  | true => rw [if_neg fun nameable => Nameable.not_trivial nameable decided]; rfl
  | false =>
    have nameable : view.Nameable id := decided
    rw [if_pos nameable]
    exact Fault.require_eq_ok_iff.mpr (tallies.get?_eq id nameable reaches)

theorem Founded.frequency_le {root id : ι} (founded : view.Founded root)
    (reaches : view.Reaches root id) : view.frequency root id ≤ view.paths root id := by
  have positive := founded.paths_pos_iff.mpr reaches
  rw [frequency]
  split
  · exact le_rfl
  · exact positive

theorem Nameable.frequency_eq {root id : ι} (nameable : view.Nameable id) :
    view.frequency root id = view.paths root id := by
  rw [frequency, if_pos nameable]

theorem Counts.reaches_of_multiplicity {tally : Tally ι} {origin id : ι} {n : Nat}
    (counts : view.Counts tally origin) (nameable : view.Nameable id)
    (run : view.multiplicity tally id = .ok n) : view.Reaches origin id := by
  rw [multiplicity, nameable] at run
  exact (counts.count_eq_ok run).2.1

end View
end SharingRecovery
