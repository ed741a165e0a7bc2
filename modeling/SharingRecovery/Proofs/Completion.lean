import SharingRecovery.Proofs.Covering
import SharingRecovery.Proofs.Standing
import SharingRecovery.Proofs.Thinning
import SharingRecovery.View.Table

set_option autoImplicit false

/-!
Sharing recovery cannot fail once the occurrences are counted. What is pending below a node is at
most the number of paths from the node, times the multiplicity of the node at most the number of
paths from the root; this is a word because it has been counted. Whatever is free at a node is
closed further up, and the root closes all that is left.
-/

namespace SharingRecovery

theorem Word.checked_eq_some {n : Nat} (small : n < limit) : checked n = some n :=
  if_pos small

namespace Hoisted

variable {ι : Type} [DecidableEq ι]

private theorem pendingAt_insert (pending : OrderedMap ι Nat) (id other : ι) (n : Nat) :
    pendingAt (pending.insert id n) other = if other = id then n else pendingAt pending other := by
  rw [pendingAt, OrderedMap.get?_insert]
  split
  · rfl
  · rfl

private theorem pendingAt_of_not_mem {pending : OrderedMap ι Nat} {id : ι}
    (absent : id ∉ OrderedMap.keys pending) : pendingAt pending id = 0 := by
  rw [pendingAt]
  cases found : OrderedMap.get? pending id with
  | none => rfl
  | some n => exact absurd (OrderedMap.mem_keys_iff.mpr ⟨n, found⟩) absent

private theorem pendingAt_cons (entry : ι × Nat) (pending : OrderedMap ι Nat) (id : ι) :
    pendingAt (entry :: pending) id = if id = entry.1 then entry.2 else pendingAt pending id := by
  rw [pendingAt, OrderedMap.get?, List.lookup_cons]
  by_cases same : id = entry.1
  · simp [same]
  · rw [beq_false_of_ne same, if_neg same]
    rfl

private theorem addPending_eq {pending : OrderedMap ι Nat} {entry : ι × Nat}
    (small : pendingAt pending entry.1 + entry.2 < Word.limit) :
    addPending pending entry =
      .ok (pending.insert entry.1 (pendingAt pending entry.1 + entry.2)) := by
  have fits : Word.add? (pendingAt pending entry.1) entry.2 =
      some (pendingAt pending entry.1 + entry.2) := Word.checked_eq_some small
  refine bind_eq_ok_iff.mpr ⟨pendingAt pending entry.1 + entry.2, ?_, rfl⟩
  exact Fault.require_eq_ok_iff.mpr fits

private theorem exists_addAllPending {more pending : OrderedMap ι Nat}
    (nodup : (OrderedMap.keys more).Nodup)
    (small : ∀ id, pendingAt pending id + pendingAt more id < Word.limit) :
    ∃ after, more.foldlM addPending pending = .ok after := by
  induction more generalizing pending with
  | nil => exact ⟨pending, rfl⟩
  | cons entry more ih =>
    obtain ⟨fresh, nodup⟩ := List.nodup_cons.mp nodup
    have here := small entry.1
    rw [pendingAt_cons, if_pos rfl] at here
    have room : ∀ id, pendingAt (pending.insert entry.1 (pendingAt pending entry.1 + entry.2)) id +
        pendingAt more id < Word.limit := by
      intro id
      have sum := small id
      rw [pendingAt_cons] at sum
      rw [pendingAt_insert]
      by_cases same : id = entry.1
      · rw [if_pos same, same, pendingAt_of_not_mem fresh]
        omega
      · rw [if_neg same] at sum ⊢
        exact sum
    obtain ⟨after, rest⟩ := ih nodup room
    exact ⟨after, foldlM_cons_eq_ok_iff.mpr ⟨_, addPending_eq here, rest⟩⟩

private theorem exists_covered {tally : Tally ι} {multiplicity : Nat} {pending : OrderedMap ι Nat}
    (each : ∀ entry ∈ pending, ∃ total, tally.get? entry.1 = some total ∧
      entry.2 * multiplicity ≤ total ∧ total < Word.limit) :
    ∃ complete, covered tally multiplicity pending = .ok complete := by
  induction pending with
  | nil => exact ⟨[], rfl⟩
  | cons entry pending ih =>
    obtain ⟨⟨total, counted, atMost, small⟩, others⟩ := List.forall_mem_cons.mp each
    obtain ⟨complete, rest⟩ := ih others
    have fits : Word.mul? entry.2 multiplicity = some (entry.2 * multiplicity) :=
      Word.checked_eq_some (by omega)
    have here : covers tally multiplicity entry.1 entry.2 =
        .ok (decide (entry.2 * multiplicity = total)) := by
      refine bind_eq_ok_iff.mpr ⟨total, Fault.require_eq_ok_iff.mpr counted, ?_⟩
      refine bind_eq_ok_iff.mpr ⟨entry.2 * multiplicity, Fault.require_eq_ok_iff.mpr fits, ?_⟩
      rw [if_neg (Nat.not_lt.mpr atMost)]
      rfl
    refine ⟨_, bind_eq_ok_iff.mpr ⟨_, here, bind_eq_ok_iff.mpr ⟨complete, rest, rfl⟩⟩⟩

private theorem exists_wrap {memo : Memo ι} {complete : List ι}
    (known : ∀ id ∈ complete, ∃ hoisted, memo.lookup id = some hoisted) (node : SharedTree ι) :
    ∃ result, wrap memo node complete = .ok result := by
  induction complete with
  | nil => exact ⟨node, rfl⟩
  | cons id complete ih =>
    obtain ⟨⟨hoisted, found⟩, others⟩ := List.forall_mem_cons.mp known
    obtain ⟨body, inner⟩ := ih others
    refine ⟨.bind id hoisted.node body, bind_eq_ok_iff.mpr ⟨body, inner, ?_⟩⟩
    exact bind_eq_ok_iff.mpr ⟨hoisted, Fault.require_eq_ok_iff.mpr found, rfl⟩

end Hoisted

namespace Gathered

variable {ι : Type} [DecidableEq ι]

private theorem exists_add {gathered : Gathered ι} {hoisted : Hoisted ι}
    (nodup : (OrderedMap.keys hoisted.pending).Nodup)
    (small : ∀ id, Hoisted.pendingAt gathered.pending id + Hoisted.pendingAt hoisted.pending id <
      Word.limit) (operand : ι) : ∃ after, gathered.add operand hoisted = .ok after := by
  obtain ⟨pending, added⟩ := Hoisted.exists_addAllPending nodup small
  exact ⟨_, bind_eq_ok_iff.mpr ⟨pending, added, rfl⟩⟩

private theorem exists_close {gathered : Gathered ι} {tally : Tally ι} {memo : Memo ι}
    {multiplicity : Nat}
    (each : ∀ entry ∈ gathered.pending, ∃ total, tally.get? entry.1 = some total ∧
      entry.2 * multiplicity ≤ total ∧ total < Word.limit)
    (known : ∀ id ∈ OrderedMap.keys gathered.pending, ∃ hoisted, memo.lookup id = some hoisted)
    (id : ι) : ∃ hoisted, gathered.close tally memo multiplicity id = .ok hoisted := by
  obtain ⟨complete, covered⟩ := Hoisted.exists_covered each
  have among : ∀ key ∈ complete, key ∈ OrderedMap.keys gathered.pending := by
    intro key inside
    rw [(Hoisted.covered_eq_ok covered).2] at inside
    obtain ⟨entry, kept, rfl⟩ := List.mem_map.mp inside
    exact List.mem_map_of_mem (List.mem_of_mem_filter kept)
  obtain ⟨node, wrapped⟩ := Hoisted.exists_wrap (fun key inside => known key (among key inside))
    (.plain id gathered.operands)
  exact ⟨_, bind_eq_ok_iff.mpr ⟨complete, covered, bind_eq_ok_iff.mpr ⟨node, wrapped, rfl⟩⟩⟩

end Gathered

namespace View

variable {ι : Type} [DecidableEq ι] {view : View ι} {tally : Tally ι} {root : ι}

open Classical in
/-- The most that can be pending of an identity below a node: the number of paths to it if it is
shared, else nothing. -/
noncomputable def load (view : View ι) (root id target : ι) : Nat :=
  if view.Shared root target then view.paths id target else 0

open Classical in
private theorem Hoists.pendingAt_le {id : ι} {hoisted : Hoisted ι}
    (hoists : view.Hoists root id hoisted) (target : ι) :
    Hoisted.pendingAt hoisted.pending target ≤ view.load root id target := by
  by_cases pending : target ∈ OrderedMap.keys hoisted.pending
  · rw [hoists.keys_pending, List.mem_filter, decide_eq_true_iff] at pending
    rw [hoists.pendingAt_eq target pending.2, load, if_pos pending.2.1]
  · rw [Hoisted.pendingAt_of_not_mem pending]
    exact Nat.zero_le _

private theorem Hoists.nodup_keys {id : ι} {hoisted : Hoisted ι}
    (hoists : view.Hoists root id hoisted) : (OrderedMap.keys hoisted.pending).Nodup := by
  rw [hoists.keys_pending]
  exact (nodup_postorder id).filter _

theorem Tallies.paths_lt (tallies : view.Tallies tally root) (fits : tally.Fits) {target : ι}
    (nameable : view.Nameable target) : view.paths root target < Word.limit := by
  by_cases reached : view.Reaches root target
  · exact fits target _ (tallies.get?_eq target nameable reached)
  · rw [tallies.founded.paths_eq_zero reached]
    decide

private theorem Tallies.sum_load_lt (tallies : view.Tallies tally root) (fits : tally.Fits) {id : ι}
    (reached : view.Reaches root id) (target : ι) :
    ((view.references id).map fun ref => view.load root ref target).sum < Word.limit := by
  have founded := tallies.founded.of_reaches reached
  by_cases shared : view.Shared root target
  · have same : ((view.references id).map fun ref => view.load root ref target) =
        (view.references id).map fun ref => view.paths ref target :=
      List.map_congr_left fun ref _ => if_pos shared
    have steps := founded.paths_eq target
    have through := (tallies.founded.mul_paths id target).1
    have positive := tallies.founded.paths_pos_iff.mpr reached
    have most : view.paths id target ≤ view.paths root id * view.paths id target :=
      Nat.le_mul_of_pos_left _ positive
    have small := tallies.paths_lt fits shared.1
    rw [same]
    omega
  · have weightless : ((view.references id).map fun ref => view.load root ref target).sum = 0 := by
      refine List.sum_eq_zero fun n inside => ?_
      obtain ⟨ref, _, rfl⟩ := List.mem_map.mp inside
      exact if_neg shared
    rw [weightless]
    decide

structure Remembers (view : View ι) (root : ι) (memo : Memo ι) : Prop where
  hoists : ∀ key found, view.Reaches root key → memo.lookup key = some found →
    view.Hoists root key found
  below : ∀ key found, memo.lookup key = some found → ∀ target, view.Reaches key target →
    ∃ found', memo.lookup target = some found'

structure Advances (view : View ι) (root id : ι) (memo : Memo ι) (hoisted : Hoisted ι)
    (memo' : Memo ι) : Prop where
  hoists : view.Hoists root id hoisted
  remembers : view.Remembers root memo'
  known : memo'.lookup id = some hoisted
  kept : ∀ key found, memo.lookup key = some found → ∃ found', memo'.lookup key = some found'

private theorem exists_gathered {depth : Nat} {refs : List ι}
    (step : ∀ ref ∈ refs, ∀ memo, view.Remembers root memo → ∃ hoisted memo',
      view.hoistWithin tally depth ref memo = .ok (hoisted, memo') ∧
        view.Advances root ref memo hoisted memo')
    (gathered : Gathered ι) (memo : Memo ι) (remembers : view.Remembers root memo)
    (room : ∀ target, Hoisted.pendingAt gathered.pending target +
      (refs.map fun ref => view.load root ref target).sum < Word.limit) :
    ∃ entries after memo', entries.map Prod.fst = refs ∧
      (∀ entry ∈ entries, view.Hoists root entry.1 entry.2) ∧ gathered.addAll entries = .ok after ∧
      refs.foldlM (fun (gathered, memo) operand => do
        let (hoisted, memo) ← view.hoistWithin tally depth operand memo
        return (← Gathered.add gathered operand hoisted, memo)) (gathered, memo) =
          .ok (after, memo') ∧
      view.Remembers root memo' ∧ (∀ ref ∈ refs, ∃ found, memo'.lookup ref = some found) ∧
      ∀ key found, memo.lookup key = some found → ∃ found', memo'.lookup key = some found' := by
  induction refs generalizing gathered memo with
  | nil =>
    exact ⟨[], gathered, memo, rfl, by simp, rfl, rfl, remembers, by simp,
      fun _ found h => ⟨found, h⟩⟩
  | cons ref refs ih =>
    obtain ⟨first, others⟩ := List.forall_mem_cons.mp step
    obtain ⟨hoisted, memo₁, run, advances⟩ := first memo remembers
    have atMost := advances.hoists.pendingAt_le
    have small : ∀ target, Hoisted.pendingAt gathered.pending target +
        Hoisted.pendingAt hoisted.pending target < Word.limit := by
      intro target
      have enough := room target
      have load := atMost target
      rw [List.map_cons, List.sum_cons] at enough
      omega
    obtain ⟨between, added⟩ := Gathered.exists_add advances.hoists.nodup_keys small ref
    have sums := (Hoisted.addAllPending_eq_ok (Gathered.add_eq_ok added).2).2
      advances.hoists.nodup_keys
    have room' : ∀ target, Hoisted.pendingAt between.pending target +
        (refs.map fun ref => view.load root ref target).sum < Word.limit := by
      intro target
      have enough := room target
      have load := atMost target
      rw [List.map_cons, List.sum_cons] at enough
      rw [sums target]
      omega
    obtain ⟨entries, after, memo', rfl, each, adds, loop, remembers', found, kept⟩ :=
      ih others between memo₁ advances.remembers room'
    refine ⟨(ref, hoisted) :: entries, after, memo', rfl,
      List.forall_mem_cons.mpr ⟨advances.hoists, each⟩,
      Gathered.addAll_cons_eq_ok_iff.mpr ⟨between, added, adds⟩, ?_, remembers', ?_, ?_⟩
    · refine foldlM_cons_eq_ok_iff.mpr ⟨(between, memo₁), ?_, loop⟩
      exact bind_eq_ok_iff.mpr ⟨(hoisted, memo₁), run, bind_eq_ok_iff.mpr ⟨between, added, rfl⟩⟩
    · exact List.forall_mem_cons.mpr ⟨kept ref hoisted advances.known, found⟩
    · intro key known here
      obtain ⟨known', there⟩ := advances.kept key known here
      exact kept key known' there

private theorem exists_closed (tallies : view.Tallies tally root) (fits : tally.Fits) {id : ι}
    (reached : view.Reaches root id) {entries : List (ι × Hoisted ι)} {gathered : Gathered ι}
    (refs : entries.map Prod.fst = view.references id)
    (each : ∀ entry ∈ entries, view.Hoists root entry.1 entry.2)
    (adds : Gathered.empty.addAll entries = .ok gathered) {memo : Memo ι}
    (remembers : view.Remembers root memo)
    (found : ∀ ref ∈ view.references id, ∃ hoisted, memo.lookup ref = some hoisted) :
    ∃ hoisted, gathered.close tally memo (view.frequency root id) id = .ok hoisted := by
  have founded := tallies.founded.of_reaches reached
  refine Gathered.exists_close (fun entry member => ?_) (fun key inside => ?_) id
  · obtain ⟨⟨reaches, _⟩, isOpen, value⟩ :=
      of_mem_gathered tallies.founded reached refs each adds member
    have counted := tallies.get?_eq entry.1 isOpen.1.1 (reached.trans reaches)
    refine ⟨view.paths root entry.1, counted, ?_, fits entry.1 _ counted⟩
    calc entry.2 * view.frequency root id
        ≤ entry.2 * view.paths root id :=
        Nat.mul_le_mul_left _ (tallies.founded.frequency_le reached)
      _ = view.paths root id * view.paths id entry.1 := by rw [value, Nat.mul_comm]
      _ ≤ view.paths root entry.1 := (tallies.founded.mul_paths id entry.1).1
  · obtain ⟨n, entry⟩ := OrderedMap.mem_keys_iff.mp inside
    obtain ⟨⟨reaches, ne⟩, _⟩ :=
      of_mem_gathered tallies.founded reached refs each adds (OrderedMap.mem_of_get? entry)
    obtain ⟨ref, member, below⟩ := (reaches_iff.mp reaches).resolve_left ne
    obtain ⟨hoisted, known⟩ := found ref member
    exact remembers.below ref hoisted known key below

private theorem lookup_cons_of_known {memo : Memo ι} {id key : ι} {hoisted found : Hoisted ι}
    (known : memo.lookup key = some found) :
    ∃ found', List.lookup key ((id, hoisted) :: memo) = some found' := by
  rw [List.lookup_cons]
  split
  · exact ⟨hoisted, rfl⟩
  · exact ⟨found, known⟩

private theorem Remembers.insert {memo : Memo ι} {id : ι} {hoisted : Hoisted ι}
    (remembers : view.Remembers root memo) (hoists : view.Hoists root id hoisted)
    (found : ∀ ref ∈ view.references id, ∃ below, memo.lookup ref = some below) :
    view.Remembers root ((id, hoisted) :: memo) := by
  constructor
  · intro key known reached lookup
    rcases Memo.lookup_cons_eq_some lookup with ⟨rfl, rfl⟩ | lookup
    · exact hoists
    · exact remembers.hoists key known reached lookup
  · intro key known lookup target reaches
    rcases Memo.lookup_cons_eq_some lookup with ⟨rfl, rfl⟩ | lookup
    · rcases reaches_iff.mp reaches with rfl | ⟨ref, member, below⟩
      · exact ⟨known, by rw [List.lookup_cons, beq_self_eq_true]⟩
      · obtain ⟨next, there⟩ := found ref member
        obtain ⟨last, there'⟩ := remembers.below ref next there target below
        exact lookup_cons_of_known there'
    · obtain ⟨last, there⟩ := remembers.below key known lookup target reaches
      exact lookup_cons_of_known there

/-- Hoisting from a tally of words goes through, whatever has been hoisted before. -/
theorem Tallies.exists_hoistWithin (tallies : view.Tallies tally root) (fits : tally.Fits)
    {depth : Nat} {id : ι} (reached : view.Reaches root id)
    (low : (view.unfolding id).height ≤ depth) {memo : Memo ι}
    (remembers : view.Remembers root memo) :
    ∃ hoisted memo', view.hoistWithin tally depth id memo = .ok (hoisted, memo') ∧
      view.Advances root id memo hoisted memo' := by
  induction depth generalizing id memo with
  | zero =>
    have positive := (tallies.founded.of_reaches reached).height_pos
    omega
  | succ depth ih =>
    have founded := tallies.founded.of_reaches reached
    rw [hoistWithin]
    cases known : memo.lookup id with
    | some hoisted =>
      exact ⟨hoisted, memo, rfl, remembers.hoists id hoisted reached known, remembers, known,
        fun _ found here => ⟨found, here⟩⟩
    | none =>
      have step : ∀ ref ∈ view.references id, ∀ memo, view.Remembers root memo → ∃ hoisted memo',
          view.hoistWithin tally depth ref memo = .ok (hoisted, memo') ∧
            view.Advances root ref memo hoisted memo' := by
        intro ref member memo remembers
        have lower := founded.height_lt member
        exact ih (reached.trans (.of_reference member)) (by omega) remembers
      have room : ∀ target, Hoisted.pendingAt (Gathered.empty : Gathered ι).pending target +
          ((view.references id).map fun ref => view.load root ref target).sum < Word.limit := by
        intro target
        have nothing : Hoisted.pendingAt (Gathered.empty : Gathered ι).pending target = 0 := rfl
        rw [nothing, Nat.zero_add]
        exact tallies.sum_load_lt fits reached target
      obtain ⟨entries, gathered, between, refs, each, adds, loop, remembers', found, kept⟩ :=
        exists_gathered step Gathered.empty memo remembers room
      obtain ⟨hoisted, close⟩ := exists_closed tallies fits reached refs each adds remembers' found
      have hoists := hoists_of_close tallies reached refs each adds remembers'.hoists close
      refine ⟨hoisted, (id, hoisted) :: between, ?_, hoists, remembers'.insert hoists found, ?_, ?_⟩
      · refine bind_eq_ok_iff.mpr ⟨_, tallies.multiplicity_eq reached, ?_⟩
        refine bind_eq_ok_iff.mpr ⟨_, founded.operands, ?_⟩
        exact bind_eq_ok_iff.mpr ⟨(gathered, between), loop,
          bind_eq_ok_iff.mpr ⟨hoisted, close, rfl⟩⟩
      · rw [List.lookup_cons, beq_self_eq_true]
      · intro key before here
        obtain ⟨after, there⟩ := kept key before here
        exact lookup_cons_of_known there

private theorem Tallies.closes_root (tallies : view.Tallies tally root) {target : ι}
    (ne : root ≠ target) : view.Closes root root target := by
  refine ⟨ne, dominates_root target, ?_⟩
  rw [frequency, tallies.founded.paths_self]
  split
  · rfl
  · rfl

private theorem Tallies.not_open_root (tallies : view.Tallies tally root) (target : ι) :
    ¬view.Open root root target := by
  intro isOpen
  have ne : root ≠ target := by
    rintro rfl
    have once := tallies.founded.paths_self
    have more := isOpen.1.2
    omega
  exact isOpen.2 root (.refl root) (tallies.closes_root ne)

private theorem openBelow_of_open_of_covered {id target x : ι} (founded : view.Founded root)
    (reached : view.Reaches root id) (covered : target ∈ view.coveredBy root id)
    (below : view.Reaches target x) (isOpen : view.Open root target x) :
    view.OpenBelow root id x := by
  obtain ⟨there, unclosed, closes⟩ := (founded.of_reaches reached).mem_coveredBy.mp covered
  refine ⟨isOpen.1, fun ref member closer reaches closes' => ?_⟩
  -- The closer lies on every way from `id` to `target`, since it is neither above nor below these.
  have off : ¬view.Reaches closer id := fun back =>
    (founded.of_reaches reached).not_reaches_back member (reaches.trans back)
  have between : ∀ path, view.Path id target path → closer ∈ path := by
    intro path way
    obtain ⟨before, first⟩ := reached.exists_path
    obtain ⟨after, last⟩ := below.exists_path
    obtain ⟨upper, joined, inside⟩ := first.join way
    obtain ⟨whole, joined', inside'⟩ := joined.join last
    rcases inside' closer (closes'.dominates whole joined') with on | on
    · rcases inside closer on with on | on
      · obtain ⟨_, _, _, back, _, _⟩ := first.divide on
        exact absurd back.reaches off
      · exact on
    · obtain ⟨_, _, down, _, _, _⟩ := last.divide on
      exact absurd closes' (isOpen.2 closer down.reaches)
  have dominates : view.Dominates root closer target := by
    intro path way
    obtain ⟨_, second, _, rest, _, subset⟩ := way.divide (closes.dominates path way)
    exact subset (between second rest)
  have ne : closer ≠ target := by
    rintro rfl
    exact isOpen.2 closer (.refl closer) closes'
  exact unclosed.2 ref member closer reaches ⟨ne, dominates, closes'.frequency_eq⟩

private theorem Tallies.one_le_multiplicity (tallies : view.Tallies tally root) {id : ι} {n : Nat}
    (reached : view.Reaches root id) (run : view.multiplicity tally id = .ok n) : 1 ≤ n := by
  obtain rfl := Except.ok.inj ((tallies.multiplicity_eq reached).symm.trans run)
  have positive := tallies.founded.paths_pos_iff.mpr reached
  rw [frequency]
  split
  · exact positive
  · exact le_rfl

private theorem Tallies.open_of_unbound (tallies : view.Tallies tally root) {id x : ι}
    (reached : view.Reaches root id) (below : view.Reaches id x) (isOpen : view.OpenBelow root id x)
    (unbound : x ∉ view.coveredBy root id) : view.Open root id x := by
  refine open_iff.mpr ⟨isOpen, fun closes => unbound ?_⟩
  exact (tallies.founded.of_reaches reached).mem_coveredBy.mpr ⟨below, isOpen, closes⟩

/-- What thinning out leaves free in a hoisted tree lies below its node, and nothing below the node
closes it, nor do the bindings at the node bind it. -/
theorem Tallies.open_of_mem_live (tallies : view.Tallies tally root) {tree result : SharedTree ι}
    {id : ι} {ids live : List ι} {context : Option Nat}
    (arranged : tree.Arranged view (view.coveredBy root) (fun _ => False) id ids)
    (reached : view.Reaches root id) (suffix : ids <:+ view.coveredBy root id)
    (start : ∀ outer, context = some outer → 1 ≤ outer)
    (run : tree.thin view tally context = .ok (result, live)) :
    ∀ x ∈ live, (view.Reaches id x ∧ id ≠ x) ∧ view.OpenBelow root id x ∧ x ∉ ids := by
  induction arranged generalizing context result live with
  | @plain id operands keys _ _ ih =>
    obtain ⟨outer, results, scope, rfl, rfl, related⟩ := SharedTree.thin_plain_eq_ok run
    have positive : 1 ≤ outer := by
      rcases scope with scope | ⟨_, scope⟩
      · exact start outer scope
      · exact tallies.one_le_multiplicity reached scope
    have founded := tallies.founded.of_reaches reached
    intro x inside
    obtain ⟨result, member, inside⟩ := List.mem_flatMap.mp inside
    obtain ⟨entry, among, _, multiplicity, counted, thins⟩ :=
      exists_left_of_mem related member
    have key : entry.1 ∈ OrderedMap.keys operands := List.mem_map_of_mem among
    rw [keys, mem_firstSeen] at key
    have ref := key.resolve_left List.not_mem_nil
    have reached' := reached.trans (.of_reference ref)
    -- In both cases the identity is open at the operand.
    obtain ⟨below, isOpen⟩ : view.Reaches entry.1 x ∧ view.Open root entry.1 x := by
      rcases thins with ⟨more, _, same⟩ | ⟨_, thinned⟩
      · rw [same, List.mem_singleton] at inside
        subst inside
        obtain rfl := Except.ok.inj ((tallies.multiplicity_eq reached').symm.trans counted)
        have shared := one_lt_frequency_iff.mp (positive.trans_lt more)
        exact ⟨.refl _, (open_self_iff tallies.founded reached').mpr shared⟩
      · have start' : ∀ outer', some outer = some outer' → 1 ≤ outer' := by
          rintro _ ⟨⟩
          exact positive
        obtain ⟨⟨below, _⟩, isOpen, unbound⟩ :=
          ih entry among not_false reached' (List.suffix_refl _) start' thinned x inside
        exact ⟨below, tallies.open_of_unbound reached' below isOpen unbound⟩
    have different : id ≠ x := by
      rintro rfl
      exact founded.not_reaches_back ref below
    exact ⟨⟨(Reaches.of_reference ref).trans below, different⟩,
      (open_iff_openBelow tallies.founded reached ref below).mp isOpen, List.not_mem_nil⟩
  | @bind target id rest bound body _ _ ihBound ihBody =>
    obtain ⟨body', bodyLive, inner, cases⟩ := SharedTree.thin_bind_eq_ok run
    have inBody := ihBody reached ((List.suffix_cons target rest).trans suffix) start inner
    have founded := tallies.founded.of_reaches reached
    have covered := suffix.subset List.mem_cons_self
    have order : (target :: rest).Pairwise fun first second => ¬view.Reaches first second :=
      (founded.pairwise_postorder.filter _).sublist suffix.sublist
    rcases cases with ⟨_, bound', boundLive, outer, rfl, rfl⟩ | ⟨unused, rfl, rfl⟩
    · intro x inside
      rcases List.mem_append.mp inside with inside | inside
      · rw [List.mem_filter, decide_eq_true_iff] at inside
        obtain ⟨below, isOpen, unbound⟩ := inBody x inside.1
        exact ⟨below, isOpen, List.not_mem_cons_of_ne_of_not_mem inside.2 unbound⟩
      · have there := (founded.mem_coveredBy.mp covered).1
        have reached' := reached.trans there
        obtain ⟨⟨below, ne⟩, isOpen, unbound⟩ :=
          ihBound reached' (List.suffix_refl _) (by simp) outer x inside
        have isOpen' := tallies.open_of_unbound reached' below isOpen unbound
        have later : x ∉ rest := fun late => (List.pairwise_cons.mp order).1 x late below
        have different : id ≠ x := by
          rintro rfl
          exact (founded.mem_coveredBy.mp covered).2.2.ne (founded.eq_of_reaches there below)
        exact ⟨⟨there.trans below, different⟩,
          openBelow_of_open_of_covered tallies.founded reached covered below isOpen',
          List.not_mem_cons_of_ne_of_not_mem ne.symm later⟩
    · intro x inside
      obtain ⟨below, isOpen, unbound⟩ := inBody x inside
      have different : x ≠ target := fun same => unused (same ▸ inside)
      exact ⟨below, isOpen, List.not_mem_cons_of_ne_of_not_mem different unbound⟩

end View

namespace SharedTree

variable {ι : Type} [DecidableEq ι] {view : View ι} {tally : Tally ι}

private theorem exists_thinOperands {outer : Nat} {operands : List (ι × SharedTree ι)}
    (each : ∀ entry ∈ operands, (∃ n, view.multiplicity tally entry.1 = .ok n) ∧
      ∃ result, entry.2.thin view tally (some outer) = .ok result) :
    ∃ result, thinOperands view tally outer operands = .ok result := by
  induction operands with
  | nil => exact ⟨_, rfl⟩
  | cons entry operands ih =>
    obtain ⟨⟨⟨n, counted⟩, ⟨thinned, live⟩, run⟩, others⟩ := List.forall_mem_cons.mp each
    obtain ⟨⟨rest, restLive⟩, run'⟩ := ih others
    obtain ⟨id, operand⟩ := entry
    rw [thinOperands]
    by_cases more : outer < n
    · refine ⟨((id, .var id) :: rest, [id] ++ restLive), bind_eq_ok_iff.mpr ⟨n, counted, ?_⟩⟩
      rw [if_pos more]
      exact bind_eq_ok_iff.mpr ⟨_, rfl, bind_eq_ok_iff.mpr ⟨_, run', rfl⟩⟩
    · refine ⟨((id, thinned) :: rest, live ++ restLive), bind_eq_ok_iff.mpr ⟨n, counted, ?_⟩⟩
      rw [if_neg more]
      exact bind_eq_ok_iff.mpr ⟨_, run, bind_eq_ok_iff.mpr ⟨_, run', rfl⟩⟩

theorem Arranged.exists_thin {root : ι} {tree : SharedTree ι} {id : ι} {ids : List ι}
    (arranged : tree.Arranged view (view.coveredBy root) (fun _ => False) id ids)
    (tallies : view.Tallies tally root) (reached : view.Reaches root id)
    (subset : ids ⊆ view.coveredBy root id) (context : Option Nat) :
    ∃ result, tree.thin view tally context = .ok result := by
  induction arranged generalizing context with
  | @plain id operands keys _ _ ih =>
    have each : ∀ outer, ∀ entry ∈ operands, (∃ n, view.multiplicity tally entry.1 = .ok n) ∧
        ∃ result, entry.2.thin view tally (some outer) = .ok result := by
      intro outer entry among
      have key : entry.1 ∈ OrderedMap.keys operands := List.mem_map_of_mem among
      rw [keys, mem_firstSeen] at key
      have reached' := reached.trans (.of_reference (key.resolve_left List.not_mem_nil))
      exact ⟨⟨_, tallies.multiplicity_eq reached'⟩,
        ih entry among not_false reached' (List.Subset.refl _) (some outer)⟩
    cases context with
    | some outer =>
      obtain ⟨result, run⟩ := exists_thinOperands (each outer)
      rw [thin]
      exact ⟨_, bind_eq_ok_iff.mpr ⟨outer, rfl, bind_eq_ok_iff.mpr ⟨result, run, rfl⟩⟩⟩
    | none =>
      obtain ⟨result, run⟩ := exists_thinOperands (each (view.frequency root id))
      rw [thin]
      exact ⟨_, bind_eq_ok_iff.mpr ⟨_, tallies.multiplicity_eq reached,
        bind_eq_ok_iff.mpr ⟨result, run, rfl⟩⟩⟩
  | @bind target id rest bound body _ _ ihBound ihBody =>
    obtain ⟨covered, subset⟩ := List.cons_subset.mp subset
    have founded := tallies.founded.of_reaches reached
    have reached' := reached.trans (founded.mem_coveredBy.mp covered).1
    obtain ⟨⟨body', live⟩, inner⟩ := ihBody reached subset context
    obtain ⟨⟨bound', boundLive⟩, outer⟩ := ihBound reached' (List.Subset.refl _) none
    rw [thin]
    by_cases used : target ∈ live
    · refine ⟨(.bind target bound' body', live.filter (· ≠ target) ++ boundLive),
        bind_eq_ok_iff.mpr ⟨_, inner, ?_⟩⟩
      dsimp only
      rw [if_pos used]
      exact bind_eq_ok_iff.mpr ⟨_, outer, rfl⟩
    · refine ⟨(body', live), bind_eq_ok_iff.mpr ⟨_, inner, ?_⟩⟩
      dsimp only
      rw [if_neg used]
      rfl

end SharedTree

namespace View

variable {ι : Type} [DecidableEq ι] {view : View ι} {tally : Tally ι} {root : ι}

theorem Tallies.exists_hoist_thin (tallies : view.Tallies tally root) (fits : tally.Fits)
    (low : (view.unfolding root).height ≤ view.depth) :
    ∃ hoisted memo tree, view.hoist tally root = .ok (hoisted, memo) ∧ hoisted.pending = [] ∧
      hoisted.node.thin view tally none = .ok (tree, []) := by
  have nothing : view.Remembers root [] := ⟨by simp, by simp⟩
  obtain ⟨hoisted, memo, hoist, advances⟩ :=
    tallies.exists_hoistWithin fits (.refl root) low nothing
  have arranged := advances.hoists.arranged
  obtain ⟨⟨tree, live⟩, thin⟩ := arranged.exists_thin tallies (.refl root) (List.Subset.refl _) none
  have pending : hoisted.pending = [] := by
    refine List.map_eq_nil_iff.mp (advances.hoists.keys_pending.trans ?_)
    exact List.filter_eq_nil_iff.mpr fun target _ => by simpa using tallies.not_open_root target
  have closed : live = [] := by
    refine List.eq_nil_iff_forall_not_mem.mpr fun x inside => ?_
    obtain ⟨⟨below, ne⟩, isOpen, unbound⟩ := tallies.open_of_mem_live arranged (.refl root)
      (List.suffix_refl _) (by simp) thin x inside
    exact unbound (tallies.founded.mem_coveredBy.mpr ⟨below, isOpen, tallies.closes_root ne⟩)
  exact ⟨hoisted, memo, tree, hoist, pending, closed ▸ thin⟩

theorem recover_of_hoist {memo : Memo ι} {hoisted : Hoisted ι} {tree : SharedTree ι}
    (counted : view.tally root = .ok tally) (hoist : view.hoist tally root = .ok (hoisted, memo))
    (pending : hoisted.pending = []) (thin : hoisted.node.thin view tally none = .ok (tree, [])) :
    view.recover root = .ok tree := by
  refine bind_eq_ok_iff.mpr ⟨tally, counted, bind_eq_ok_iff.mpr ⟨(hoisted, memo), hoist, ?_⟩⟩
  simp only [pending, List.isEmpty_nil, Bool.not_true, Bool.false_eq_true, if_false]
  exact bind_eq_ok_iff.mpr ⟨(tree, []), thin, rfl⟩

/-- Where the identity of a node is the node itself, recovery fails only if counting does, and then
in the same way: hoisting meets no overflow, no overcounted and no unknown identity, nothing is
pending at the root, and no variable is free after thinning out. -/
theorem recover_succeeds_of_tally
    (lawful : ∀ id other, view.identify id = .ok other → other = id) (root : ι) :
    (∀ tally, view.tally root = .ok tally → ∃ hoisted memo tree,
      view.hoist tally root = .ok (hoisted, memo) ∧ hoisted.pending = [] ∧
      hoisted.node.thin view tally none = .ok (tree, []) ∧ view.recover root = .ok tree) ∧
    ∀ fault, view.tally root = .error fault → view.recover root = .error fault := by
  constructor
  · intro tally counted
    obtain ⟨origin, identified, counts⟩ := counts_of_tally counted
    obtain rfl := lawful root origin identified
    have fits := fits_of_tally counted
    obtain ⟨hoisted, memo, tree, hoist, pending, thin⟩ :=
      counts.tallies.exists_hoist_thin fits counts.height_le
    exact ⟨hoisted, memo, tree, hoist, pending, thin, recover_of_hoist counted hoist pending thin⟩
  · intro fault failed
    rw [recover, failed]
    rfl

/-- Trivial nodes with operands: node `2` lies on five paths and counts once, and what lies below it
is bound above it. A table with a missing row fails in the counting. -/
theorem recover_succeeds_below_trivial :
    let table : Table := ⟨#[[], [0, 0], [1, 0], [2, 1, 2], [3, 3, 2]], [2]⟩
    let broken : Table := ⟨#[[7], [0, 0]], [0]⟩
    (∃ hoisted memo tree,
      table.view.hoist ⟨[(4, 1), (3, 2), (1, 7), (0, 19)]⟩ 4 = .ok (hoisted, memo) ∧
      hoisted.pending = [] ∧
      hoisted.node.thin table.view ⟨[(4, 1), (3, 2), (1, 7), (0, 19)]⟩ none = .ok (tree, []) ∧
      table.view.recover 4 = .ok tree) ∧
    broken.view.recover 1 = .error .missingNode := by
  intro table broken
  have self : ∀ table : Table, ∀ id other, table.view.identify id = .ok other → other = id := by
    intro table id other run
    obtain ⟨_, _, run⟩ := bind_eq_ok_iff.mp run
    exact (pure_eq_ok_iff.mp run).symm
  exact ⟨(recover_succeeds_of_tally (self table) 4).1 _ rfl,
    (recover_succeeds_of_tally (self broken) 1).2 _ rfl⟩

end View
end SharingRecovery
