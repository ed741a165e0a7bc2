import SharingRecovery.Proofs.Arrangement
import SharingRecovery.Proofs.Counting
import SharingRecovery.Proofs.Dominance
import SharingRecovery.Proofs.FinishOrder
import SharingRecovery.Proofs.Hoisting

set_option autoImplicit false

/-!
What hoisting does to a whole graph. A node closes another one if it dominates it and counts as
often as it is reached. Every shared node stays pending, with the number of paths to it, up to the
nearest node that closes it, and is bound there, in postorder.
-/

namespace SharingRecovery

namespace View

variable {ι : Type} [DecidableEq ι] {view : View ι} {tally : Tally ι} {root : ι}

def Shared (view : View ι) (root id : ι) : Prop :=
  view.Nameable id ∧ 1 < view.paths root id

/-- A node where all occurrences of another one meet: it lies on every path to the other, and counts
as often as it is reached. -/
structure Closes (view : View ι) (root closer id : ι) : Prop where
  ne : closer ≠ id
  dominates : view.Dominates root closer id
  frequency_eq : view.frequency root closer = view.paths root closer

def OpenBelow (view : View ι) (root id target : ι) : Prop :=
  view.Shared root target ∧
    ∀ ref ∈ view.references id, ∀ closer, view.Reaches ref closer → ¬view.Closes root closer target

/-- A shared node that nothing closes at or below the given node. -/
def Open (view : View ι) (root id target : ι) : Prop :=
  view.Shared root target ∧ ∀ closer, view.Reaches id closer → ¬view.Closes root closer target

open Classical in
/-- The nodes that a node is the first to close, in postorder. -/
noncomputable def coveredBy (view : View ι) (root id : ι) : List ι :=
  (view.postorder id).filter fun target =>
    view.OpenBelow root id target ∧ view.Closes root id target

open Classical in
/-- What hoisting a node gives: the nodes open there are pending with their numbers of paths, and
each node stands inside the bindings of what it is the first to close. -/
structure Hoists (view : View ι) (root id : ι) (hoisted : Hoisted ι) : Prop where
  keys_pending : OrderedMap.keys hoisted.pending =
    (view.postorder id).filter fun target => view.Open root id target
  pendingAt_eq : ∀ target, view.Open root id target →
    Hoisted.pendingAt hoisted.pending target = view.paths id target
  arranged : hoisted.node.Arranged view (view.coveredBy root) (fun _ => False) id
    (view.coveredBy root id)

theorem Founded.mem_coveredBy {id target : ι} (founded : view.Founded id) :
    target ∈ view.coveredBy root id ↔
      view.Reaches id target ∧ view.OpenBelow root id target ∧ view.Closes root id target := by
  simp [coveredBy, founded.mem_postorder]

theorem open_iff {id target : ι} :
    view.Open root id target ↔ view.OpenBelow root id target ∧ ¬view.Closes root id target := by
  constructor
  · rintro ⟨shared, unclosed⟩
    refine ⟨⟨shared, fun ref member closer reaches => ?_⟩, unclosed id (.refl id)⟩
    exact unclosed closer ((Reaches.of_reference member).trans reaches)
  · rintro ⟨⟨shared, below⟩, here⟩
    refine ⟨shared, fun closer reaches => ?_⟩
    rcases reaches_iff.mp reaches with rfl | ⟨ref, member, reaches⟩
    · exact here
    · exact below ref member closer reaches

theorem open_self_iff {id : ι} (founded : view.Founded root) (reached : view.Reaches root id) :
    view.Open root id id ↔ view.Shared root id := by
  refine ⟨fun isOpen => isOpen.1, fun shared => ⟨shared, fun closer reaches closes => ?_⟩⟩
  have above := (closes.dominates.reaches reached).2
  exact closes.ne ((founded.of_reaches reached).eq_of_reaches reaches above).symm

theorem open_iff_openBelow {id ref target : ι} (founded : view.Founded root)
    (reached : view.Reaches root id) (member : ref ∈ view.references id)
    (below : view.Reaches ref target) :
    view.Open root ref target ↔ view.OpenBelow root id target := by
  constructor
  · rintro ⟨shared, unclosed⟩
    refine ⟨shared, fun other member' closer reaches closes => unclosed closer ?_ closes⟩
    -- The closer is on the path through `id` and `ref`, but not before `ref`: it is below `id`.
    obtain ⟨before, way⟩ := reached.exists_path
    obtain ⟨after, rest⟩ := below.exists_path
    obtain ⟨path, joined, inside⟩ := way.join (.step member rest)
    have off : ¬view.Reaches closer id := fun back =>
      (founded.of_reaches reached).not_reaches_back member' (reaches.trans back)
    rcases inside closer (closes.dominates path joined) with on | on
    · obtain ⟨_, _, _, back, _, _⟩ := way.divide on
      exact absurd back.reaches off
    · rcases List.mem_cons.mp on with rfl | on
      · exact absurd (.refl closer) off
      · obtain ⟨_, _, there, _, _, _⟩ := rest.divide on
        exact there.reaches
  · rintro ⟨shared, unclosed⟩
    exact ⟨shared, fun closer reaches => unclosed ref member closer reaches⟩

/-- The test by which hoisting decides finds exactly the nodes that are closed. -/
theorem mul_frequency_eq_iff {id target : ι} (founded : view.Founded root)
    (reached : view.Reaches root id) (below : view.Reaches id target) (ne : id ≠ target) :
    view.paths id target * view.frequency root id = view.paths root target ↔
      view.Closes root id target := by
  have positive := (founded.of_reaches reached).paths_pos_iff.mpr below
  have atMost := founded.frequency_le reached
  have product := (founded.mul_paths id target).1
  rw [Nat.mul_comm] at product
  constructor
  · intro same
    have least : view.paths id target * view.paths root id ≤
        view.paths id target * view.frequency root id := by omega
    have exactly := atMost.antisymm (Nat.le_of_mul_le_mul_left least positive)
    refine ⟨ne, founded.dominates_iff.mpr ?_, exactly⟩
    rw [Nat.mul_comm, ← exactly, same]
  · intro closes
    rw [closes.frequency_eq, Nat.mul_comm]
    exact founded.dominates_iff.mp closes.dominates

section Step

variable {id : ι} {entries : List (ι × Hoisted ι)} {gathered : Gathered ι}

open Classical in
private theorem keys_gathered (founded : view.Founded root) (reached : view.Reaches root id)
    (refs : entries.map Prod.fst = view.references id)
    (each : ∀ entry ∈ entries, view.Hoists root entry.1 entry.2)
    (adds : Gathered.empty.addAll entries = .ok gathered) :
    OrderedMap.keys gathered.pending =
      (firstSeen [] ((view.references id).flatMap view.postorder)).filter
        fun target => view.OpenBelow root id target := by
  have same : (entries.flatMap fun entry => OrderedMap.keys entry.2.pending) =
      ((view.references id).flatMap view.postorder).filter
        fun target => view.OpenBelow root id target := by
    rw [List.filter_flatMap, ← refs, List.flatMap_map]
    refine List.flatMap_congr fun entry inside => ?_
    have member : entry.1 ∈ view.references id := refs ▸ List.mem_map_of_mem inside
    rw [(each entry inside).keys_pending]
    refine List.filter_congr fun target below => ?_
    have founded' := (founded.of_reaches reached).of_reference member
    rw [decide_eq_decide]
    exact open_iff_openBelow founded reached member (founded'.mem_postorder.mp below)
  rw [Gathered.keys_pending_of_addAll adds, same, filter_firstSeen]
  rfl

open Classical in
private theorem pendingAt_gathered (founded : view.Founded root) (reached : view.Reaches root id)
    (refs : entries.map Prod.fst = view.references id)
    (each : ∀ entry ∈ entries, view.Hoists root entry.1 entry.2)
    (adds : Gathered.empty.addAll entries = .ok gathered) {target : ι} (ne : id ≠ target)
    (isOpen : view.OpenBelow root id target) :
    Hoisted.pendingAt gathered.pending target = view.paths id target := by
  have nodup : ∀ entry ∈ entries, (OrderedMap.keys entry.2.pending).Nodup := by
    intro entry inside
    rw [(each entry inside).keys_pending]
    exact (nodup_postorder entry.1).filter _
  rw [Gathered.pendingAt_of_addAll adds nodup, (founded.of_reaches reached).paths_of_ne ne, ← refs,
    List.map_map]
  have nothing : Hoisted.pendingAt (Gathered.empty : Gathered ι).pending target = 0 := rfl
  rw [nothing, Nat.zero_add]
  congr 1
  refine List.map_congr_left fun entry inside => ?_
  have member : entry.1 ∈ view.references id := refs ▸ List.mem_map_of_mem inside
  refine (each entry inside).pendingAt_eq target ⟨isOpen.1, fun closer reaches => ?_⟩
  exact isOpen.2 entry.1 member closer reaches

private theorem reaches_of_mem_below (founded : view.Founded id) {target : ι}
    (inside : target ∈ firstSeen [] ((view.references id).flatMap view.postorder)) :
    view.Reaches id target ∧ id ≠ target := by
  obtain ⟨ref, member, inside⟩ :=
    List.mem_flatMap.mp ((mem_firstSeen.mp inside).resolve_left List.not_mem_nil)
  have below := (founded.of_reference member).mem_postorder.mp inside
  refine ⟨(Reaches.of_reference member).trans below, ?_⟩
  rintro rfl
  exact founded.not_reaches_back member below

theorem of_mem_gathered (founded : view.Founded root) (reached : view.Reaches root id)
    (refs : entries.map Prod.fst = view.references id)
    (each : ∀ entry ∈ entries, view.Hoists root entry.1 entry.2)
    (adds : Gathered.empty.addAll entries = .ok gathered) {target : ι} {n : Nat}
    (member : (target, n) ∈ gathered.pending) :
    (view.Reaches id target ∧ id ≠ target) ∧ view.OpenBelow root id target ∧
      n = view.paths id target := by
  classical
  have keys := keys_gathered founded reached refs each adds
  have nodup : (OrderedMap.keys gathered.pending).Nodup := by
    rw [keys]
    exact (nodup_firstSeen List.nodup_nil _).filter _
  have inside : target ∈ OrderedMap.keys gathered.pending := List.mem_map_of_mem member
  rw [keys, List.mem_filter, decide_eq_true_iff] at inside
  obtain ⟨below, isOpen⟩ := inside
  have reaches := reaches_of_mem_below (founded.of_reaches reached) below
  refine ⟨reaches, isOpen, ?_⟩
  rw [← pendingAt_gathered founded reached refs each adds reaches.2 isOpen, Hoisted.pendingAt,
    OrderedMap.get?_of_mem nodup member]
  rfl

open Classical in
private theorem covered_eq (tallies : view.Tallies tally root) (reached : view.Reaches root id)
    (refs : entries.map Prod.fst = view.references id)
    (each : ∀ entry ∈ entries, view.Hoists root entry.1 entry.2)
    (adds : Gathered.empty.addAll entries = .ok gathered) {complete : List ι}
    (run : Hoisted.covered tally (view.frequency root id) gathered.pending = .ok complete) :
    complete =
      (OrderedMap.keys gathered.pending).filter fun target => view.Closes root id target := by
  rw [(Hoisted.covered_eq_ok run).2, OrderedMap.keys, List.filter_map]
  congr 1
  refine List.filter_congr fun entry member => ?_
  obtain ⟨⟨reaches, ne⟩, isOpen, value⟩ :=
    of_mem_gathered tallies.founded reached refs each adds member
  rw [Function.comp_apply, decide_eq_decide, value,
    tallies.get?_eq entry.1 isOpen.1.1 (reached.trans reaches), Option.some.injEq, eq_comm]
  exact mul_frequency_eq_iff tallies.founded reached reaches ne

open Classical in
private theorem coveredBy_eq (founded : view.Founded root) (reached : view.Reaches root id) :
    view.coveredBy root id =
      ((firstSeen [] ((view.references id).flatMap view.postorder)).filter
        fun target => view.OpenBelow root id target).filter
          fun target => view.Closes root id target := by
  have last : ¬(view.OpenBelow root id id ∧ view.Closes root id id) := fun both => both.2.ne rfl
  rw [coveredBy, (founded.of_reaches reached).postorder_eq, List.filter_append, List.filter_filter,
    List.filter_cons_of_neg (by simpa using last), List.filter_nil, List.append_nil]
  refine List.filter_congr fun target _ => ?_
  rw [Bool.decide_and, Bool.and_comm]

theorem one_lt_frequency_iff : 1 < view.frequency root id ↔ view.Shared root id := by
  rw [frequency, Shared]
  split
  · rename_i nameable
    simp [nameable]
  · rename_i trivial
    simp [trivial]

open Classical in
theorem hoists_of_close (tallies : view.Tallies tally root)
    (reached : view.Reaches root id) (refs : entries.map Prod.fst = view.references id)
    (each : ∀ entry ∈ entries, view.Hoists root entry.1 entry.2)
    (adds : Gathered.empty.addAll entries = .ok gathered) {memo : Memo ι} {hoisted : Hoisted ι}
    (known : ∀ key found, view.Reaches root key → memo.lookup key = some found →
      view.Hoists root key found)
    (run : gathered.close tally memo (view.frequency root id) id = .ok hoisted) :
    view.Hoists root id hoisted := by
  obtain ⟨complete, covered, wrapped, pending⟩ := Gathered.close_eq_ok run
  have founded := tallies.founded.of_reaches reached
  have keys := keys_gathered tallies.founded reached refs each adds
  have completes := covered_eq tallies reached refs each adds covered
  have chain : complete = view.coveredBy root id := by
    rw [completes, keys, coveredBy_eq tallies.founded reached]
  have left : OrderedMap.keys (complete.foldl OrderedMap.erase gathered.pending) =
      (firstSeen [] ((view.references id).flatMap view.postorder)).filter
        fun target => view.Open root id target := by
    rw [Hoisted.keys_erase, completes, keys, List.filter_filter]
    refine List.filter_congr fun target inside => ?_
    rw [← Bool.decide_and, decide_eq_decide, open_iff]
    simp only [List.mem_filter, decide_eq_true_eq, inside, true_and, not_and]
    constructor
    · rintro ⟨unclosed, isOpen⟩
      exact ⟨isOpen, unclosed isOpen⟩
    · rintro ⟨isOpen, unclosed⟩
      exact ⟨fun _ => unclosed, isOpen⟩
  have self : id ∉ OrderedMap.keys (complete.foldl OrderedMap.erase gathered.pending) := by
    rw [left]
    exact fun inside => (reaches_of_mem_below founded (List.mem_of_mem_filter inside)).2 rfl
  refine ⟨?_, fun target isOpen => ?_, ?_⟩
  · rw [pending, founded.postorder_eq, List.filter_append, ← left]
    by_cases shared : view.Shared root id
    · rw [if_pos (one_lt_frequency_iff.mpr shared), OrderedMap.keys_insert_eq, firstSeen_singleton,
        if_neg self, List.filter_cons_of_pos, List.filter_nil]
      simpa using (open_self_iff tallies.founded reached).mpr shared
    · rw [if_neg (mt one_lt_frequency_iff.mp shared), List.filter_cons_of_neg, List.filter_nil,
        List.append_nil]
      simpa using mt (open_self_iff tallies.founded reached).mp shared
  · by_cases same : target = id
    · subst same
      rw [pending, if_pos (one_lt_frequency_iff.mpr isOpen.1), Hoisted.pendingAt,
        OrderedMap.get?_insert, if_pos rfl, founded.paths_self]
      rfl
    · have unclosed := (open_iff.mp isOpen).2
      have kept : target ∉ complete := by
        rw [completes, List.mem_filter, decide_eq_true_iff]
        exact fun inside => unclosed inside.2
      rw [← pendingAt_gathered tallies.founded reached refs each adds (Ne.symm same)
        (open_iff.mp isOpen).1, ← Hoisted.pendingAt_erase gathered.pending kept, pending]
      split
      · rw [Hoisted.pendingAt, OrderedMap.get?_insert, if_neg same, Hoisted.pendingAt]
      · rfl
  · rw [← chain]
    refine SharedTree.Arranged.wrap (fun key inside found lookup => ?_) ?_ wrapped
    · rw [completes, keys] at inside
      have below := List.mem_of_mem_filter (List.mem_of_mem_filter inside)
      have reaches := reached.trans (reaches_of_mem_below founded below).1
      exact (known key found reaches lookup).arranged
    · refine .plain ?_ (fun _ _ impossible => impossible.elim) fun operand member _ => ?_
      · rw [Gathered.keys_operands_of_addAll adds, refs]
        rfl
      · rcases Gathered.mem_operands_of_addAll adds member with inside | ⟨entry, referred, rfl⟩
        · simp [Gathered.empty] at inside
        · exact (each entry referred).arranged

end Step

/-- Hoisting binds every shared node at the nearest node that closes it. -/
theorem Tallies.hoists {depth : Nat} {id : ι} {memo : Memo ι} {hoisted : Hoisted ι}
    (tallies : view.Tallies tally root) (reached : view.Reaches root id)
    (run : view.hoistWithin tally depth id [] = .ok (hoisted, memo)) :
    view.Hoists root id hoisted := by
  refine (hoistWithin_induction
    (motive := fun id hoisted => view.Reaches root id → view.Hoists root id hoisted)
    ?_ run (by simp)).1 reached
  intro id multiplicity entries gathered memo hoisted counted operands each adds known close reached
  have refs : entries.map Prod.fst = view.references id := (references_eq operands).symm
  obtain rfl : view.frequency root id = multiplicity :=
    Except.ok.inj ((tallies.multiplicity_eq reached).symm.trans counted)
  refine hoists_of_close tallies reached refs (fun entry inside => each entry inside ?_) adds
    (fun key found reaches lookup => known key found lookup reaches) close
  exact reached.trans (.of_reference (refs ▸ List.mem_map_of_mem inside))

end View
end SharingRecovery
