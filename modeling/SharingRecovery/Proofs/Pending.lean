import SharingRecovery.Proofs.Completion
import SharingRecovery.Proofs.Expansion

set_option autoImplicit false

/-!
What is pending at each node after hoisting from a root. The memo only grows, so that at the end it
holds the result of every step together with the results the step was taken from. An identity is
pending from the node itself up to the nearest node that accounts for all its occurrences, and is
bound there; the number that is kept for it is the number of paths.
-/

namespace SharingRecovery

namespace Memo

variable {ι : Type} [DecidableEq ι]

def Grows (memo memo' : Memo ι) : Prop :=
  ∀ id hoisted, memo.lookup id = some hoisted → memo'.lookup id = some hoisted

theorem Grows.refl (memo : Memo ι) : memo.Grows memo :=
  fun _ _ known => known

theorem Grows.trans {memo memo' memo'' : Memo ι} (first : memo.Grows memo')
    (second : memo'.Grows memo'') : memo.Grows memo'' :=
  fun id hoisted known => second id hoisted (first id hoisted known)

private theorem grows_cons {memo : Memo ι} {id : ι} (unknown : memo.lookup id = none)
    (hoisted : Hoisted ι) : memo.Grows ((id, hoisted) :: memo) := by
  intro key found known
  have different : key ≠ id := by
    rintro rfl
    rw [unknown] at known
    cases known
  rw [List.lookup_cons, beq_false_of_ne different]
  exact known

end Memo

namespace Hoisted

variable {ι : Type} [DecidableEq ι]

private theorem wrap_of_grows {memo memo' : Memo ι} {node result : SharedTree ι} {complete : List ι}
    (grows : memo.Grows memo') (run : wrap memo node complete = .ok result) :
    wrap memo' node complete = .ok result := by
  induction complete generalizing result with
  | nil => exact run
  | cons id complete ih =>
    obtain ⟨body, inner, run⟩ := bind_eq_ok_iff.mp run
    obtain ⟨hoisted, found, run⟩ := bind_eq_ok_iff.mp run
    refine bind_eq_ok_iff.mpr ⟨body, ih inner, bind_eq_ok_iff.mpr ⟨hoisted, ?_, run⟩⟩
    apply Fault.require_eq_ok_iff.mpr
    exact grows id hoisted (Fault.require_eq_ok_iff.mp found)

end Hoisted

namespace Gathered

variable {ι : Type} [DecidableEq ι]

private theorem close_of_grows {gathered : Gathered ι} {tally : Tally ι} {memo memo' : Memo ι}
    {multiplicity : Nat} {id : ι} {hoisted : Hoisted ι} (grows : memo.Grows memo')
    (run : gathered.close tally memo multiplicity id = .ok hoisted) :
    gathered.close tally memo' multiplicity id = .ok hoisted := by
  obtain ⟨complete, covered, run⟩ := bind_eq_ok_iff.mp run
  obtain ⟨node, wrapped, run⟩ := bind_eq_ok_iff.mp run
  have wrapped' := Hoisted.wrap_of_grows grows wrapped
  exact bind_eq_ok_iff.mpr ⟨complete, covered, bind_eq_ok_iff.mpr ⟨node, wrapped', run⟩⟩

end Gathered

namespace View

variable {ι : Type} [DecidableEq ι] {view : View ι} {tally : Tally ι} {root : ι}

/-- A memo holds the step of hoisting that was taken at a node: the results of its operands, one for
every reference and added up in order, and the result of closing the node over them. -/
structure Step (view : View ι) (tally : Tally ι) (memo : Memo ι) (id : ι) (multiplicity : Nat)
    (gathered : Gathered ι) (hoisted : Hoisted ι) : Prop where
  known : memo.lookup id = some hoisted
  multiplicity_eq : view.multiplicity tally id = .ok multiplicity
  gathers : ∃ entries, view.operands id = .ok (entries.map Prod.fst) ∧
    (∀ entry ∈ entries, memo.lookup entry.1 = some entry.2) ∧
    Gathered.empty.addAll entries = .ok gathered
  closes : gathered.close tally memo multiplicity id = .ok hoisted

private theorem Step.grows {memo memo' : Memo ι} {id : ι} {multiplicity : Nat}
    {gathered : Gathered ι} {hoisted : Hoisted ι}
    (step : view.Step tally memo id multiplicity gathered hoisted)
    (grows : memo.Grows memo') : view.Step tally memo' id multiplicity gathered hoisted := by
  obtain ⟨entries, operands, each, adds⟩ := step.gathers
  refine ⟨grows id hoisted step.known, step.multiplicity_eq, ⟨entries, operands, ?_, adds⟩,
    Gathered.close_of_grows grows step.closes⟩
  intro entry member
  exact grows entry.1 entry.2 (each entry member)

def Stepwise (view : View ι) (tally : Tally ι) (memo : Memo ι) : Prop :=
  ∀ id hoisted, memo.lookup id = some hoisted →
    ∃ multiplicity gathered, view.Step tally memo id multiplicity gathered hoisted

/-- A run of hoisting from a node: it keeps what is known, adds only what the node reaches, and
everything known afterwards is there by a step. -/
structure Records (view : View ι) (tally : Tally ι) (memo : Memo ι) (id : ι) (hoisted : Hoisted ι)
    (memo' : Memo ι) : Prop where
  grows : memo.Grows memo'
  known : memo'.lookup id = some hoisted
  within : ∀ key found, memo'.lookup key = some found →
    memo.lookup key = some found ∨ view.Reaches id key
  stepwise : view.Stepwise tally memo'

private theorem records_of_loop {depth : Nat} {refs : List ι}
    (each : ∀ ref ∈ refs, ∀ memo hoisted memo', view.Stepwise tally memo →
      view.hoistWithin tally depth ref memo = .ok (hoisted, memo') →
      view.Records tally memo ref hoisted memo')
    {gathered after : Gathered ι} {memo memo' : Memo ι} (stepwise : view.Stepwise tally memo)
    (run : refs.foldlM (fun (gathered, memo) operand => do
      let (hoisted, memo) ← view.hoistWithin tally depth operand memo
      return (← Gathered.add gathered operand hoisted, memo)) (gathered, memo) =
        .ok (after, memo')) :
    memo.Grows memo' ∧ view.Stepwise tally memo' ∧
      (∀ key found, memo'.lookup key = some found →
        memo.lookup key = some found ∨ ∃ ref ∈ refs, view.Reaches ref key) ∧
      ∃ entries : List (ι × Hoisted ι), entries.map Prod.fst = refs ∧
        (∀ entry ∈ entries, memo'.lookup entry.1 = some entry.2) ∧
        gathered.addAll entries = .ok after := by
  induction refs generalizing gathered memo with
  | nil =>
    obtain ⟨rfl, rfl⟩ := Prod.mk.inj (foldlM_nil_eq_ok_iff.mp run)
    exact ⟨.refl memo, stepwise, fun _ _ known => .inl known, [], rfl, by simp, rfl⟩
  | cons ref refs ih =>
    obtain ⟨here, others⟩ := List.forall_mem_cons.mp each
    obtain ⟨⟨gathered', between⟩, first, rest⟩ := foldlM_cons_eq_ok_iff.mp run
    obtain ⟨⟨hoisted, memo₁⟩, below, first⟩ := bind_eq_ok_iff.mp first
    obtain ⟨added, add, first⟩ := bind_eq_ok_iff.mp first
    obtain ⟨rfl, rfl⟩ := Prod.mk.inj (pure_eq_ok_iff.mp first)
    have records := here memo hoisted memo₁ stepwise below
    obtain ⟨grows, stepwise', within, entries, rfl, known, adds⟩ := ih others records.stepwise rest
    refine ⟨records.grows.trans grows, stepwise', ?_, (ref, hoisted) :: entries, rfl, ?_, ?_⟩
    · intro key found late
      rcases within key found late with early | ⟨other, member, reaches⟩
      · apply (records.within key found early).imp_right
        exact fun reaches => ⟨ref, List.mem_cons_self, reaches⟩
      · exact .inr ⟨other, List.mem_cons_of_mem ref member, reaches⟩
    · exact List.forall_mem_cons.mpr ⟨grows ref hoisted records.known, known⟩
    · exact Gathered.addAll_cons_eq_ok_iff.mpr ⟨added, add, adds⟩

private theorem records_cons {id : ι} {memo between : Memo ι} {multiplicity : Nat}
    {gathered : Gathered ι} {hoisted : Hoisted ι} (grows : memo.Grows between)
    (unknown : between.lookup id = none)
    (within : ∀ key found, between.lookup key = some found →
      memo.lookup key = some found ∨ view.Reaches id key)
    (stepwise : view.Stepwise tally between)
    (step : view.Step tally ((id, hoisted) :: between) id multiplicity gathered hoisted) :
    view.Records tally memo id hoisted ((id, hoisted) :: between) := by
  have grows' := Memo.grows_cons unknown hoisted
  refine ⟨grows.trans grows', step.known, fun key found lookup => ?_, fun key found lookup => ?_⟩
  · rcases Memo.lookup_cons_eq_some lookup with ⟨rfl, rfl⟩ | lookup
    · exact .inr (.refl key)
    · exact within key found lookup
  · rcases Memo.lookup_cons_eq_some lookup with ⟨rfl, rfl⟩ | lookup
    · exact ⟨multiplicity, gathered, step⟩
    · obtain ⟨m, g, earlier⟩ := stepwise key found lookup
      exact ⟨m, g, earlier.grows grows'⟩

/-- Hoisting from a founded node records its steps. -/
theorem Founded.records {depth : Nat} {id : ι} {memo memo' : Memo ι} {hoisted : Hoisted ι}
    (founded : view.Founded id) (stepwise : view.Stepwise tally memo)
    (run : view.hoistWithin tally depth id memo = .ok (hoisted, memo')) :
    view.Records tally memo id hoisted memo' := by
  induction depth generalizing id memo memo' hoisted with
  | zero => cases run
  | succ depth ih =>
    cases new : memo.lookup id with
    | some found =>
      rw [hoistWithin, new] at run
      obtain ⟨rfl, rfl⟩ := Prod.mk.inj (Except.ok.inj run)
      exact ⟨.refl memo, new, fun _ _ known => .inl known, stepwise⟩
    | none =>
      obtain ⟨found, _⟩ | ⟨multiplicity, refs, gathered, between, counted, operands,
          loop, close, rfl⟩ :=
        hoistWithin_succ_eq_ok run
      · rw [new] at found
        cases found
      have refs_eq := references_eq operands
      have each : ∀ ref ∈ refs, ∀ memo hoisted memo', view.Stepwise tally memo →
          view.hoistWithin tally depth ref memo = .ok (hoisted, memo') →
          view.Records tally memo ref hoisted memo' := by
        intro ref member memo hoisted memo' stepwise run
        exact ih (founded.of_reference (refs_eq ▸ member)) stepwise run
      obtain ⟨grows, stepwise', within, entries, rfl, known, adds⟩ :=
        records_of_loop each stepwise loop
      -- The node is not among what its operands have added, since nothing below it leads back to
      -- it.
      have unknown : between.lookup id = none := by
        rw [Option.eq_none_iff_forall_ne_some]
        intro found late
        rcases within id found late with early | ⟨ref, member, back⟩
        · rw [new] at early
          cases early
        · exact founded.not_reaches_back (refs_eq ▸ member) back
      have step : view.Step tally ((id, hoisted) :: between) id multiplicity gathered hoisted := by
        have grows' := Memo.grows_cons unknown hoisted
        refine ⟨?_, counted, ⟨entries, operands, fun entry member => ?_, adds⟩,
          Gathered.close_of_grows grows' close⟩
        · rw [List.lookup_cons, beq_self_eq_true]
        · exact grows' entry.1 entry.2 (known entry member)
      have reaches : ∀ key found, between.lookup key = some found →
          memo.lookup key = some found ∨ view.Reaches id key := by
        intro key found lookup
        apply (within key found lookup).imp_right
        rintro ⟨ref, member, reaches⟩
        exact (Reaches.of_reference (refs_eq ▸ member)).trans reaches
      exact records_cons grows unknown reaches stepwise' step

def Recurs (view : View ι) (tally : Tally ι) (id : ι) : Prop :=
  view.Nameable id ∧ ∃ n, tally.get? id = some n ∧ 1 < n

/-- A node that accounts for all occurrences of another one: it lies on every path to the other, and
its multiplicity is the number of paths that lead to itself. -/
structure Accounts (view : View ι) (tally : Tally ι) (root closer id : ι) : Prop where
  ne : closer ≠ id
  dominates : view.Dominates root closer id
  multiplicity_eq : view.multiplicity tally closer = .ok (view.paths root closer)

/-- The nearest of the nodes that account for all occurrences of another one: all of them lie on
every path to it. -/
structure AccountsNearest (view : View ι) (tally : Tally ι) (root closer id : ι) : Prop where
  accounts : view.Accounts tally root closer id
  nearest : ∀ other, view.Accounts tally root other id → view.Dominates root other closer

private theorem Counts.recurs_iff {id : ι} (counts : view.Counts tally root) :
    view.Recurs tally id ↔ view.Shared root id ∧ view.Reaches root id := by
  rw [Recurs, counts.get?_eq]
  constructor
  · rintro ⟨nameable, n, counted, more⟩
    rw [Option.ite_none_right_eq_some, Option.some.injEq] at counted
    exact ⟨⟨nameable, by omega⟩, counted.1.2⟩
  · rintro ⟨⟨nameable, more⟩, reached⟩
    exact ⟨nameable, view.paths root id, if_pos ⟨nameable, reached⟩, more⟩

private theorem Tallies.accounts_iff {closer id : ι} (tallies : view.Tallies tally root)
    (reached : view.Reaches root id) :
    view.Accounts tally root closer id ↔ view.Closes root closer id := by
  constructor
  · rintro ⟨ne, dominates, counted⟩
    rw [tallies.multiplicity_eq (dominates.reaches reached).1] at counted
    exact ⟨ne, dominates, Except.ok.inj counted⟩
  · rintro ⟨ne, dominates, same⟩
    refine ⟨ne, dominates, ?_⟩
    rw [tallies.multiplicity_eq (dominates.reaches reached).1, same]

theorem Tallies.accountsNearest_iff {id target : ι} (tallies : view.Tallies tally root)
    (reached : view.Reaches root id) (below : view.Reaches id target)
    (shared : view.Shared root target) :
    view.AccountsNearest tally root id target ↔
      view.OpenBelow root id target ∧ view.Closes root id target := by
  have founded := tallies.founded
  have accounts : ∀ closer, view.Accounts tally root closer target ↔
      view.Closes root closer target :=
    fun closer => tallies.accounts_iff (reached.trans below)
  constructor
  · rintro ⟨here, nearest⟩
    refine ⟨⟨shared, fun ref member closer reaches closes => ?_⟩, (accounts id).mp here⟩
    have up := (nearest closer ((accounts closer).mpr closes)).reaches reached
    exact (founded.of_reaches reached).not_reaches_back member (reaches.trans up.2)
  · rintro ⟨⟨_, first⟩, closes⟩
    refine ⟨(accounts id).mpr closes, fun other there => ?_⟩
    rcases Dominates.total founded (reached.trans below) there.dominates
      closes.dominates with up | down
    · exact up
    · -- A closer strictly below the node would have been the first.
      by_cases same : id = other
      · rw [same]
        exact dominates_self other
      · have reaches := (down.reaches (there.dominates.reaches (reached.trans below)).1).2
        obtain ⟨ref, member, between⟩ := (reaches_iff.mp reaches).resolve_left same
        exact absurd ((accounts other).mp there) (first ref member other between)

private theorem Counts.mem_coveredBy_iff {id target : ι} (counts : view.Counts tally root)
    (reached : view.Reaches root id) :
    target ∈ view.coveredBy root id ↔
      view.Recurs tally target ∧ view.AccountsNearest tally root id target := by
  have tallies := counts.tallies
  rw [(tallies.founded.of_reaches reached).mem_coveredBy, counts.recurs_iff]
  constructor
  · rintro ⟨below, first⟩
    have shared := first.1.1
    exact ⟨⟨shared, reached.trans below⟩,
      (tallies.accountsNearest_iff reached below shared).mpr first⟩
  · rintro ⟨⟨shared, there⟩, nearest⟩
    have below := (nearest.accounts.dominates.reaches there).2
    exact ⟨below, (tallies.accountsNearest_iff reached below shared).mp nearest⟩

/-- What is pending at a node, and what is bound there. -/
structure PendingExactly (view : View ι) (tally : Tally ι) (root id : ι) (multiplicity : Nat)
    (gathered : Gathered ι) (hoisted : Hoisted ι) : Prop where
  mem_pending_iff : ∀ target, target ∈ OrderedMap.keys hoisted.pending ↔ view.Recurs tally target ∧
    (target = id ∨ view.Reaches id target ∧
      ∀ closer, view.Reaches id closer → ¬view.Accounts tally root closer target)
  pending_eq : ∀ target n, OrderedMap.get? hoisted.pending target = some n →
    n = view.paths id target
  /-- The bindings around the node are of the identities found complete. -/
  complete_iff : ∃ complete, Hoisted.covered tally multiplicity gathered.pending = .ok complete ∧
    hoisted.node.head? = some id ∧ hoisted.node.chain = complete ∧ ∀ target, target ∈ complete ↔
      view.Recurs tally target ∧ view.AccountsNearest tally root id target
  /-- The test compares numbers of paths. -/
  test_iff : ∀ target n, OrderedMap.get? gathered.pending target = some n →
    n = view.paths id target ∧ ∃ total, tally.get? target = some total ∧
      (n * multiplicity = total ↔ view.AccountsNearest tally root id target)

open Classical in
private theorem Hoists.mem_pending_iff {id : ι} {hoisted : Hoisted ι}
    (hoists : view.Hoists root id hoisted) (counts : view.Counts tally root)
    (reached : view.Reaches root id) (target : ι) :
    target ∈ OrderedMap.keys hoisted.pending ↔ view.Recurs tally target ∧
      (target = id ∨ view.Reaches id target ∧
        ∀ closer, view.Reaches id closer → ¬view.Accounts tally root closer target) := by
  have tallies := counts.tallies
  have founded := tallies.founded.of_reaches reached
  rw [hoists.keys_pending, List.mem_filter, decide_eq_true_iff, founded.mem_postorder,
    counts.recurs_iff]
  constructor
  · rintro ⟨below, shared, unclosed⟩
    have there := reached.trans below
    refine ⟨⟨shared, there⟩, .inr ⟨below, fun closer reaches accounts => ?_⟩⟩
    exact unclosed closer reaches ((tallies.accounts_iff there).mp accounts)
  · rintro ⟨⟨shared, there⟩, rfl | ⟨below, unclosed⟩⟩
    · exact ⟨.refl target, (open_self_iff tallies.founded reached).mpr shared⟩
    · refine ⟨below, shared, fun closer reaches closes => ?_⟩
      exact unclosed closer reaches ((tallies.accounts_iff there).mpr closes)

private theorem Hoists.pending_eq {id : ι} {hoisted : Hoisted ι}
    (hoists : view.Hoists root id hoisted) {target : ι} {n : Nat}
    (found : OrderedMap.get? hoisted.pending target = some n) :
    n = view.paths id target := by
  classical
  have key := OrderedMap.mem_keys_iff.mpr ⟨n, found⟩
  rw [hoists.keys_pending, List.mem_filter, decide_eq_true_iff] at key
  rw [← hoists.pendingAt_eq target key.2, Hoisted.pendingAt, found]
  rfl

end View

private theorem Hoisted.chain_wrap {ι : Type} [DecidableEq ι] {memo : Memo ι} {id : ι}
    {operands : List (ι × SharedTree ι)} {complete : List ι} {result : SharedTree ι}
    (run : wrap memo (.plain id operands) complete = .ok result) : result.chain = complete := by
  induction complete generalizing result with
  | nil =>
    rw [wrap, pure_eq_ok_iff] at run
    rw [← run]
    rfl
  | cons key complete ih =>
    obtain ⟨body, inner, run⟩ := bind_eq_ok_iff.mp run
    obtain ⟨hoisted, _, run⟩ := bind_eq_ok_iff.mp run
    rw [pure_eq_ok_iff] at run
    rw [← run, SharedTree.chain, ih inner]

namespace View

variable {ι : Type} [DecidableEq ι] {view : View ι} {tally : Tally ι} {root : ι}

theorem Step.pendingExactly {memo : Memo ι} {id : ι} {multiplicity : Nat} {gathered : Gathered ι}
    {hoisted : Hoisted ι} (step : view.Step tally memo id multiplicity gathered hoisted)
    (counts : view.Counts tally root) (reached : view.Reaches root id)
    (remembers : view.Remembers root memo) :
    view.PendingExactly tally root id multiplicity gathered hoisted := by
  have tallies := counts.tallies
  have hoists := remembers.hoists id hoisted reached step.known
  obtain ⟨entries, operands, known, adds⟩ := step.gathers
  have refs := (references_eq operands).symm
  have each : ∀ entry ∈ entries, view.Hoists root entry.1 entry.2 := by
    intro entry member
    have ref : entry.1 ∈ view.references id := refs ▸ List.mem_map_of_mem member
    exact remembers.hoists entry.1 entry.2 (reached.trans (.of_reference ref)) (known entry member)
  obtain rfl : view.frequency root id = multiplicity :=
    Except.ok.inj ((tallies.multiplicity_eq reached).symm.trans step.multiplicity_eq)
  obtain ⟨complete, covered, wrapped, _⟩ := Gathered.close_eq_ok step.closes
  refine ⟨hoists.mem_pending_iff counts reached, fun target n => hoists.pending_eq,
    ⟨complete, covered, hoists.arranged.head?_eq, Hoisted.chain_wrap wrapped, fun target => ?_⟩,
    fun target n found => ?_⟩
  · rw [← Hoisted.chain_wrap wrapped, hoists.arranged.chain_eq]
    exact counts.mem_coveredBy_iff reached
  · obtain ⟨⟨below, ne⟩, isOpen, rfl⟩ := of_mem_gathered tallies.founded reached refs each adds
      (OrderedMap.mem_of_get? found)
    refine ⟨rfl, view.paths root target, tallies.get?_eq target isOpen.1.1 (reached.trans below),
      ?_⟩
    rw [mul_frequency_eq_iff tallies.founded reached below ne,
      tallies.accountsNearest_iff reached below isOpen.1]
    exact ⟨fun closes => ⟨isOpen, closes⟩, And.right⟩

/-- After hoisting from a root whose occurrences have been counted, the memo holds for every node
exactly what is still to be bound there, with exact numbers of paths. Trivial nodes may have
operands; they have multiplicity one and account for nothing unless a single path leads to them. -/
theorem pendingExactly_of_tally (lawful : ∀ id other, view.identify id = .ok other → other = id)
    (counted : view.tally root = .ok tally) :
    ∃ hoisted memo, view.hoist tally root = .ok (hoisted, memo) ∧
      ∀ id, view.Reaches root id → ∃ multiplicity gathered placed,
        view.Step tally memo id multiplicity gathered placed ∧
        view.PendingExactly tally root id multiplicity gathered placed := by
  obtain ⟨origin, identified, counts⟩ := counts_of_tally counted
  obtain rfl := lawful root origin identified
  have tallies := counts.tallies
  have nothing : view.Remembers origin [] := ⟨by simp, by simp⟩
  obtain ⟨hoisted, memo, hoist, advances⟩ :=
    tallies.exists_hoistWithin (fits_of_tally counted) (.refl origin) counts.height_le nothing
  have records := tallies.founded.records (by simp [Stepwise]) hoist
  refine ⟨hoisted, memo, hoist, fun id reached => ?_⟩
  obtain ⟨placed, known⟩ := advances.remembers.below origin hoisted advances.known id reached
  obtain ⟨multiplicity, gathered, step⟩ := records.stepwise id placed known
  exact ⟨multiplicity, gathered, placed, step,
    step.pendingExactly counts reached advances.remembers⟩

/-- The trivial node `1` lies on all eight paths to node `0`, but four paths lead to it and it
counts once; node `0` is pending there and bound at node `2`. -/
theorem pendingExactly_below_trivial :
    let table : Table := ⟨#[[], [0, 0], [1, 1], [2, 2], [3]], [1]⟩
    let tally : Tally Nat := ⟨[(4, 1), (3, 1), (2, 2), (0, 8)]⟩
    table.view.tally 4 = .ok tally ∧
      (table.view.hoist tally 4).map (fun result =>
        List.map (fun entry => (entry.1, entry.2.pending, entry.2.node.chain)) result.2) =
          .ok [(4, [], []), (3, [], [2]), (2, [(2, 1)], [0]), (1, [(0, 2)], []),
            (0, [(0, 1)], [])] ∧
      ∃ hoisted memo, table.view.hoist tally 4 = .ok (hoisted, memo) ∧
        ∀ id, table.view.Reaches 4 id → ∃ multiplicity gathered placed,
          table.view.Step tally memo id multiplicity gathered placed ∧
          table.view.PendingExactly tally 4 id multiplicity gathered placed := by
  intro table tally
  have consistent := Table.consistent_view table
  have counted : table.view.tally 4 = .ok tally := rfl
  exact ⟨counted, rfl, pendingExactly_of_tally (fun _ _ => consistent.identify_eq) counted⟩

end View
end SharingRecovery
