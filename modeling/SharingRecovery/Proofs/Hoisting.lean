import Mathlib.Algebra.Order.Ring.Nat
import SharingRecovery.Proofs.FirstSeen
import SharingRecovery.Proofs.Outcome
import SharingRecovery.SharedTree.Hoist

set_option autoImplicit false

/-!
What one step of hoisting does, and the induction over a whole run: what passes from the operands of
a node to the node holds of everything that is hoisted.
-/

namespace SharingRecovery

namespace Hoisted

variable {ι : Type} [DecidableEq ι]

def pendingAt (pending : OrderedMap ι Nat) (id : ι) : Nat :=
  (pending.get? id).getD 0

private theorem addPending_eq_ok {pending after : OrderedMap ι Nat} {entry : ι × Nat}
    (run : addPending pending entry = .ok after) :
    after = pending.insert entry.1 (pendingAt pending entry.1 + entry.2) := by
  obtain ⟨total, fits, run⟩ := bind_eq_ok_iff.mp run
  rw [pure_eq_ok_iff] at run
  obtain ⟨rfl, _⟩ := Word.checked_eq_some_iff.mp (Fault.require_eq_ok_iff.mp fits)
  exact run.symm

theorem addAllPending_eq_ok {more pending after : OrderedMap ι Nat}
    (run : more.foldlM addPending pending = .ok after) :
    OrderedMap.keys after = firstSeen (OrderedMap.keys pending) (OrderedMap.keys more) ∧
      ((OrderedMap.keys more).Nodup →
        ∀ id, pendingAt after id = pendingAt pending id + pendingAt more id) := by
  induction more generalizing pending with
  | nil =>
    rw [foldlM_nil_eq_ok_iff] at run
    subst run
    exact ⟨rfl, fun _ id => rfl⟩
  | cons entry more ih =>
    obtain ⟨key, n⟩ := entry
    obtain ⟨between, first, rest⟩ := foldlM_cons_eq_ok_iff.mp run
    obtain ⟨keys, values⟩ := ih rest
    rw [addPending_eq_ok first] at keys values
    rw [OrderedMap.keys_insert_eq] at keys
    refine ⟨keys, fun nodup id => ?_⟩
    obtain ⟨fresh, nodup⟩ := List.nodup_cons.mp nodup
    rw [values nodup id, pendingAt, OrderedMap.get?_insert]
    by_cases same : id = key
    · subst same
      have absent : pendingAt more id = 0 := by
        rw [pendingAt]
        cases found : OrderedMap.get? more id with
        | none => rfl
        | some n => exact absurd (OrderedMap.mem_keys_iff.mpr ⟨n, found⟩) fresh
      simp [pendingAt, OrderedMap.get?] at absent ⊢
      omega
    · have miss : (id == key) = false := by simp [same]
      simp [same, pendingAt, OrderedMap.get?, List.lookup_cons, miss]

theorem covered_eq_ok {tally : Tally ι} {multiplicity : Nat} {pending : OrderedMap ι Nat}
    {complete : List ι} (run : covered tally multiplicity pending = .ok complete) :
    (∀ entry ∈ pending, ∃ total, tally.get? entry.1 = some total ∧ entry.2 * multiplicity ≤ total) ∧
      complete = (pending.filter fun entry =>
        tally.get? entry.1 = some (entry.2 * multiplicity)).map Prod.fst := by
  induction pending generalizing complete with
  | nil =>
    rw [covered, pure_eq_ok_iff] at run
    exact ⟨by simp, run.symm⟩
  | cons entry pending ih =>
    obtain ⟨id, n⟩ := entry
    obtain ⟨isCovered, covers, run⟩ := bind_eq_ok_iff.mp run
    obtain ⟨others, rest, run⟩ := bind_eq_ok_iff.mp run
    rw [pure_eq_ok_iff] at run
    obtain ⟨each, rfl⟩ := ih rest
    obtain ⟨total, counted, covers⟩ := bind_eq_ok_iff.mp covers
    obtain ⟨reached, fits, covers⟩ := bind_eq_ok_iff.mp covers
    obtain ⟨rfl, _⟩ := Word.checked_eq_some_iff.mp (Fault.require_eq_ok_iff.mp fits)
    rw [Tally.count, Fault.require_eq_ok_iff] at counted
    split at covers
    · cases covers
    · rename_i enough
      rw [pure_eq_ok_iff] at covers
      refine ⟨List.forall_mem_cons.mpr ⟨⟨total, counted, by dsimp only; omega⟩, each⟩, ?_⟩
      subst run covers
      by_cases all : n * multiplicity = total
      · simp [counted, all]
      · simp [counted, all, Ne.symm all]

theorem keys_erase (pending : OrderedMap ι Nat) (complete : List ι) :
    OrderedMap.keys (complete.foldl OrderedMap.erase pending) =
      (OrderedMap.keys pending).filter (· ∉ complete) := by
  induction complete generalizing pending with
  | nil => simp
  | cons id complete ih =>
    have erased : OrderedMap.keys (OrderedMap.erase pending id) =
        (OrderedMap.keys pending).filter (· ≠ id) := by
      rw [OrderedMap.keys, OrderedMap.keys, List.filter_map]
      rfl
    rw [List.foldl_cons, ih, erased, List.filter_filter]
    exact List.filter_congr fun key _ => by simp [Bool.and_comm]

theorem pendingAt_erase (pending : OrderedMap ι Nat) {complete : List ι} {id : ι}
    (kept : id ∉ complete) :
    pendingAt (complete.foldl OrderedMap.erase pending) id = pendingAt pending id := by
  induction complete generalizing pending with
  | nil => rfl
  | cons other complete ih =>
    rw [List.mem_cons, not_or] at kept
    rw [List.foldl_cons, ih _ kept.2, pendingAt, OrderedMap.get?_erase _ kept.1, pendingAt]

end Hoisted

namespace Gathered

variable {ι : Type} [DecidableEq ι]

def addAll (gathered : Gathered ι) (entries : List (ι × Hoisted ι)) : Except Fault (Gathered ι) :=
  entries.foldlM (fun gathered entry => gathered.add entry.1 entry.2) gathered

theorem addAll_cons_eq_ok_iff {gathered after : Gathered ι} {entry : ι × Hoisted ι}
    {entries : List (ι × Hoisted ι)} : gathered.addAll (entry :: entries) = .ok after ↔
      ∃ between, gathered.add entry.1 entry.2 = .ok between ∧ between.addAll entries = .ok after :=
  foldlM_cons_eq_ok_iff

theorem add_eq_ok {gathered after : Gathered ι} {operand : ι} {hoisted : Hoisted ι}
    (run : gathered.add operand hoisted = .ok after) :
    after.operands = gathered.operands.insert operand hoisted.node ∧
      hoisted.pending.foldlM Hoisted.addPending gathered.pending = .ok after.pending := by
  obtain ⟨pending, added, run⟩ := bind_eq_ok_iff.mp run
  rw [pure_eq_ok_iff] at run
  subst run
  exact ⟨rfl, added⟩

theorem close_eq_ok {gathered : Gathered ι} {tally : Tally ι} {memo : Memo ι} {multiplicity : Nat}
    {id : ι} {hoisted : Hoisted ι}
    (run : gathered.close tally memo multiplicity id = .ok hoisted) :
    ∃ complete, Hoisted.covered tally multiplicity gathered.pending = .ok complete ∧
      Hoisted.wrap memo (.plain id gathered.operands) complete = .ok hoisted.node ∧
      hoisted.pending =
        if 1 < multiplicity then
          OrderedMap.insert (complete.foldl OrderedMap.erase gathered.pending) id 1
        else complete.foldl OrderedMap.erase gathered.pending := by
  obtain ⟨complete, found, run⟩ := bind_eq_ok_iff.mp run
  obtain ⟨node, wrapped, run⟩ := bind_eq_ok_iff.mp run
  rw [pure_eq_ok_iff] at run
  subst run
  exact ⟨complete, found, wrapped, rfl⟩

theorem mem_operands_of_addAll {gathered after : Gathered ι} {entries : List (ι × Hoisted ι)}
    (run : gathered.addAll entries = .ok after) {operand : ι × SharedTree ι}
    (member : operand ∈ after.operands) :
    operand ∈ gathered.operands ∨ ∃ entry ∈ entries, operand = (entry.1, entry.2.node) := by
  induction entries generalizing gathered with
  | nil =>
    rw [addAll, foldlM_nil_eq_ok_iff] at run
    exact .inl (run ▸ member)
  | cons entry entries ih =>
    obtain ⟨between, first, rest⟩ := addAll_cons_eq_ok_iff.mp run
    rcases ih rest with inside | ⟨other, inside, same⟩
    · rw [(add_eq_ok first).1] at inside
      rcases OrderedMap.mem_insert inside with inside | same
      · exact .inl inside
      · exact .inr ⟨entry, List.mem_cons_self, same⟩
    · exact .inr ⟨other, List.mem_cons_of_mem entry inside, same⟩

theorem keys_pending_of_addAll {gathered after : Gathered ι} {entries : List (ι × Hoisted ι)}
    (run : gathered.addAll entries = .ok after) :
    OrderedMap.keys after.pending = firstSeen (OrderedMap.keys gathered.pending)
      (entries.flatMap fun entry => OrderedMap.keys entry.2.pending) := by
  induction entries generalizing gathered with
  | nil =>
    rw [addAll, foldlM_nil_eq_ok_iff] at run
    rw [run]
    rfl
  | cons entry entries ih =>
    obtain ⟨between, first, rest⟩ := addAll_cons_eq_ok_iff.mp run
    rw [ih rest, (Hoisted.addAllPending_eq_ok (add_eq_ok first).2).1, List.flatMap_cons,
      firstSeen_append]

theorem pendingAt_of_addAll {gathered after : Gathered ι} {entries : List (ι × Hoisted ι)}
    (run : gathered.addAll entries = .ok after)
    (nodup : ∀ entry ∈ entries, (OrderedMap.keys entry.2.pending).Nodup) (id : ι) :
    Hoisted.pendingAt after.pending id = Hoisted.pendingAt gathered.pending id +
      (entries.map fun entry => Hoisted.pendingAt entry.2.pending id).sum := by
  induction entries generalizing gathered with
  | nil =>
    rw [addAll, foldlM_nil_eq_ok_iff] at run
    rw [run]
    rfl
  | cons entry entries ih =>
    obtain ⟨between, first, rest⟩ := addAll_cons_eq_ok_iff.mp run
    obtain ⟨nodup, others⟩ := List.forall_mem_cons.mp nodup
    rw [ih rest others, (Hoisted.addAllPending_eq_ok (add_eq_ok first).2).2 nodup, List.map_cons,
      List.sum_cons, Nat.add_assoc]

theorem keys_operands_of_addAll {gathered after : Gathered ι} {entries : List (ι × Hoisted ι)}
    (run : gathered.addAll entries = .ok after) :
    OrderedMap.keys after.operands =
      firstSeen (OrderedMap.keys gathered.operands) (entries.map Prod.fst) := by
  induction entries generalizing gathered with
  | nil =>
    rw [addAll, foldlM_nil_eq_ok_iff] at run
    rw [run]
    rfl
  | cons entry entries ih =>
    obtain ⟨between, first, rest⟩ := addAll_cons_eq_ok_iff.mp run
    rw [ih rest, (add_eq_ok first).1, OrderedMap.keys_insert_eq]
    rfl

end Gathered

theorem Memo.lookup_cons_eq_some {ι : Type} [DecidableEq ι] {memo : Memo ι} {id key : ι}
    {hoisted found : Hoisted ι} (lookup : List.lookup key ((id, hoisted) :: memo) = some found) :
    key = id ∧ found = hoisted ∨ memo.lookup key = some found := by
  rw [List.lookup_cons] at lookup
  split at lookup
  · rename_i same
    exact .inl ⟨beq_iff_eq.mp same, (Option.some.inj lookup).symm⟩
  · exact .inr lookup

namespace View

variable {ι : Type} [DecidableEq ι] {view : View ι} {tally : Tally ι}

theorem hoistWithin_succ_eq_ok {depth : Nat} {id : ι} {memo memo' : Memo ι} {hoisted : Hoisted ι}
    (run : view.hoistWithin tally (depth + 1) id memo = .ok (hoisted, memo')) :
    memo.lookup id = some hoisted ∧ memo' = memo ∨
      ∃ multiplicity refs gathered between,
        view.multiplicity tally id = .ok multiplicity ∧ view.operands id = .ok refs ∧
        refs.foldlM (fun (gathered, memo) operand => do
          let (hoisted, memo) ← view.hoistWithin tally depth operand memo
          return (← Gathered.add gathered operand hoisted, memo)) (Gathered.empty, memo) =
            .ok (gathered, between) ∧
        gathered.close tally between multiplicity id = .ok hoisted ∧
        memo' = (id, hoisted) :: between := by
  rw [hoistWithin] at run
  split at run
  · rename_i known found
    obtain ⟨rfl, rfl⟩ := Prod.mk.inj (Except.ok.inj run)
    exact .inl ⟨found, rfl⟩
  · obtain ⟨multiplicity, counted, run⟩ := bind_eq_ok_iff.mp run
    obtain ⟨refs, operands, run⟩ := bind_eq_ok_iff.mp run
    obtain ⟨⟨gathered, between⟩, loop, run⟩ := bind_eq_ok_iff.mp run
    obtain ⟨closed, close, run⟩ := bind_eq_ok_iff.mp run
    obtain ⟨rfl, rfl⟩ := Prod.mk.inj (pure_eq_ok_iff.mp run)
    exact .inr ⟨multiplicity, refs, gathered, between, counted, operands, loop, close, rfl⟩

/-- What holds of a node that is closed over operands of which it holds, with known nodes of which
it holds, holds of everything hoisted in a run that starts with nothing else. -/
theorem hoistWithin_induction {motive : ι → Hoisted ι → Prop}
    (step : ∀ (id : ι) (multiplicity : Nat) (entries : List (ι × Hoisted ι)) (gathered : Gathered ι)
      (memo : Memo ι) (hoisted : Hoisted ι), view.multiplicity tally id = .ok multiplicity →
      view.operands id = .ok (entries.map Prod.fst) → (∀ entry ∈ entries, motive entry.1 entry.2) →
      Gathered.empty.addAll entries = .ok gathered →
      (∀ known found, memo.lookup known = some found → motive known found) →
      gathered.close tally memo multiplicity id = .ok hoisted → motive id hoisted)
    {depth : Nat} {id : ι} {memo memo' : Memo ι} {hoisted : Hoisted ι}
    (run : view.hoistWithin tally depth id memo = .ok (hoisted, memo'))
    (start : ∀ known found, memo.lookup known = some found → motive known found) :
    motive id hoisted ∧ ∀ known found, memo'.lookup known = some found → motive known found := by
  induction depth generalizing id memo memo' hoisted with
  | zero => simp [hoistWithin] at run
  | succ depth ih =>
    -- The loop over the operands hoists one entry for each and keeps the memo in order.
    have loop : ∀ (refs : List ι) (gathered after : Gathered ι) (memo memo' : Memo ι),
        (∀ known found, memo.lookup known = some found → motive known found) →
        refs.foldlM (fun (gathered, memo) operand => do
          let (hoisted, memo) ← view.hoistWithin tally depth operand memo
          return (← Gathered.add gathered operand hoisted, memo)) (gathered, memo) =
            .ok (after, memo') →
        ∃ entries : List (ι × Hoisted ι), entries.map Prod.fst = refs ∧
          (∀ entry ∈ entries, motive entry.1 entry.2) ∧ gathered.addAll entries = .ok after ∧
          ∀ known found, memo'.lookup known = some found → motive known found := by
      intro refs
      induction refs with
      | nil =>
        intro gathered after memo memo' known run
        obtain ⟨rfl, rfl⟩ := Prod.mk.inj (foldlM_nil_eq_ok_iff.mp run)
        exact ⟨[], rfl, by simp, rfl, known⟩
      | cons ref refs more =>
        intro gathered after memo memo' known run
        obtain ⟨⟨gathered', between⟩, first, rest⟩ := foldlM_cons_eq_ok_iff.mp run
        obtain ⟨⟨hoisted, memo₁⟩, below, first⟩ := bind_eq_ok_iff.mp first
        obtain ⟨added, add, first⟩ := bind_eq_ok_iff.mp first
        obtain ⟨rfl, rfl⟩ := Prod.mk.inj (pure_eq_ok_iff.mp first)
        obtain ⟨here, known'⟩ := ih below known
        obtain ⟨entries, rfl, each, adds, known''⟩ := more _ _ _ _ known' rest
        refine ⟨(ref, hoisted) :: entries, rfl, List.forall_mem_cons.mpr ⟨here, each⟩, ?_, known''⟩
        exact Gathered.addAll_cons_eq_ok_iff.mpr ⟨added, add, adds⟩
    obtain ⟨found, rfl⟩ | ⟨multiplicity, refs, gathered, between, counted, operands,
        looped, close, rfl⟩ :=
      hoistWithin_succ_eq_ok run
    · exact ⟨start id hoisted found, start⟩
    · obtain ⟨entries, rfl, each, adds, known⟩ := loop refs _ _ _ _ start looped
      have here := step id multiplicity entries gathered between hoisted counted operands each adds
        known close
      refine ⟨here, fun other found lookup => ?_⟩
      rcases Memo.lookup_cons_eq_some lookup with ⟨rfl, rfl⟩ | lookup
      · exact here
      · exact known other found lookup

end View
end SharingRecovery
