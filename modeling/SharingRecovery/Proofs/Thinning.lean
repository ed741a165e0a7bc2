import SharingRecovery.Proofs.Outcome
import SharingRecovery.Proofs.Subtrees
import SharingRecovery.SharedTree.Thin
import SharingRecovery.View.Table

set_option autoImplicit false

/-!
What one step of thinning out does, and what follows for any tree: the identities it reports are
those that are free in the result, and every binding it leaves is used.
-/

namespace SharingRecovery.SharedTree

variable {ι : Type} [DecidableEq ι] {view : View ι} {tally : Tally ι}

/-- An operand in a scope of the given multiplicity, what it becomes, and what is free in that: a
variable if it occurs more often than the scope, else the operand thinned out. -/
def OperandThins (view : View ι) (tally : Tally ι) (outer : Nat) (entry : ι × SharedTree ι)
    (result : (ι × SharedTree ι) × List ι) : Prop :=
  result.1.1 = entry.1 ∧ ∃ multiplicity, view.multiplicity tally entry.1 = .ok multiplicity ∧
    (outer < multiplicity ∧ result.1.2 = .var entry.1 ∧ result.2 = [entry.1] ∨
      multiplicity ≤ outer ∧ entry.2.thin view tally (some outer) = .ok (result.1.2, result.2))

theorem thin_var_eq_ok {context : Option Nat} {id : ι} {tree : SharedTree ι} {live : List ι}
    (run : (var id).thin view tally context = .ok (tree, live)) : tree = .var id ∧ live = [id] := by
  rw [thin, pure_eq_ok_iff] at run
  exact ⟨(Prod.mk.inj run).1.symm, (Prod.mk.inj run).2.symm⟩

theorem thin_bind_eq_ok {context : Option Nat} {id : ι} {bound body tree : SharedTree ι}
    {live : List ι} (run : (bind id bound body).thin view tally context = .ok (tree, live)) :
    ∃ body' bodyLive, body.thin view tally context = .ok (body', bodyLive) ∧
      (id ∈ bodyLive ∧ (∃ bound' boundLive, bound.thin view tally none = .ok (bound', boundLive) ∧
          tree = .bind id bound' body' ∧ live = bodyLive.filter (· ≠ id) ++ boundLive) ∨
        id ∉ bodyLive ∧ tree = body' ∧ live = bodyLive) := by
  rw [thin] at run
  obtain ⟨⟨body', bodyLive⟩, inner, run⟩ := bind_eq_ok_iff.mp run
  refine ⟨body', bodyLive, inner, ?_⟩
  dsimp only at run
  split at run
  · rename_i used
    obtain ⟨⟨bound', boundLive⟩, outer, run⟩ := bind_eq_ok_iff.mp run
    obtain ⟨rfl, rfl⟩ := Prod.mk.inj (pure_eq_ok_iff.mp run)
    exact .inl ⟨used, bound', boundLive, outer, rfl, rfl⟩
  · rename_i unused
    obtain ⟨rfl, rfl⟩ := Prod.mk.inj (pure_eq_ok_iff.mp run)
    exact .inr ⟨unused, rfl, rfl⟩

private theorem thinOperands_eq_ok {outer : Nat} {operands operands' : List (ι × SharedTree ι)}
    {live : List ι} (run : thinOperands view tally outer operands = .ok (operands', live)) :
    ∃ results : List ((ι × SharedTree ι) × List ι), operands' = results.map Prod.fst ∧
      live = results.flatMap Prod.snd ∧
      List.Forall₂ (OperandThins view tally outer) operands results := by
  induction operands generalizing operands' live with
  | nil =>
    rw [thinOperands, pure_eq_ok_iff] at run
    obtain ⟨rfl, rfl⟩ := Prod.mk.inj run
    exact ⟨[], rfl, rfl, .nil⟩
  | cons entry operands ih =>
    obtain ⟨id, operand⟩ := entry
    rw [thinOperands] at run
    obtain ⟨multiplicity, counted, run⟩ := bind_eq_ok_iff.mp run
    dsimp only at run
    split at run
    · rename_i more
      obtain ⟨⟨operand', operandLive⟩, first, run⟩ := bind_eq_ok_iff.mp run
      obtain ⟨⟨rest, restLive⟩, others, run⟩ := bind_eq_ok_iff.mp run
      obtain ⟨rfl, rfl⟩ := Prod.mk.inj (pure_eq_ok_iff.mp run)
      obtain ⟨rfl, rfl⟩ := Prod.mk.inj (pure_eq_ok_iff.mp first)
      obtain ⟨results, rfl, rfl, related⟩ := ih others
      exact ⟨((id, .var id), [id]) :: results, rfl, rfl,
        .cons ⟨rfl, multiplicity, counted, .inl ⟨more, rfl, rfl⟩⟩ related⟩
    · rename_i fewer
      obtain ⟨⟨operand', operandLive⟩, first, run⟩ := bind_eq_ok_iff.mp run
      obtain ⟨⟨rest, restLive⟩, others, run⟩ := bind_eq_ok_iff.mp run
      obtain ⟨rfl, rfl⟩ := Prod.mk.inj (pure_eq_ok_iff.mp run)
      obtain ⟨results, rfl, rfl, related⟩ := ih others
      exact ⟨((id, operand'), operandLive) :: results, rfl, rfl,
        .cons ⟨rfl, multiplicity, counted, .inr ⟨Nat.le_of_not_lt fewer, first⟩⟩ related⟩

theorem thin_plain_eq_ok {context : Option Nat} {id : ι} {operands : List (ι × SharedTree ι)}
    {tree : SharedTree ι} {live : List ι}
    (run : (plain id operands).thin view tally context = .ok (tree, live)) :
    ∃ outer results, (context = some outer ∨
        context = none ∧ view.multiplicity tally id = .ok outer) ∧
      tree = .plain id (results.map Prod.fst) ∧ live = results.flatMap Prod.snd ∧
      List.Forall₂ (OperandThins view tally outer) operands results := by
  obtain ⟨outer, start, run⟩ : ∃ outer, (context = some outer ∨
      context = none ∧ view.multiplicity tally id = .ok outer) ∧
      (thinOperands view tally outer operands >>= fun result =>
        pure (.plain id result.1, result.2)) = .ok (tree, live) := by
    cases context with
    | some outer =>
      rw [thin] at run
      exact ⟨outer, .inl rfl, run⟩
    | none =>
      rw [thin] at run
      obtain ⟨outer, counted, run⟩ := bind_eq_ok_iff.mp run
      exact ⟨outer, .inr ⟨rfl, counted⟩, run⟩
  obtain ⟨result, inner, run⟩ := bind_eq_ok_iff.mp run
  obtain ⟨rfl, rfl⟩ := Prod.mk.inj (pure_eq_ok_iff.mp run)
  obtain ⟨results, same, same', related⟩ := thinOperands_eq_ok inner
  exact ⟨outer, results, start, by rw [same], same', related⟩

theorem keys_results {outer : Nat} {operands : List (ι × SharedTree ι)}
    {results : List ((ι × SharedTree ι) × List ι)}
    (related : List.Forall₂ (OperandThins view tally outer) operands results) :
    OrderedMap.keys (results.map Prod.fst) = OrderedMap.keys operands := by
  induction related with
  | nil => rfl
  | cons first _ ih =>
    simp only [OrderedMap.keys, List.map_cons, List.cons.injEq] at ih ⊢
    exact ⟨first.1, ih⟩

theorem mem_live_iff {context : Option Nat} {tree result : SharedTree ι} {live : List ι}
    (run : tree.thin view tally context = .ok (result, live)) (id : ι) :
    id ∈ live ↔ id ∈ result.free := by
  induction tree generalizing context result live with
  | var other =>
    obtain ⟨rfl, rfl⟩ := thin_var_eq_ok run
    simp
  | bind other bound body ihBound ihBody =>
    obtain ⟨body', bodyLive, inner, ⟨_, bound', boundLive, outer, rfl, rfl⟩ | ⟨_, rfl, rfl⟩⟩ :=
      thin_bind_eq_ok run
    · rw [mem_free_bind, ← ihBound outer, ← ihBody inner]
      simp [or_comm]
    · exact ihBody inner
  | plain other operands ih =>
    obtain ⟨outer, results, _, rfl, rfl, related⟩ := thin_plain_eq_ok run
    have each : ∀ result ∈ results, (id ∈ result.2 ↔ id ∈ result.1.2.free) := by
      intro result member
      obtain ⟨entry, inside, _, _, _, ⟨_, same, same'⟩ | ⟨_, thinned⟩⟩ :=
        exists_left_of_mem related member
      · simp [same, same']
      · exact ih entry inside thinned
    rw [mem_free_plain, List.mem_flatMap]
    constructor
    · rintro ⟨result, member, inside⟩
      exact ⟨result.1, List.mem_map_of_mem member, (each result member).mp inside⟩
    · rintro ⟨_, kept, inside⟩
      obtain ⟨result, member, rfl⟩ := List.mem_map.mp kept
      exact ⟨result, member, (each result member).mpr inside⟩

theorem mem_free_of_binding {context : Option Nat} {tree result : SharedTree ι} {live : List ι}
    (run : tree.thin view tally context = .ok (result, live)) {id : ι} {bound body : SharedTree ι}
    (binding : bind id bound body ∈ result.subtrees) : id ∈ body.free := by
  induction tree generalizing context result live with
  | var other =>
    obtain ⟨rfl, rfl⟩ := thin_var_eq_ok run
    simp [subtrees] at binding
  | bind other bound₀ body₀ ihBound ihBody =>
    obtain ⟨body', bodyLive, inner, ⟨used, bound', boundLive, outer, rfl, rfl⟩ | ⟨_, rfl, rfl⟩⟩ :=
      thin_bind_eq_ok run
    · simp only [subtrees, List.mem_cons, List.mem_append] at binding
      rcases binding with same | inside | inside
      · obtain ⟨rfl, rfl, rfl⟩ := bind.inj same
        exact (mem_live_iff inner id).mp used
      · exact ihBound outer inside
      · exact ihBody inner inside
    · exact ihBody inner binding
  | plain other operands ih =>
    obtain ⟨outer, results, _, rfl, rfl, related⟩ := thin_plain_eq_ok run
    simp only [subtrees_plain, List.mem_cons, reduceCtorEq, false_or, List.mem_flatMap] at binding
    obtain ⟨_, kept, binding⟩ := binding
    obtain ⟨result, member, rfl⟩ := List.mem_map.mp kept
    obtain ⟨entry, inside, _, _, _, ⟨_, same, _⟩ | ⟨_, thinned⟩⟩ :=
      exists_left_of_mem related member
    · simp [same, subtrees] at binding
    · exact ih entry inside thinned binding

private theorem mem_free_bind_of_unused {id other : ι} {bound body : SharedTree ι}
    (unused : id ∉ body.free) :
    other ∈ (bind id bound body).free ↔ other ∈ bound.free ∨ other ∈ body.free := by
  rw [mem_free_bind]
  constructor
  · exact Or.imp_right And.left
  · apply Or.imp_right
    intro inside
    refine ⟨inside, ?_⟩
    rintro rfl
    exact unused inside

/-- Thinning out any tree, with any tally and in any context, lists exactly what is free in the
result and leaves only bindings that are used. A binding goes if what is left of its body does not
use it, and what is free in that stays as it is: whatever the bound tree was, only its own free
identities go. -/
theorem thin_lists_free {context : Option Nat} {tree result : SharedTree ι} {live : List ι}
    (run : tree.thin view tally context = .ok (result, live)) :
    (∀ id, id ∈ live ↔ id ∈ result.free) ∧
    (∀ id bound body, bind id bound body ∈ result.subtrees → id ∈ body.free) ∧
    ∀ id bound body, tree = .bind id bound body → ∃ kept keptLive,
      body.thin view tally context = .ok (kept, keptLive) ∧
      (id ∈ kept.free → ∃ bound', result = .bind id bound' kept) ∧
      (id ∉ kept.free → result = kept ∧ ∀ bound' other,
        other ∈ (bind id bound' kept).free ↔ other ∈ bound'.free ∨ other ∈ live) := by
  refine ⟨mem_live_iff run, fun id bound body => mem_free_of_binding run, ?_⟩
  rintro id bound body rfl
  obtain ⟨kept, keptLive, inner, outcome⟩ := thin_bind_eq_ok run
  have reported := mem_live_iff inner
  refine ⟨kept, keptLive, inner, fun used => ?_, fun unused => ?_⟩
  · rcases outcome with ⟨_, bound', _, _, same, _⟩ | ⟨dead, _, _⟩
    · exact ⟨bound', same⟩
    · exact absurd ((reported id).mpr used) dead
  · rcases outcome with ⟨alive, _⟩ | ⟨_, rfl, rfl⟩
    · exact absurd ((reported id).mp alive) unused
    · refine ⟨rfl, fun bound' other => ?_⟩
      rw [mem_free_bind_of_unused unused, reported]

/-- Identity `1` is bound twice and free both in the inner and in the outer bound tree; the binding
of `2` is not used and goes, and with it the variable `6`. -/
theorem thin_lists_free_shadowed :
    let table : Table := ⟨#[[], [], [1, 4], [1, 2], []], []⟩
    let tally : Tally Nat := ⟨[(1, 2), (2, 1), (4, 1)]⟩
    let inner : SharedTree Nat := .plain 2 [(1, .var 1), (4, .var 5)]
    let tree : SharedTree Nat := .bind 1 (.var 1) (.bind 1 inner
      (.plain 3 [(1, .plain 1 []), (2, .bind 2 (.var 6) (.var 7))]))
    let result : SharedTree Nat :=
      .bind 1 (.var 1) (.bind 1 inner (.plain 3 [(1, .var 1), (2, .var 7)]))
    tree.thin table.view tally (some 1) = .ok (result, [7, 5, 1]) ∧
      (∀ id, id ∈ [7, 5, 1] ↔ id ∈ result.free) ∧
      (∀ id bound body, bind id bound body ∈ result.subtrees → id ∈ body.free) ∧
      ∀ id bound body, tree = .bind id bound body → ∃ kept keptLive,
        body.thin table.view tally (some 1) = .ok (kept, keptLive) ∧
        (id ∈ kept.free → ∃ bound', result = .bind id bound' kept) ∧
        (id ∉ kept.free → result = kept ∧ ∀ bound' other,
          other ∈ (bind id bound' kept).free ↔ other ∈ bound'.free ∨ other ∈ [7, 5, 1]) :=
  ⟨rfl, thin_lists_free rfl⟩

end SharingRecovery.SharedTree
