import SharingRecovery.Proofs.Completion
import SharingRecovery.Proofs.Expansion
import SharingRecovery.Proofs.Recovered

set_option autoImplicit false

/-!
Which trees thinning out visits, and in which context. The context is set at the root and at the
start of each bound tree and is handed on from there; in a graph whose trivial nodes are leaves it
is the number of occurrences of every plain node that it is handed on to.
-/

namespace SharingRecovery

namespace SharedTree

variable {ι : Type} [DecidableEq ι] {view : View ι} {tally : Tally ι}

/-- The multiplicity in force at a plain node: that of the scope it is in, or its own if it starts
one. -/
def scope (view : View ι) (tally : Tally ι) (context : Option Nat) (id : ι) : Except Fault Nat :=
  match context with
  | some outer => .ok outer
  | none => view.multiplicity tally id

def Enters (view : View ι) (tally : Tally ι) (outer : Nat) (id : ι) : Prop :=
  ∃ n, view.multiplicity tally id = .ok n ∧ n ≤ outer

/-- To thin out a tree in a context, another one is thinned out first: the body of a binding in the
same context, the bound tree in a context of its own if the body uses it, and the operands that are
entered in the scope of their node. -/
inductive Calls (view : View ι) (tally : Tally ι) :
    Option Nat × SharedTree ι → Option Nat × SharedTree ι → Prop
  | body {context : Option Nat} {id : ι} {bound body : SharedTree ι} :
      Calls view tally (context, .bind id bound body) (context, body)
  | bound {context : Option Nat} {id : ι} {bound body kept : SharedTree ι} {live : List ι} :
      body.thin view tally context = .ok (kept, live) → id ∈ live →
      Calls view tally (context, .bind id bound body) (none, bound)
  | operand {context : Option Nat} {id : ι} {operands : List (ι × SharedTree ι)} {outer : Nat}
      {entry : ι × SharedTree ι} : scope view tally context id = .ok outer → entry ∈ operands →
      Enters view tally outer entry.1 →
      Calls view tally (context, .plain id operands) (some outer, entry.2)

def Visits (view : View ι) (tally : Tally ι) :
    Option Nat × SharedTree ι → Option Nat × SharedTree ι → Prop :=
  Relation.ReflTransGen (Calls view tally)

private theorem scope_eq_ok_iff {context : Option Nat} {id : ι} {outer : Nat} :
    scope view tally context id = .ok outer ↔
      context = some outer ∨ context = none ∧ view.multiplicity tally id = .ok outer := by
  cases context with
  | none => simp [scope]
  | some n => simp [scope]

private theorem OperandThins.of_enters {outer : Nat} {entry : ι × SharedTree ι}
    {result : (ι × SharedTree ι) × List ι} (thins : OperandThins view tally outer entry result)
    (enters : Enters view tally outer entry.1) :
    entry.2.thin view tally (some outer) = .ok (result.1.2, result.2) := by
  obtain ⟨n, counted, few⟩ := enters
  obtain ⟨_, multiplicity, counted', ⟨many, _⟩ | ⟨_, thinned⟩⟩ := thins
  · obtain rfl := Except.ok.inj (counted.symm.trans counted')
    omega
  · exact thinned

private theorem Calls.exists_part {context context' : Option Nat} {tree tree' result : SharedTree ι}
    {live : List ι} (calls : Calls view tally (context, tree) (context', tree'))
    (run : tree.thin view tally context = .ok (result, live)) :
    ∃ part partLive, tree'.thin view tally context' = .ok (part, partLive) ∧
      part ∈ result.subtrees := by
  cases calls with
  | body =>
    obtain ⟨kept, keptLive, inner, outcome⟩ := thin_bind_eq_ok run
    refine ⟨kept, keptLive, inner, ?_⟩
    rcases outcome with ⟨_, bound', _, _, rfl, _⟩ | ⟨_, rfl, _⟩
    · rw [subtrees]
      exact List.mem_cons_of_mem _ (List.mem_append_right _ (mem_subtrees_self kept))
    · exact mem_subtrees_self result
  | bound inner used =>
    obtain ⟨kept, keptLive, inner', outcome⟩ := thin_bind_eq_ok run
    obtain ⟨rfl, rfl⟩ := Prod.mk.inj (Except.ok.inj (inner.symm.trans inner'))
    rcases outcome with ⟨_, bound', boundLive, outer, rfl, _⟩ | ⟨unused, _, _⟩
    · refine ⟨bound', boundLive, outer, ?_⟩
      rw [subtrees]
      exact List.mem_cons_of_mem _ (List.mem_append_left _ (mem_subtrees_self bound'))
    · exact absurd used unused
  | @operand _ id _ outer entry inForce member enters =>
    obtain ⟨outer', results, start, rfl, _, related⟩ := thin_plain_eq_ok run
    obtain rfl : outer = outer' :=
      Except.ok.inj (inForce.symm.trans (scope_eq_ok_iff.mpr start))
    obtain ⟨result, inside, thins⟩ := exists_right_of_mem related member
    refine ⟨result.1.2, result.2, thins.of_enters enters, ?_⟩
    rw [subtrees_plain, List.mem_cons, List.mem_flatMap]
    exact .inr ⟨result.1, List.mem_map_of_mem inside, mem_subtrees_self _⟩

private theorem Visits.exists_part {call call' : Option Nat × SharedTree ι} {result : SharedTree ι}
    {live : List ι} (visits : Visits view tally call call')
    (run : call.2.thin view tally call.1 = .ok (result, live)) :
    ∃ part partLive, call'.2.thin view tally call'.1 = .ok (part, partLive) ∧
      part ∈ result.subtrees := by
  induction visits with
  | refl => exact ⟨result, live, run, mem_subtrees_self result⟩
  | tail _ calls ih =>
    obtain ⟨middle, middleLive, run', above⟩ := ih
    obtain ⟨part, partLive, thinned, inside⟩ := calls.exists_part run'
    exact ⟨part, partLive, thinned, (subtrees_sublist above).subset inside⟩

private theorem exists_visit_of_plain {context : Option Nat} {tree result : SharedTree ι}
    {live : List ι} (run : tree.thin view tally context = .ok (result, live)) {id : ι}
    {results : List (ι × SharedTree ι)} (member : .plain id results ∈ result.subtrees) :
    ∃ context' operands live', Visits view tally (context, tree) (context', .plain id operands) ∧
      (plain id operands).thin view tally context' = .ok (.plain id results, live') := by
  induction tree generalizing context result live with
  | var other =>
    obtain ⟨rfl, rfl⟩ := thin_var_eq_ok run
    simp [subtrees] at member
  | bind other bound body ihBound ihBody =>
    obtain ⟨kept, keptLive, inner, ⟨used, bound', boundLive, outer, rfl, _⟩ | ⟨_, rfl, _⟩⟩ :=
      thin_bind_eq_ok run
    · simp only [subtrees, List.mem_cons, reduceCtorEq, false_or, List.mem_append] at member
      rcases member with inside | inside
      · obtain ⟨context', operands, live', visits, thinned⟩ := ihBound outer inside
        exact ⟨context', operands, live', .head (.bound inner used) visits, thinned⟩
      · obtain ⟨context', operands, live', visits, thinned⟩ := ihBody inner inside
        exact ⟨context', operands, live', .head .body visits, thinned⟩
    · obtain ⟨context', operands, live', visits, thinned⟩ := ihBody inner member
      exact ⟨context', operands, live', .head .body visits, thinned⟩
  | plain other operands ih =>
    obtain ⟨outer, outcomes, start, rfl, rfl, related⟩ := thin_plain_eq_ok run
    rw [subtrees_plain, List.mem_cons, List.mem_flatMap] at member
    rcases member with same | ⟨_, kept, inside⟩
    · obtain ⟨rfl, rfl⟩ := plain.inj same
      exact ⟨context, operands, _, .refl, run⟩
    · obtain ⟨outcome, among, rfl⟩ := List.mem_map.mp kept
      obtain ⟨entry, operand, _, multiplicity, counted, ⟨_, same, _⟩ | ⟨few, thinned⟩⟩ :=
        exists_left_of_mem related among
      · simp [same, subtrees] at inside
      · obtain ⟨context', operands', live', visits, thinned'⟩ := ih entry operand thinned inside
        have calls : Calls view tally (context, .plain other operands) (some outer, entry.2) :=
          .operand (scope_eq_ok_iff.mpr start) operand ⟨multiplicity, counted, few⟩
        exact ⟨context', operands', live', .head calls visits, thinned'⟩

/-- The plain nodes of the result are the results of the plain nodes that are visited. -/
theorem plain_mem_subtrees_iff {context : Option Nat} {tree result : SharedTree ι} {live : List ι}
    (run : tree.thin view tally context = .ok (result, live)) {id : ι}
    {results : List (ι × SharedTree ι)} :
    .plain id results ∈ result.subtrees ↔ ∃ context' operands live',
      Visits view tally (context, tree) (context', .plain id operands) ∧
        (plain id operands).thin view tally context' = .ok (.plain id results, live') := by
  refine ⟨exists_visit_of_plain run, ?_⟩
  rintro ⟨context', operands, live', visits, thinned⟩
  obtain ⟨part, _, thinned', inside⟩ := visits.exists_part run
  obtain ⟨rfl, _⟩ := Prod.mk.inj (Except.ok.inj (thinned.symm.trans thinned'))
  exact inside

/-- A hoisted tree, or what is inside its outer bindings, of a node that the root reaches, in a
context that is unset or the number of paths to the node. -/
structure Attuned (view : View ι) (root : ι) (call : Option Nat × SharedTree ι) (id : ι)
    (ids : List ι) : Prop where
  arranged : call.2.Arranged view (view.coveredBy root) (fun _ => False) id ids
  reached : view.Reaches root id
  suffix : ids <:+ view.coveredBy root id
  context_eq : ∀ outer, call.1 = some outer → view.Nameable id → outer = view.paths root id

end SharedTree

namespace View

open SharedTree

variable {ι : Type} [DecidableEq ι] {view : View ι} {tally : Tally ι} {root : ι}

private theorem Tallies.count_eq (tallies : view.Tallies tally root) {id : ι}
    (nameable : view.Nameable id) (reached : view.Reaches root id) :
    tally.count id = .ok (view.paths root id) :=
  Fault.require_eq_ok_iff.mpr (tallies.get?_eq id nameable reached)

private theorem Tallies.scope_eq (tallies : view.Tallies tally root) {context : Option Nat} {id : ι}
    {operands : List (ι × SharedTree ι)} {ids : List ι}
    (attuned : Attuned view root (context, .plain id operands) id ids)
    (nameable : view.Nameable id) : scope view tally context id = .ok (view.paths root id) := by
  cases context with
  | none => rw [scope, tallies.multiplicity_eq attuned.reached, nameable.frequency_eq]
  | some outer => rw [scope, attuned.context_eq outer rfl nameable]

section Leaves

variable (leaves : view.TrivialLeaves) (tallies : view.Tallies tally root)
include leaves tallies

omit leaves in
private theorem paths_eq_of_enters {id ref : ι} (reached : view.Reaches root id)
    (member : ref ∈ view.references id) (nameable : view.Nameable ref)
    (enters : Enters view tally (view.paths root id) ref) :
    view.paths root id = view.paths root ref := by
  obtain ⟨n, counted, few⟩ := enters
  rw [tallies.multiplicity_eq (reached.trans (.of_reference member)),
    nameable.frequency_eq] at counted
  have same := Except.ok.inj counted
  have atMost := (tallies.founded.paths_reference reached member).1
  omega

theorem Attuned.calls {call call' : Option Nat × SharedTree ι} {id : ι} {ids : List ι}
    (attuned : Attuned view root call id ids) (calls : Calls view tally call call') :
    ∃ id' ids', Attuned view root call' id' ids' := by
  obtain ⟨arranged, reached, suffix, context_eq⟩ := attuned
  cases calls with
  | @body _ target _ _ =>
    cases arranged with
    | @bind _ _ rest _ _ _ inner =>
      exact ⟨id, rest, inner, reached, (List.suffix_cons target rest).trans suffix, context_eq⟩
  | @bound _ target _ _ _ _ _ _ =>
    cases arranged with
    | bind outer _ =>
      have covered := suffix.subset List.mem_cons_self
      have there := ((mem_coveredBy_iff leaves tallies reached).mp covered).2.1
      exact ⟨target, view.coveredBy root target, outer, there, List.suffix_refl _, by simp⟩
  | @operand context _ operands outer entry inForce member enters =>
    have whole := arranged
    cases arranged with
    | plain keys _ below =>
      have key : entry.1 ∈ OrderedMap.keys operands := List.mem_map_of_mem member
      rw [keys, mem_firstSeen] at key
      have ref := key.resolve_left List.not_mem_nil
      have nameable := nameable_of_reference leaves tallies reached ref
      have own := tallies.scope_eq ⟨whole, reached, suffix, context_eq⟩ nameable
      obtain rfl : outer = view.paths root id := Except.ok.inj (inForce.symm.trans own)
      refine ⟨entry.1, view.coveredBy root entry.1, below entry member not_false,
        reached.trans (.of_reference ref), List.suffix_refl _, ?_⟩
      rintro _ ⟨⟩ nameable'
      exact paths_eq_of_enters tallies reached ref nameable' enters

theorem Attuned.visits {call call' : Option Nat × SharedTree ι} {id : ι} {ids : List ι}
    (attuned : Attuned view root call id ids) (visits : Visits view tally call call') :
    ∃ id' ids', Attuned view root call' id' ids' := by
  induction visits with
  | refl => exact ⟨id, ids, attuned⟩
  | tail _ calls ih =>
    obtain ⟨_, _, middle⟩ := ih
    exact Attuned.calls leaves tallies middle calls

end Leaves

end View

namespace SharedTree

variable {ι : Type} [DecidableEq ι]

/-- A plain node is thinned out in a scope of its own number of occurrences. So an operand becomes a
variable exactly if there are several references to it, and is entered only if it occurs as often.
-/
structure InOwnScope (view : View ι) (tally : Tally ι) (root : ι) (context : Option Nat) (id : ι)
    (operands : List (ι × SharedTree ι)) : Prop where
  scope_eq : ∃ n, tally.count id = .ok n ∧ scope view tally context id = .ok n
  becomes_var_iff : ∃ results live,
    (plain id operands).thin view tally context = .ok (.plain id results, live) ∧
    ∀ ref ∈ view.references id, view.Nameable ref →
      (OrderedMap.get? results ref = some (.var ref) ↔ (view.referencesTo root ref).Nontrivial)
  count_eq_of_enters : ∀ outer, scope view tally context id = .ok outer → ∀ entry ∈ operands,
    view.Nameable entry.1 → Enters view tally outer entry.1 → tally.count entry.1 = tally.count id

end SharedTree

namespace View

open SharedTree

variable {ι : Type} [DecidableEq ι] {view : View ι} {tally : Tally ι} {root : ι}

private theorem get?_eq_var_iff {id ref : ι} {results : List (ι × SharedTree ι)} {ids : List ι}
    (arranged : (plain id results).Arranged view (view.boundAt root) (view.Named root) id ids)
    (member : ref ∈ view.references id) :
    OrderedMap.get? results ref = some (.var ref) ↔ view.Named root ref := by
  cases arranged with
  | plain keys withName below =>
    have nodup : (OrderedMap.keys results).Nodup := keys ▸ nodup_firstSeen List.nodup_nil _
    have key : ref ∈ OrderedMap.keys results := keys ▸ mem_firstSeen.mpr (.inr member)
    obtain ⟨entry, inside, rfl⟩ := List.mem_map.mp key
    rw [OrderedMap.get?_of_mem nodup inside, Option.some.injEq]
    constructor
    · intro isVar
      by_contra unnamed
      have head := (below entry inside unnamed).head?_eq
      rw [isVar] at head
      cases head
    · exact withName entry inside

private theorem inOwnScope_of_attuned (leaves : view.TrivialLeaves)
    (tallies : view.Tallies tally root) {context : Option Nat} {id id' : ι}
    {operands : List (ι × SharedTree ι)} {ids : List ι}
    (attuned : Attuned view root (context, .plain id operands) id' ids)
    (nameable : view.Nameable id) : InOwnScope view tally root context id operands := by
  obtain rfl : id = id' := Option.some.inj attuned.arranged.head?_eq
  have counted := tallies.count_eq nameable attuned.reached
  have inForce := tallies.scope_eq attuned nameable
  refine ⟨⟨_, counted, inForce⟩, ?_, ?_⟩
  · obtain ⟨⟨tree, live⟩, run⟩ := attuned.arranged.exists_thin tallies attuned.reached
      attuned.suffix.subset context
    have arranged := arranged_thin leaves tallies attuned.arranged attuned.reached attuned.suffix
      attuned.context_eq run
    obtain ⟨_, results, _, rfl, _, _⟩ := thin_plain_eq_ok run
    refine ⟨_, live, run, fun ref member nameable' => ?_⟩
    rw [get?_eq_var_iff arranged member, Named]
    exact and_iff_right nameable'
  · intro outer inForce' entry member nameable' enters
    obtain rfl : view.paths root id = outer := Except.ok.inj (inForce.symm.trans inForce')
    have key : entry.1 ∈ OrderedMap.keys operands := List.mem_map_of_mem member
    have ref : entry.1 ∈ view.references id := by
      cases attuned.arranged with
      | plain keys _ _ =>
        rw [keys, mem_firstSeen] at key
        exact key.resolve_left List.not_mem_nil
    have same := paths_eq_of_enters tallies attuned.reached ref nameable' enters
    rw [counted, same, tallies.count_eq nameable' (attuned.reached.trans (.of_reference ref))]

/-- Where trivial nodes are leaves and the occurrences are counted, every plain node that is visited
while the hoisted tree is thinned out, and is not trivial, is in a scope of its own number of
occurrences; and what is visited are the plain nodes of the result. Hoisting gets so far if nodes
are their own identities. -/
theorem inOwnScope_of_visits (leaves : view.TrivialLeaves) (counted : view.tally root = .ok tally) :
    ((∀ id other, view.identify id = .ok other → other = id) →
      ∃ hoisted memo, view.hoist tally root = .ok (hoisted, memo) ∧ hoisted.pending = []) ∧
    ∀ hoisted memo, view.hoist tally root = .ok (hoisted, memo) → hoisted.pending = [] →
      (∀ context id operands, Visits view tally (none, hoisted.node) (context, .plain id operands) →
        view.Nameable id → InOwnScope view tally root context id operands) ∧
      ∃ tree live, hoisted.node.thin view tally none = .ok (tree, live) ∧ ∀ id results,
        .plain id results ∈ tree.subtrees ↔ ∃ context operands partLive,
          Visits view tally (none, hoisted.node) (context, .plain id operands) ∧
            (SharedTree.plain id operands).thin view tally context =
              .ok (.plain id results, partLive) := by
  constructor
  · intro lawful
    obtain ⟨origin, identified, counts⟩ := counts_of_tally counted
    obtain rfl := lawful root origin identified
    obtain ⟨hoisted, memo, _, hoist, closed, _⟩ :=
      counts.tallies.exists_hoist_thin (fits_of_tally counted) counts.height_le
    exact ⟨hoisted, memo, hoist, closed⟩
  · intro hoisted memo hoist closed
    obtain ⟨tallies, _⟩ := tallies_of_hoist leaves counted hoist closed
    have arranged := (tallies.hoists (.refl root) hoist).arranged
    have start : Attuned view root (none, hoisted.node) root (view.coveredBy root root) :=
      ⟨arranged, .refl root, List.suffix_refl _, by simp⟩
    obtain ⟨⟨tree, live⟩, thin⟩ :=
      arranged.exists_thin tallies (.refl root) (List.Subset.refl _) none
    refine ⟨?_, tree, live, thin, fun id results => plain_mem_subtrees_iff thin⟩
    intro context id operands visits nameable
    obtain ⟨_, _, attuned⟩ := Attuned.visits leaves tallies start visits
    exact inOwnScope_of_attuned leaves tallies attuned nameable

/-- Node `3` is visited in the scope of node `4`, where both occur twice; nodes `1` and `2`, which
occur six and four times, are visited in scopes of their own. -/
theorem inOwnScope_two_scopes :
    let table : Table := ⟨#[[], [0], [1, 0], [1, 2], [2, 3, 0], [4, 4]], [0]⟩
    let tally : Tally Nat := ⟨[(5, 1), (4, 2), (2, 4), (1, 6), (3, 2)]⟩
    table.view.TrivialLeaves ∧ table.view.tally 5 = .ok tally ∧
      ∃ hoisted memo, table.view.hoist tally 5 = .ok (hoisted, memo) ∧ hoisted.pending = [] ∧
        ∀ context id operands,
          Visits table.view tally (none, hoisted.node) (context, .plain id operands) →
          table.view.Nameable id → InOwnScope table.view tally 5 context id operands := by
  intro table tally
  have leaves : table.view.TrivialLeaves := Table.trivialLeaves_view (by simp [table])
  have counted : table.view.tally 5 = .ok tally := rfl
  obtain ⟨reaches, scopes⟩ := inOwnScope_of_visits leaves counted
  obtain ⟨hoisted, memo, hoist, closed⟩ :=
    reaches fun _ _ => (Table.consistent_view table).identify_eq
  exact ⟨leaves, counted, hoisted, memo, hoist, closed, (scopes hoisted memo hoist closed).1⟩

end View
end SharingRecovery
