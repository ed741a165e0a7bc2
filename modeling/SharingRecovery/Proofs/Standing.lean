import SharingRecovery.Proofs.Counting
import SharingRecovery.Proofs.Hoisting
import SharingRecovery.Proofs.Thinning
import SharingRecovery.SharedTree.Recover

set_option autoImplicit false

/-!
Every tree that sharing recovery makes stands for a node: whatever is bound stands for its identity,
and a plain node has its operands. Recovery keeps that in both passes and leaves no variable free.
-/

namespace SharingRecovery

namespace SharedTree

variable {ι : Type} [DecidableEq ι] {view : View ι} {tally : Tally ι}

/-- A tree stands for a node: a variable for its identity, a binding for what its body stands for, a
plain node for itself with its operands. What is bound is not trivial and lies below. -/
inductive Stands (view : View ι) : SharedTree ι → ι → Prop
  | var (id : ι) : Stands view (.var id) id
  | bind {id target : ι} {bound body : SharedTree ι} : view.Nameable id → view.Reaches target id →
      Stands view bound id → Stands view body target → Stands view (.bind id bound body) target
  | plain {id : ι} {refs : List ι} {operands : List (ι × SharedTree ι)} :
      view.operands id = .ok refs → (∀ ref, ref ∈ OrderedMap.keys operands ↔ ref ∈ refs) →
      (∀ entry ∈ operands, Stands view entry.2 entry.1) → Stands view (.plain id operands) id

theorem Stands.thin {context : Option Nat} {tree result : SharedTree ι} {live : List ι} {id : ι}
    (stands : tree.Stands view id) (run : tree.thin view tally context = .ok (result, live)) :
    result.Stands view id := by
  induction stands generalizing context result live with
  | var id =>
    obtain ⟨rfl, rfl⟩ := thin_var_eq_ok run
    exact .var id
  | bind nameable below _ _ ihBound ihBody =>
    obtain ⟨body', bodyLive, inner, ⟨_, bound', boundLive, outer, rfl, rfl⟩ | ⟨_, rfl, rfl⟩⟩ :=
      thin_bind_eq_ok run
    · exact .bind nameable below (ihBound outer) (ihBody inner)
    · exact ihBody inner
  | plain operands keys _ ih =>
    obtain ⟨outer, results, _, rfl, rfl, related⟩ := thin_plain_eq_ok run
    refine .plain operands (fun ref => ?_) fun entry kept => ?_
    · rw [keys_results related, keys]
    obtain ⟨result, member, rfl⟩ := List.mem_map.mp kept
    obtain ⟨entry, inside, same, _, _, ⟨_, occurs, _⟩ | ⟨_, thinned⟩⟩ :=
      exists_left_of_mem related member
    · rw [occurs, same]
      exact .var entry.1
    · rw [same]
      exact ih entry inside thinned

theorem Stands.wrap {memo : Memo ι} {node result : SharedTree ι} {complete : List ι} {id : ι}
    (known : ∀ key hoisted, memo.lookup key = some hoisted → hoisted.node.Stands view key)
    (below : ∀ key ∈ complete, view.Nameable key ∧ view.Reaches id key)
    (stands : node.Stands view id)
    (run : Hoisted.wrap memo node complete = .ok result) : result.Stands view id := by
  induction complete generalizing result with
  | nil =>
    rw [Hoisted.wrap, pure_eq_ok_iff] at run
    exact run ▸ stands
  | cons key complete ih =>
    obtain ⟨body, inner, run⟩ := bind_eq_ok_iff.mp run
    obtain ⟨hoisted, found, run⟩ := bind_eq_ok_iff.mp run
    rw [pure_eq_ok_iff] at run
    subst run
    obtain ⟨⟨nameable, reaches⟩, others⟩ := List.forall_mem_cons.mp below
    exact .bind nameable reaches (known key hoisted (Fault.require_eq_ok_iff.mp found))
      (ih others inner)

end SharedTree

namespace View

variable {ι : Type} [DecidableEq ι] {view : View ι} {tally : Tally ι}

private theorem nameable_of_one_lt_multiplicity {id : ι} {multiplicity : Nat}
    (run : view.multiplicity tally id = .ok multiplicity) (more : 1 < multiplicity) :
    view.Nameable id := by
  obtain ⟨trivial, decided, run⟩ := bind_eq_ok_iff.mp run
  cases trivial with
  | false => exact decided
  | true =>
    have once : 1 = multiplicity := pure_eq_ok_iff.mp run
    omega

theorem stands_of_hoistWithin {depth : Nat} {id : ι} {memo : Memo ι} {hoisted : Hoisted ι}
    (run : view.hoistWithin tally depth id [] = .ok (hoisted, memo)) :
    hoisted.node.Stands view id ∧
      ∀ key ∈ OrderedMap.keys hoisted.pending, view.Nameable key ∧ view.Reaches id key := by
  refine (hoistWithin_induction (motive := fun id hoisted => hoisted.node.Stands view id ∧
    ∀ key ∈ OrderedMap.keys hoisted.pending, view.Nameable key ∧ view.Reaches id key)
    ?_ run (by simp)).1
  intro id multiplicity entries gathered memo hoisted counted operands each adds known close
  obtain ⟨complete, covered, wrapped, rest⟩ := Gathered.close_eq_ok close
  have refs := references_eq operands
  have pending : ∀ key ∈ OrderedMap.keys gathered.pending,
      view.Nameable key ∧ view.Reaches id key := by
    intro key inside
    rw [Gathered.keys_pending_of_addAll adds, mem_firstSeen, List.mem_flatMap] at inside
    rcases inside with inside | ⟨entry, member, inside⟩
    · simp [Gathered.empty, OrderedMap.keys] at inside
    · obtain ⟨nameable, below⟩ := (each entry member).2 key inside
      have ref : entry.1 ∈ view.references id := refs ▸ List.mem_map_of_mem member
      exact ⟨nameable, (View.Reaches.of_reference ref).trans below⟩
  constructor
  · refine SharedTree.Stands.wrap (fun key hoisted found => (known key hoisted found).1)
      ?_ ?_ wrapped
    · intro key inside
      rw [(Hoisted.covered_eq_ok covered).2] at inside
      obtain ⟨entry, kept, rfl⟩ := List.mem_map.mp inside
      exact pending entry.1 (List.mem_map_of_mem (List.mem_of_mem_filter kept))
    · refine .plain operands (fun ref => ?_) fun operand member => ?_
      · rw [Gathered.keys_operands_of_addAll adds, mem_firstSeen]
        simp [Gathered.empty, OrderedMap.keys]
      · rcases Gathered.mem_operands_of_addAll adds member with inside | ⟨entry, referred, rfl⟩
        · simp [Gathered.empty] at inside
        · exact (each entry referred).1
  · intro key inside
    have left : ∀ key ∈ OrderedMap.keys (complete.foldl OrderedMap.erase gathered.pending),
        view.Nameable key ∧ view.Reaches id key := by
      intro key inside
      rw [Hoisted.keys_erase] at inside
      exact pending key (List.mem_of_mem_filter inside)
    rw [rest] at inside
    split at inside
    · rename_i more
      rw [OrderedMap.keys_insert_eq, mem_firstSeen, List.mem_singleton] at inside
      rcases inside with inside | rfl
      · exact left key inside
      · exact ⟨nameable_of_one_lt_multiplicity counted more, .refl key⟩
    · exact left key inside

theorem recover_eq_ok {root : ι} {tree : SharedTree ι} (run : view.recover root = .ok tree) :
    ∃ tally hoisted memo, view.tally root = .ok tally ∧
      view.hoist tally root = .ok (hoisted, memo) ∧ hoisted.pending = [] ∧
      hoisted.node.thin view tally none = .ok (tree, []) := by
  obtain ⟨tally, counted, run⟩ := bind_eq_ok_iff.mp run
  obtain ⟨⟨hoisted, memo⟩, hoist, run⟩ := bind_eq_ok_iff.mp run
  dsimp only at run
  split at run
  · cases run
  · rename_i closed
    obtain ⟨⟨thinned, live⟩, thin, run⟩ := bind_eq_ok_iff.mp run
    dsimp only at run
    split at run
    · cases run
    · rename_i bound
      rw [pure_eq_ok_iff] at run
      subst run
      refine ⟨tally, hoisted, memo, counted, hoist, by simpa using closed, ?_⟩
      simp only [Bool.not_eq_true, Bool.not_eq_false'] at bound
      rw [thin, List.isEmpty_iff.mp bound]

/-- A recovered tree stands for the root, and no variable is free in it. -/
theorem stands_of_recover {root : ι} {tree : SharedTree ι} (run : view.recover root = .ok tree) :
    tree.Stands view root ∧ tree.free = [] := by
  obtain ⟨tally, hoisted, memo, _, hoist, _, thin⟩ := recover_eq_ok run
  refine ⟨(stands_of_hoistWithin hoist).1.thin thin, List.eq_nil_iff_forall_not_mem.mpr ?_⟩
  intro id inside
  exact List.not_mem_nil ((SharedTree.mem_live_iff thin id).mpr inside)

end View
end SharingRecovery
