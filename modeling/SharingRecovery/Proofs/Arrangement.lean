import SharingRecovery.Proofs.FirstSeen
import SharingRecovery.Proofs.Outcome
import SharingRecovery.Proofs.Subtrees
import SharingRecovery.Proofs.Unfolding
import SharingRecovery.SharedTree.Hoist

set_option autoImplicit false

/-!
Trees that follow a plan: the plan says which identities have a name, and which bindings stand
around each plain node.
-/

namespace SharingRecovery.SharedTree

variable {ι : Type} [DecidableEq ι]

/-- A tree is the plain node of an identity inside bindings of the given identities. What is bound,
or stands as an operand, is the plain node of its own identity inside its own chain of bindings,
except that operands with a name are variables. -/
inductive Arranged (view : View ι) (chain : ι → List ι) (named : ι → Prop) :
    ι → List ι → SharedTree ι → Prop
  | plain {id : ι} {operands : List (ι × SharedTree ι)} :
      OrderedMap.keys operands = firstSeen [] (view.references id) →
      (∀ entry ∈ operands, named entry.1 → entry.2 = .var entry.1) →
      (∀ entry ∈ operands, ¬named entry.1 →
        Arranged view chain named entry.1 (chain entry.1) entry.2) →
      Arranged view chain named id [] (.plain id operands)
  | bind {id target : ι} {rest : List ι} {bound body : SharedTree ι} :
      Arranged view chain named id (chain id) bound → Arranged view chain named target rest body →
      Arranged view chain named target (id :: rest) (.bind id bound body)

variable {view : View ι} {chain : ι → List ι} {named : ι → Prop} {tree : SharedTree ι} {id : ι}
  {ids : List ι}

theorem Arranged.wrap {id : ι} {memo : Memo ι} {node result : SharedTree ι} {complete : List ι}
    (known : ∀ key ∈ complete, ∀ hoisted, memo.lookup key = some hoisted →
      hoisted.node.Arranged view chain named key (chain key))
    (arranged : node.Arranged view chain named id [])
    (run : Hoisted.wrap memo node complete = .ok result) :
    result.Arranged view chain named id complete := by
  induction complete generalizing result with
  | nil =>
    rw [Hoisted.wrap, pure_eq_ok_iff] at run
    exact run ▸ arranged
  | cons key complete ih =>
    obtain ⟨body, inner, run⟩ := bind_eq_ok_iff.mp run
    obtain ⟨hoisted, found, run⟩ := bind_eq_ok_iff.mp run
    rw [pure_eq_ok_iff] at run
    subst run
    obtain ⟨first, others⟩ := List.forall_mem_cons.mp known
    exact .bind (first hoisted (Fault.require_eq_ok_iff.mp found)) (ih others inner)

theorem Arranged.head?_eq (arranged : tree.Arranged view chain named id ids) :
    tree.head? = some id := by
  induction arranged with
  | plain _ _ _ => rfl
  | bind _ _ _ ih => exact ih

theorem Arranged.chain_eq (arranged : tree.Arranged view chain named id ids) :
    tree.chain = ids := by
  induction arranged with
  | plain _ _ _ => rfl
  | bind _ _ _ ih => rw [SharedTree.chain, ih]

theorem Arranged.named_of_mem_vars (arranged : tree.Arranged view chain named id ids) {target : ι}
    (occurs : target ∈ tree.vars) : named target := by
  induction arranged with
  | plain _ withName _ ih =>
    simp only [vars_plain, List.mem_flatMap] at occurs
    obtain ⟨entry, member, occurs⟩ := occurs
    by_cases name : named entry.1
    · rw [withName entry member name, vars_var, List.mem_singleton] at occurs
      exact occurs ▸ name
    · exact ih entry member name occurs
  | bind _ _ ihBound ihBody =>
    rw [vars_bind, List.mem_append] at occurs
    exact occurs.elim ihBound ihBody

theorem Arranged.mem_vars (arranged : tree.Arranged view chain named id ids) {source target : ι}
    (plain : source ∈ tree.plains) (member : target ∈ view.references source)
    (name : named target) : target ∈ tree.vars := by
  induction arranged with
  | plain keys withName _ ih =>
    rw [plains_plain, List.mem_cons, List.mem_flatMap] at plain
    rw [vars_plain, List.mem_flatMap]
    rcases plain with rfl | ⟨entry, inside, plain⟩
    · have key : target ∈ firstSeen [] (view.references source) := mem_firstSeen.mpr (.inr member)
      rw [← keys] at key
      obtain ⟨entry, inside, rfl⟩ := List.mem_map.mp key
      exact ⟨entry, inside, by simp [withName entry inside name]⟩
    · by_cases name' : named entry.1
      · simp [withName entry inside name'] at plain
      · exact ⟨entry, inside, ih entry inside name' plain⟩
  | bind _ _ ihBound ihBody =>
    rw [plains_bind, List.mem_append] at plain
    rw [vars_bind, List.mem_append]
    exact plain.imp ihBound ihBody

theorem Arranged.count_plains (arranged : tree.Arranged view chain named id ids) {target : ι}
    (name : named target) :
    tree.plains.count target = tree.binders.count target + if id = target then 1 else 0 := by
  induction arranged with
  | @plain id operands _ withName _ ih =>
    have each : operands.map (List.count target ∘ fun entry => entry.2.plains) =
        operands.map (List.count target ∘ fun entry => entry.2.binders) := by
      refine List.map_congr_left fun entry member => ?_
      simp only [Function.comp_apply]
      by_cases name' : named entry.1
      · simp [withName entry member name']
      · have different : entry.1 ≠ target := fun same => name' (same ▸ name)
        rw [ih entry member name', if_neg different, Nat.add_zero]
    rw [plains_plain, binders_plain, List.count_cons, List.count_flatMap, List.count_flatMap, each]
    simp only [beq_iff_eq]
  | @bind id' id rest bound body _ _ ihBound ihBody =>
    rw [plains_bind, binders_bind, List.count_append, List.count_cons, List.count_append, ihBound,
      ihBody]
    simp only [beq_iff_eq]
    omega

theorem Arranged.named_of_mem_binders (arranged : tree.Arranged view chain named id ids)
    (planned : ∀ source, ∀ target ∈ chain source, named target)
    (here : ∀ target ∈ ids, named target) {target : ι} (binds : target ∈ tree.binders) :
    named target := by
  induction arranged with
  | plain _ withName _ ih =>
    simp only [binders_plain, List.mem_flatMap] at binds
    obtain ⟨entry, member, binds⟩ := binds
    by_cases name : named entry.1
    · simp [withName entry member name] at binds
    · exact ih entry member name (planned entry.1) binds
  | @bind id _ _ _ _ _ _ ihBound ihBody =>
    obtain ⟨first, others⟩ := List.forall_mem_cons.mp here
    rw [binders_bind, List.mem_cons, List.mem_append] at binds
    rcases binds with rfl | binds | binds
    · exact first
    · exact ihBound (planned id) binds
    · exact ihBody others binds

/-- The parts of a tree that follows a plan are variables or follow the plan themselves. -/
theorem Arranged.subtree (arranged : tree.Arranged view chain named id ids)
    (rest : ids <:+ chain id) {holds : ι → Prop}
    (operands : ∀ source, holds source → ∀ ref ∈ view.references source, holds ref)
    (bound : ∀ source, holds source → ∀ target ∈ chain source, holds target) (start : holds id)
    {part : SharedTree ι} (member : part ∈ tree.subtrees) :
    (∃ target, part = .var target) ∨
      ∃ source ids', part.Arranged view chain named source ids' ∧ ids' <:+ chain source ∧
        holds source := by
  induction arranged with
  | @plain id entries keys withName below ih =>
    rw [subtrees_plain, List.mem_cons, List.mem_flatMap] at member
    rcases member with rfl | ⟨entry, inside, member⟩
    · exact .inr ⟨id, [], .plain keys withName below, rest, start⟩
    · by_cases name : named entry.1
      · rw [withName entry inside name, subtrees, List.mem_singleton] at member
        exact .inl ⟨entry.1, member⟩
      · have key : entry.1 ∈ OrderedMap.keys entries := List.mem_map_of_mem inside
        rw [keys, mem_firstSeen] at key
        have ref := key.resolve_left List.not_mem_nil
        exact ih entry inside name (List.suffix_refl _) (operands id start entry.1 ref) member
  | @bind id target others boundTree body arranged arranged' ihBound ihBody =>
    rw [subtrees, List.mem_cons, List.mem_append] at member
    rcases member with rfl | member | member
    · exact .inr ⟨target, id :: others, .bind arranged arranged', rest, start⟩
    · have planned := rest.subset List.mem_cons_self
      exact ihBound (List.suffix_refl _) (bound target start id planned) member
    · exact ihBody ((List.suffix_cons id others).trans rest) start member

end SharingRecovery.SharedTree
