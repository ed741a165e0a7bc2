import SharingRecovery.Proofs.Acceptance

set_option autoImplicit false

/-!
Well-formed programs. A program without cycles, in which every number of occurrences is a word, can
be lowered exactly if it is well formed: all nodes that it refers to exist, placeholders are used
only where they are bound, and the tuples of stencils fit. Neither sharing nor the check of the
result makes a difference.
-/

namespace SharingRecovery

theorem ScalarKey.slot_injective : Function.Injective slot := by
  rintro ⟨i⟩ ⟨j⟩ rfl
  rfl

theorem ArrayKey.slot_injective : Function.Injective slot := by
  rintro ⟨i⟩ ⟨j⟩ rfl
  rfl

namespace Graph

variable {g : Graph} {options : Options} {tuples : TupleLayout} {root : ArrayKey}

def Has (g : Graph) : NodeKey → Prop
  | .array key => ∃ node, g.array? key = some node
  | .scalar key => ∃ node, g.scalar? key = some node

/-- A well-formed program: every node that is reached exists, every placeholder in the scalar code
of an array node is bound there, and the tuple layout has a path for every neighbour. -/
structure WellFormed (g : Graph) (tuples : TupleLayout) (root : ArrayKey) : Prop where
  present : ∀ key, g.Reaches (.array root) key → g.Has key
  params : ∀ key node, g.Reaches (.array root) (.array key) → g.array? key = some node →
    g.BindsParams node
  fits : ∀ key f boundary xs, g.Reaches (.array root) (.array key) →
    g.array? key = some (.stencil f boundary xs) → tuples.Fits f

/-- Every number of occurrences is a word: of the arrays below the root, and of the scalar nodes
below each piece of scalar code. -/
structure CountsFit (g : Graph) (options : Options) (root : ArrayKey) : Prop where
  arrays : (g.arrayView options.shareArrays).CountsFit root
  scalars : ∀ key node, g.Reaches (.array root) (.array key) → g.array? key = some node →
    ∀ e ∈ node.scalarCode, (g.scalarView options.shareScalars).CountsFit e

theorem slot_lt_of_scalar {key : ScalarKey} {node : ScalarNode}
    (found : g.scalar? key = some node) : key.slot < g.scalars.size :=
  (Array.getElem?_eq_some_iff.mp found).1

theorem slot_lt_of_array {key : ArrayKey} {node : ArrayNode} (found : g.array? key = some node) :
    key.slot < g.arrays.size :=
  (Array.getElem?_eq_some_iff.mp found).1

theorem Acyclic.founded_scalar (acyclic : g.Acyclic) (share : Bool) {e : ScalarKey}
    {slot : ScalarKey → Nat} {n : Nat} (injective : Function.Injective slot)
    (within : ∀ key, g.ReachesScalar e key → slot key < n)
    (present : ∀ key, g.ReachesScalar e key → ∃ node, g.scalar? key = some node) :
    (g.scalarView share).Founded e ∧ ((g.scalarView share).unfolding e).height ≤ n := by
  refine acyclic.scalarView.founded injective (fun key below => ?_) fun key below => ?_
  · exact within key (reaches_scalarView_iff.mp below)
  · obtain ⟨node, found⟩ := present key (reaches_scalarView_iff.mp below)
    exact ⟨_, scalarOperands_eq found⟩

theorem Acyclic.founded_array (acyclic : g.Acyclic) (share : Bool) {slot : ArrayKey → Nat} {n : Nat}
    (injective : Function.Injective slot)
    (within : ∀ key, g.Reaches (.array root) (.array key) → slot key < n)
    (present : ∀ key, g.Reaches (.array root) key → g.Has key) :
    (g.arrayView share).Founded root ∧ ((g.arrayView share).unfolding root).height ≤ n := by
  refine acyclic.arrayView.founded injective (fun key below => ?_) fun key below => ?_
  · exact within key (reaches_of_arrayView below)
  · have reached := reaches_of_arrayView below
    obtain ⟨node, found⟩ := present _ reached
    refine ⟨_, (arrayOperands_eq_ok_iff share).mpr ⟨node, found, fun e member => ?_, rfl⟩⟩
    have code := mem_refers_array.mpr ⟨node, found, .inr ⟨e, member, rfl⟩⟩
    have exists_scalar : ∀ key, g.ReachesScalar e key → ∃ node, g.scalar? key = some node :=
      fun key below => present _ ((reached.tail code).trans below.reaches)
    obtain ⟨founded, low⟩ := acyclic.founded_scalar share ScalarKey.slot_injective
      (fun key below => slot_lt_of_scalar (exists_scalar key below).choose_spec) exists_scalar
    exact ⟨founded, Nat.le_succ_of_le low⟩

namespace WellFormed

variable (wellFormed : g.WellFormed tuples root)
include wellFormed

private theorem scalar {key e : ScalarKey} (reached : g.Reaches (.array root) (.scalar e))
    (below : g.ReachesScalar e key) : ∃ node, g.scalar? key = some node :=
  wellFormed.present _ (reached.trans below.reaches)

private theorem founded_scalar (acyclic : g.Acyclic) (share : Bool) {e : ScalarKey}
    (reached : g.Reaches (.array root) (.scalar e)) :
    (g.scalarView share).Founded e ∧
      ((g.scalarView share).unfolding e).height ≤ g.scalars.size := by
  refine acyclic.founded_scalar share ScalarKey.slot_injective (fun key below => ?_)
    fun key below => wellFormed.scalar reached below
  obtain ⟨node, found⟩ := wellFormed.scalar reached below
  exact slot_lt_of_scalar found

private theorem founded_array (acyclic : g.Acyclic) (share : Bool) :
    (g.arrayView share).Founded root ∧
      ((g.arrayView share).unfolding root).height ≤ g.arrays.size := by
  refine acyclic.founded_array share ArrayKey.slot_injective (fun key reached => ?_)
    wellFormed.present
  obtain ⟨node, found⟩ := wellFormed.present _ reached
  exact slot_lt_of_array found

theorem recovers_scalar (acyclic : g.Acyclic) {share : Bool} {e : ScalarKey}
    (reached : g.Reaches (.array root) (.scalar e)) (fits : (g.scalarView share).CountsFit e) :
    ∃ tree, (g.scalarView share).recover e = .ok tree := by
  obtain ⟨founded, low⟩ := wellFormed.founded_scalar acyclic share reached
  exact View.exists_recover (g.uniform_scalarView share) founded (Nat.le_succ_of_le low) fits

theorem recovers_array (acyclic : g.Acyclic) {share : Bool}
    (fits : (g.arrayView share).CountsFit root) :
    ∃ tree, (g.arrayView share).recover root = .ok tree := by
  obtain ⟨founded, low⟩ := wellFormed.founded_array acyclic share
  exact View.exists_recover (g.uniform_arrayView share) founded (Nat.le_succ_of_le low) fits

private theorem accepts (acyclic : g.Acyclic) {share : Bool} {key : ArrayKey} {node : ArrayNode}
    (reached : g.Reaches (.array root) (.array key)) (found : g.array? key = some node)
    (fits : ∀ e ∈ node.scalarCode, (g.scalarView share).CountsFit e) :
    Lowering.Accepts ⟨g, tuples, share⟩ node where
  recovers e member := by
    have code := mem_refers_array.mpr ⟨node, found, .inr ⟨e, member, rfl⟩⟩
    exact wellFormed.recovers_scalar acyclic (reached.tail code) (fits e member)
  params := wellFormed.params key node reached found
  tuples := by
    intro part member
    cases part with
    | stencil f =>
      obtain ⟨boundary, xs, rfl⟩ := ArrayOp.eq_stencil_of_mem_parts member
      exact wellFormed.fits key f boundary xs reached found
    | _ => trivial

end WellFormed

private theorem wellFormed_of_accepts {share share' : Bool} {tree : SharedTree ArrayKey}
    (recovered : (g.arrayView share).recover root = .ok tree)
    (accepts : ∀ key, (g.arrayView share).Reaches root key → ∃ node, g.array? key = some node ∧
      Lowering.Accepts ⟨g, tuples, share'⟩ node) : g.WellFormed tuples root := by
  obtain ⟨founded, _⟩ := (g.consistent_arrayView share).founded_of_recover recovered
  have reachedIn : ∀ {key}, g.Reaches (.array root) key → g.ReachedIn share root key :=
    reachedIn_of_reaches fun key below => ⟨_, (founded.of_reaches below).operands⟩
  have accepted : ∀ {key node}, g.Reaches (.array root) (.array key) → g.array? key = some node →
      Lowering.Accepts ⟨g, tuples, share'⟩ node := by
    intro key node reached found
    obtain ⟨node', found', accepts⟩ := accepts key (reachedIn reached)
    exact Option.some.inj (found'.symm.trans found) ▸ accepts
  refine ⟨fun key reached => ?_, fun key node reached found => ?_,
    fun key f boundary xs reached found => ?_⟩
  · cases key with
    | array key =>
      obtain ⟨node, found, _⟩ := accepts key (reachedIn reached)
      exact ⟨node, found⟩
    | scalar key =>
      obtain ⟨user, node, above, found, e, member, below⟩ := reachedIn reached
      obtain ⟨node', found', code, _⟩ :=
        (arrayOperands_eq_ok_iff share).mp (founded.of_reaches above).operands
      obtain rfl := Option.some.inj (found.symm.trans found')
      have scalar := (code e member).1.of_reaches (reaches_scalarView_iff.mpr below)
      obtain ⟨node, found, _⟩ := exists_scalar_of_operands scalar.operands
      exact ⟨node, found⟩
  · exact (accepted reached found).params
  · exact (accepted reached found).tuples (.stencil f) (by simp [ArrayOp.parts])

/-- A program without cycles, in which every number of occurrences is a word, can be lowered exactly
if it is well formed, whatever the options. -/
theorem exists_lower_iff_wellFormed (acyclic : g.Acyclic) (fits : g.CountsFit options root) :
    (∃ t, g.lower options root = .ok t) ↔ g.WellFormed options.tuples root := by
  rw [exists_lower_iff]
  constructor
  · rintro ⟨⟨tree, recovered⟩, accepts⟩
    exact wellFormed_of_accepts recovered accepts
  · intro wellFormed
    refine ⟨wellFormed.recovers_array acyclic fits.arrays, fun key below => ?_⟩
    have reached := reaches_of_arrayView below
    obtain ⟨node, found⟩ := wellFormed.present _ reached
    exact ⟨node, found, wellFormed.accepts acyclic reached found
      (fits.scalars key node reached found)⟩

/-- A stencil that uses its argument and two of its three neighbours is well formed with every
option; a function that takes its body from the stencil is not, since it does not bind the
neighbours. -/
theorem wellFormed_stencil_not_borrowed :
    let s (i : Nat) : ScalarKey := ⟨i⟩
    let a (i : Nat) : ArrayKey := ⟨i⟩
    let g : Graph := ⟨⟨#[.use ⟨[], [.bool true]⟩,
        .stencil ⟨⟨[3]⟩, s 0, [s 2, s 3, s 4], s 1⟩ .clamp (a 0), .map ⟨[s 0], s 1⟩ (a 1)]⟩,
      ⟨#[.param, .op (.tuple [s 2, s 0, s 4, s 2]), .param, .param, .param]⟩⟩
    let bare : Options := { shareArrays := false, shareScalars := false, checked := true }
    g.Acyclic ∧ (∀ root, root = a 1 ∨ root = a 2 → g.CountsFit {} root ∧ g.CountsFit bare root) ∧
      g.WellFormed .nested (a 1) ∧ (∃ t, g.lower {} (a 1) = .ok t) ∧
      (∃ t, g.lower bare (a 1) = .ok t) ∧ ¬g.WellFormed .nested (a 2) := by
  intro s a g bare
  have acyclic : g.Acyclic := by
    refine acyclic_of_rank (fun
      | .array key => key.slot + 2
      | .scalar key => if key.slot = 1 then 1 else 0) ?_
    rintro (⟨_ | _ | _ | slot⟩ | ⟨_ | _ | _ | _ | _ | slot⟩)
    all_goals first | decide | exact fun target member => by cases member
  have scalars : ∀ share key node, g.array? key = some node →
      ∀ e ∈ node.scalarCode, (g.scalarView share).CountsFit e := by
    intro share key node found e member
    obtain ⟨_ | _ | _ | slot⟩ := key
    all_goals cases found
    · cases member
    all_goals
      obtain rfl := List.mem_singleton.mp member
      cases share <;> exact View.countsFit_of_tally (g.consistent_scalarView _).toLawful rfl
  have fits : ∀ root, root = a 1 ∨ root = a 2 → g.CountsFit {} root ∧ g.CountsFit bare root := by
    rintro root (rfl | rfl)
    all_goals
      refine ⟨⟨?_, fun key node _ => scalars _ key node⟩,
        ⟨?_, fun key node _ => scalars _ key node⟩⟩
      all_goals
        subst g a s
        exact View.countsFit_of_tally (Graph.consistent_arrayView _ _).toLawful rfl
  have lowered : ∃ t, g.lower {} (a 1) = .ok t := by
    subst g a s
    exact ⟨_, rfl⟩
  have wellFormed := (exists_lower_iff_wellFormed acyclic (fits (a 1) (.inl rfl)).1).mp lowered
  refine ⟨acyclic, fits, wellFormed, lowered, ?_, fun wellFormed => ?_⟩
  · exact (exists_lower_iff_wellFormed acyclic (fits (a 1) (.inl rfl)).2).mpr wellFormed
  · obtain ⟨t, run⟩ := (exists_lower_iff_wellFormed acyclic (fits (a 2) (.inr rfl)).1).mpr
        wellFormed
    have failed : g.lower {} (a 2) = .error (.fault .notInScope) := by
      subst g a s
      rfl
    rw [failed] at run
    cases run

end Graph
end SharingRecovery
