import SharingRecovery.Proofs.Covering
import SharingRecovery.Proofs.Subtrees
import SharingRecovery.Proofs.Thinning

set_option autoImplicit false

/-!
Where thinning out leaves the nodes of a graph whose trivial nodes are leaves. A node that is
referred to at least twice gets a name; it is bound at its immediate dominator. Any other node
stands as an operand where it is referred to, which is its immediate dominator, too.
-/

namespace SharingRecovery

namespace View

variable {ι : Type} [DecidableEq ι] {view : View ι} {tally : Tally ι} {root : ι}

def TrivialLeaves (view : View ι) : Prop :=
  ∀ id refs, view.isTrivial id = .ok true → view.operands id = .ok refs → refs = []

/-- A node that is not trivial and that what the root reaches refers to at least twice. -/
def Named (view : View ι) (root id : ι) : Prop :=
  view.Nameable id ∧ (view.referencesTo root id).Nontrivial

open Classical in
noncomputable def boundAt (view : View ι) (root id : ι) : List ι :=
  (view.coveredBy root id).filter fun target => view.Named root target

omit [DecidableEq ι] in
theorem TrivialLeaves.references_eq_nil (leaves : view.TrivialLeaves) {id : ι}
    (trivial : view.isTrivial id = .ok true) : view.references id = [] := by
  rw [references]
  split
  · rename_i refs operands
    exact leaves id refs trivial operands
  · rfl

section Leaves

variable (leaves : view.TrivialLeaves) (tallies : view.Tallies tally root)
include leaves tallies

theorem nameable_of_reference {id ref : ι} (reached : view.Reaches root id)
    (member : ref ∈ view.references id) : view.Nameable id := by
  obtain ⟨trivial, decided⟩ := tallies.decided id reached
  cases trivial with
  | false => exact decided
  | true => simp [leaves.references_eq_nil decided] at member

private theorem nameable_of_reaches {id target : ι} (reached : view.Reaches root id)
    (below : view.Reaches id target) (nameable : view.Nameable target) : view.Nameable id := by
  rcases reaches_iff.mp below with rfl | ⟨ref, member, _⟩
  · exact nameable
  · exact nameable_of_reference leaves tallies reached member

private theorem closes_iff {closer id : ι} (reached : view.Reaches root id) :
    view.Closes root closer id ↔ closer ≠ id ∧ view.Dominates root closer id := by
  refine ⟨fun closes => ⟨closes.ne, closes.dominates⟩, fun ⟨ne, dominates⟩ => ⟨ne, dominates, ?_⟩⟩
  obtain ⟨above, below⟩ := dominates.reaches reached
  obtain ⟨ref, member, _⟩ := (reaches_iff.mp below).resolve_left ne
  exact (nameable_of_reference leaves tallies above member).frequency_eq

/-- If nothing is left open at a node, the numbers of paths from the root to what it reaches are
those from the node itself. -/
theorem Tallies.of_closed {id : ι} (reached : view.Reaches root id)
    (closed : ∀ target, view.Reaches id target → ¬view.Open root id target) :
    view.Tallies tally id := by
  have founded := tallies.founded
  refine ⟨founded.of_reaches reached,
    fun target below => tallies.decided target (reached.trans below),
    fun target nameable below => ?_⟩
  have nameable' := nameable_of_reaches leaves tallies reached below nameable
  have once : view.paths root id = 1 := by
    have unshared := mt (open_self_iff founded reached).mpr (closed id (.refl id))
    have atMost : ¬1 < view.paths root id := fun more => unshared ⟨nameable', more⟩
    have positive := founded.paths_pos_iff.mpr reached
    omega
  -- The node dominates what it reaches: what occurs once, since it is reached once; what occurs
  -- more often, since it dominates a node that closes it.
  have dominates : view.Dominates root id target := by
    induction rank : view.treeSize id - view.treeSize target using Nat.strong_induction_on
      generalizing target with
    | h n ih =>
      by_cases shared : view.Shared root target
      · have notOpen := closed target below
        simp only [Open, shared, true_and, not_forall, not_not] at notOpen
        obtain ⟨closer, between, closes⟩ := notOpen
        have reaches := (closes.dominates.reaches (reached.trans below))
        have nameable'' := nameable_of_reaches leaves tallies reaches.1 reaches.2 nameable
        have larger := (founded.of_reaches reaches.1).treeSize_lt_of_reaches reaches.2 closes.ne
        by_cases same : id = closer
        · exact same ▸ closes.dominates
        · have smaller := (founded.of_reaches reached).treeSize_lt_of_reaches between same
          exact (ih _ (by omega) closer nameable'' between rfl).trans closes.dominates
      · have atMost : ¬1 < view.paths root target := fun more => shared ⟨nameable, more⟩
        have product := (founded.mul_paths id target).1
        have positive := (founded.of_reaches reached).paths_pos_iff.mpr below
        have some := founded.paths_pos_iff.mpr (reached.trans below)
        refine founded.dominates_iff.mpr ?_
        rw [once] at product ⊢
        omega
  rw [tallies.get?_eq target nameable (reached.trans below), ← founded.dominates_iff.mp dominates,
    once, Nat.one_mul]

theorem mem_coveredBy_iff {id target : ι} (reached : view.Reaches root id) :
    target ∈ view.coveredBy root id ↔
      view.Shared root target ∧ view.Reaches root target ∧
        view.ImmediatelyDominates root id target := by
  have founded := tallies.founded
  rw [(founded.of_reaches reached).mem_coveredBy]
  constructor
  · rintro ⟨below, ⟨shared, first⟩, closes⟩
    have there := reached.trans below
    refine ⟨shared, there, closes.dominates, closes.ne, fun other above ne => ?_⟩
    rcases Dominates.total founded there above closes.dominates with up | down
    · exact up
    · by_cases same : id = other
      · rw [same]
        exact dominates_self other
      · have reaches := down.reaches (above.reaches there).1
        obtain ⟨ref, member, between⟩ := (reaches_iff.mp reaches.2).resolve_left same
        exact absurd ((closes_iff leaves tallies there).mpr ⟨ne, above⟩)
          (first ref member other between)
  · rintro ⟨shared, there, immediate⟩
    refine ⟨(immediate.dominates.reaches there).2,
      ⟨shared, fun ref member closer between closes => ?_⟩,
      (closes_iff leaves tallies there).mpr ⟨immediate.ne, immediate.dominates⟩⟩
    have up := (immediate.nearest closer closes.dominates closes.ne).reaches reached
    exact (founded.of_reaches reached).not_reaches_back member (between.trans up.2)

end Leaves

theorem Founded.shared_of_named {id : ι} (founded : view.Founded root)
    (named : view.Named root id) : view.Shared root id ∧ view.Reaches root id := by
  obtain ⟨nameable, several⟩ := named
  obtain ⟨source, reached, found⟩ := several.nonempty
  have member := List.mem_of_getElem? found
  have fewer := founded.paths_reference reached member
  have different : view.paths root source.1 ≠ view.paths root id := fun same =>
    fewer.2.mp same several
  have positive := founded.paths_pos_iff.mpr reached
  exact ⟨⟨nameable, by omega⟩, reached.trans (.of_reference member)⟩

private theorem Founded.paths_lt_frequency_iff {id ref : ι} (founded : view.Founded root)
    (reached : view.Reaches root id) (member : ref ∈ view.references id) :
    view.paths root id < view.frequency root ref ↔ view.Named root ref := by
  have positive := founded.paths_pos_iff.mpr reached
  obtain ⟨atMost, same⟩ := founded.paths_reference reached member
  rw [frequency, Named]
  split
  · rename_i nameable
    rw [← not_iff_not, not_and, not_lt]
    constructor
    · exact fun le _ => same.mp (atMost.antisymm le)
    · exact fun once => (same.mpr (once nameable)).ge
  · rename_i trivial
    simp only [trivial, false_and, iff_false, not_lt]
    exact positive

private theorem Founded.immediatelyDominates_of_reference {id ref : ι} (founded : view.Founded root)
    (reached : view.Reaches root id) (member : ref ∈ view.references id)
    (nameable : view.Nameable ref) (unnamed : ¬view.Named root ref) :
    view.ImmediatelyDominates root id ref := by
  have same : view.paths root id = view.paths root ref :=
    (founded.paths_reference reached member).2.mpr fun several => unnamed ⟨nameable, several⟩
  have founded' := founded.of_reaches reached
  have positive := founded'.paths_pos_iff.mpr (.of_reference member)
  refine ⟨founded.dominates_iff.mpr ?_, ?_, fun other above ne => above.of_reference ne member⟩
  · refine (founded.mul_paths id ref).1.antisymm ?_
    rw [← same]
    exact Nat.le_mul_of_pos_right _ positive
  · rintro rfl
    exact founded'.not_reaches_back member (.refl id)

/-- A node either has a name and is bound at its immediate dominator, or has none and stands there
as an operand. -/
theorem bound_or_operand (leaves : view.TrivialLeaves) (tallies : view.Tallies tally root)
    {id target : ι} (reached : view.Reaches root target) (nameable : view.Nameable target)
    (immediate : view.ImmediatelyDominates root id target) :
    view.Named root target ∧ target ∈ view.coveredBy root id ∨
      ¬view.Named root target ∧ target ∈ view.references id := by
  have founded := tallies.founded
  have above := (immediate.dominates.reaches reached).1
  by_cases named : view.Named root target
  · exact .inl ⟨named, (mem_coveredBy_iff leaves tallies above).mpr
      ⟨(founded.shared_of_named named).1, reached, immediate⟩⟩
  · refine .inr ⟨named, ?_⟩
    rcases reaches_iff_tail.mp reached with rfl | ⟨source, reached', member⟩
    · exact absurd (List.mem_singleton.mp (immediate.dominates _ (.here target))) immediate.ne
    · have other := founded.immediatelyDominates_of_reference reached' member nameable named
      have down := immediate.dominates.of_reference immediate.ne member
      have up := immediate.nearest source other.dominates other.ne
      rw [down.antisymm founded above up]
      exact member

open Classical in
/-- The nodes that stand directly at a plain node if the given ones are bound there: its operands
without a name and what is bound. -/
noncomputable def placedAt (view : View ι) (root id : ι) (ids : List ι) : List ι :=
  (firstSeen [] (view.references id)).filter (fun ref => ¬view.Named root ref) ++ ids

theorem mem_placedAt {id target : ι} {ids : List ι} : target ∈ view.placedAt root id ids ↔
    target ∈ view.references id ∧ ¬view.Named root target ∨ target ∈ ids := by
  simp [placedAt]

theorem mem_boundAt {id target : ι} : target ∈ view.boundAt root id ↔
    target ∈ view.coveredBy root id ∧ view.Named root target := by
  simp [boundAt]

private theorem nodup_placedAt (id : ι) : (view.placedAt root id (view.boundAt root id)).Nodup := by
  rw [placedAt, List.nodup_append]
  refine ⟨(nodup_firstSeen List.nodup_nil _).filter _, ((nodup_postorder id).filter _).filter _, ?_⟩
  rintro ref unnamed _ bound rfl
  simp only [List.mem_filter, decide_eq_true_eq] at unnamed
  exact unnamed.2 (mem_boundAt.mp bound).2

section Leaves

variable (leaves : view.TrivialLeaves) (tallies : view.Tallies tally root)
include leaves tallies

theorem reaches_of_mem_placedAt {id target : ι} (reached : view.Reaches root id)
    (member : target ∈ view.placedAt root id (view.boundAt root id)) :
    view.Reaches root target := by
  rcases mem_placedAt.mp member with ⟨ref, _⟩ | bound
  · exact reached.trans (.of_reference ref)
  · exact ((mem_coveredBy_iff leaves tallies reached).mp (mem_boundAt.mp bound).1).2.1

theorem mem_placedAt_iff {id target : ι} (reached : view.Reaches root id)
    (below : view.Reaches root target) (nameable : view.Nameable target) :
    target ∈ view.placedAt root id (view.boundAt root id) ↔
      view.ImmediatelyDominates root id target := by
  rw [mem_placedAt, mem_boundAt]
  constructor
  · rintro (⟨ref, unnamed⟩ | ⟨covered, _⟩)
    · exact tallies.founded.immediatelyDominates_of_reference reached ref nameable unnamed
    · exact ((mem_coveredBy_iff leaves tallies reached).mp covered).2.2
  · intro immediate
    rcases bound_or_operand leaves tallies below nameable immediate with ⟨named, covered⟩ | operand
    · exact .inr ⟨covered, named⟩
    · exact .inl operand.symm

open Classical in
theorem countP_placedAt {id target : ι} (reached : view.Reaches root id)
    (below : view.Reaches root target) (nameable : view.Nameable target) :
    (if id = target then 1 else 0) + (view.placedAt root id (view.boundAt root id)).countP
        (fun other => view.Dominates root other target) =
      if view.Dominates root id target then 1 else 0 := by
  have founded := tallies.founded
  have immediate : ∀ other ∈ view.placedAt root id (view.boundAt root id),
      view.Dominates root other target → view.ImmediatelyDominates root id other := by
    intro other member dominates
    have reaches := dominates.reaches below
    have nameable' := nameable_of_reaches leaves tallies reaches.1 reaches.2 nameable
    exact (mem_placedAt_iff leaves tallies reached reaches.1 nameable').mp member
  by_cases same : id = target
  · subst same
    rw [if_pos rfl, if_pos (dominates_self id), List.countP_eq_zero.mpr]
    intro other member
    rw [decide_eq_true_iff]
    intro dominates
    have down := immediate other member dominates
    exact down.ne (down.dominates.antisymm founded reached dominates)
  · rw [if_neg same, Nat.zero_add]
    by_cases dominates : view.Dominates root id target
    · obtain ⟨next, down, dominates'⟩ := exists_immediatelyDominates founded below dominates same
      have reaches := dominates'.reaches below
      have nameable' := nameable_of_reaches leaves tallies reaches.1 reaches.2 nameable
      have member := (mem_placedAt_iff leaves tallies reached reaches.1 nameable').mpr down
      have only : ∀ other ∈ view.placedAt root id (view.boundAt root id),
          decide (view.Dominates root other target) = true ↔ (other == next) = true := by
        intro other member'
        rw [decide_eq_true_iff, beq_iff_eq]
        constructor
        · intro above
          exact (immediate other member' above).unique founded below down above dominates'
        · rintro rfl
          exact dominates'
      rw [if_pos dominates, List.countP_congr only]
      exact List.count_eq_one_of_mem (nodup_placedAt id) member
    · rw [if_neg dominates, List.countP_eq_zero]
      intro other member
      rw [decide_eq_true_iff]
      exact fun above => dominates ((immediate other member above).dominates.trans above)

open Classical in
theorem count_plains {tree : SharedTree ι} {id : ι} {ids : List ι}
    (arranged : tree.Arranged view (view.boundAt root) (view.Named root) id ids)
    (reached : view.Reaches root id) (planned : ids ⊆ view.boundAt root id) {target : ι}
    (below : view.Reaches root target) (nameable : view.Nameable target) :
    tree.plains.count target = (if id = target then 1 else 0) +
      (view.placedAt root id ids).countP (fun other => view.Dominates root other target) := by
  induction arranged with
  | @plain id operands keys withName _ ih =>
    have each : operands.map (List.count target ∘ fun entry => entry.2.plains) =
        (OrderedMap.keys operands).map fun ref =>
          if decide (view.Dominates root ref target) && decide ¬view.Named root ref
          then 1 else 0 := by
      rw [OrderedMap.keys, List.map_map]
      refine List.map_congr_left fun entry member => ?_
      simp only [Function.comp_apply]
      by_cases named : view.Named root entry.1
      · simp [withName entry member named, named]
      · have key : entry.1 ∈ OrderedMap.keys operands := List.mem_map_of_mem member
        rw [keys, mem_firstSeen] at key
        have reached' := reached.trans (.of_reference (key.resolve_left List.not_mem_nil))
        rw [ih entry member named reached' (List.Subset.refl _),
          countP_placedAt leaves tallies reached' below nameable]
        simp [named]
    rw [SharedTree.plains_plain, List.count_cons, List.count_flatMap, each, keys, ← countP_eq_sum,
      placedAt, List.append_nil, List.countP_filter, Nat.add_comm]
    simp only [beq_iff_eq]
  | @bind other id rest bound body _ _ ihBound ihBody =>
    obtain ⟨here, planned⟩ := List.cons_subset.mp planned
    have reached' := reaches_of_mem_placedAt leaves tallies reached (mem_placedAt.mpr (.inr here))
    rw [SharedTree.plains_bind, List.count_append, ihBound reached' (List.Subset.refl _),
      countP_placedAt leaves tallies reached' below nameable, ihBody reached planned, placedAt,
      placedAt, List.countP_append, List.countP_append, List.countP_cons]
    simp only [decide_eq_true_eq]
    omega

omit leaves tallies in
private theorem pairwise_coveredBy (root : ι) {id : ι} (founded : view.Founded id) :
    (view.coveredBy root id).Pairwise fun first second => ¬view.Reaches first second :=
  founded.pairwise_postorder.filter _

section Body

variable {id target : ι} {rest ids : List ι} {body : SharedTree ι} (reached : view.Reaches root id)
  (suffix : target :: rest <:+ view.coveredBy root id) (named : view.Named root target)
  (kept : ∀ other, other ∈ ids ↔ other ∈ rest ∧ view.Named root other)
  (arranged : body.Arranged view (view.boundAt root) (view.Named root) id ids)
include reached suffix named kept arranged

omit leaves tallies reached named arranged in
private theorem subset_boundAt : ids ⊆ view.boundAt root id := by
  intro other inside
  obtain ⟨later, named⟩ := (kept other).mp inside
  exact mem_boundAt.mpr ⟨suffix.subset (List.mem_cons_of_mem target later), named⟩

private theorem not_mem_binders : target ∉ body.binders := by
  have founded := tallies.founded
  obtain ⟨_, there, immediate⟩ :=
    (mem_coveredBy_iff leaves tallies reached).mp (suffix.subset List.mem_cons_self)
  have planned := subset_boundAt suffix kept
  classical
  have apart : (view.placedAt root id ids).countP
      (fun other => view.Dominates root other target) = 0 := by
    rw [List.countP_eq_zero]
    intro other member
    rw [decide_eq_true_iff]
    intro dominates
    have reaches := dominates.reaches there
    have nameable := nameable_of_reaches leaves tallies reaches.1 reaches.2 named.1
    have down := (mem_placedAt_iff leaves tallies reached reaches.1 nameable).mp
      (mem_placedAt.mpr ((mem_placedAt.mp member).imp_right fun inside => planned inside))
    obtain rfl := down.unique founded there immediate dominates (dominates_self target)
    rcases mem_placedAt.mp member with ⟨_, unnamed⟩ | inside
    · exact unnamed named
    · obtain ⟨fresh, _⟩ := List.nodup_cons.mp (suffix.sublist.nodup ((nodup_postorder id).filter _))
      exact fresh ((kept other).mp inside).1
  have plains := count_plains leaves tallies arranged reached planned there named.1
  rw [arranged.count_plains named, apart, if_neg immediate.ne] at plains
  exact List.count_eq_zero.mp plains

omit named in
/-- A node that refers to the next node to be bound is in the body: what is bound further outside
finishes earlier and so cannot reach it. -/
private theorem mem_plains_of_reference {source : ι} (reached' : view.Reaches root source)
    (member : target ∈ view.references source) : source ∈ body.plains := by
  classical
  have founded := tallies.founded
  obtain ⟨_, _, immediate⟩ :=
    (mem_coveredBy_iff leaves tallies reached).mp (suffix.subset List.mem_cons_self)
  have nameable := nameable_of_reference leaves tallies reached' member
  rw [← List.count_pos_iff, count_plains leaves tallies arranged reached
    (subset_boundAt suffix kept) reached' nameable]
  by_cases same : id = source
  · rw [if_pos same]
    exact Nat.add_pos_left Nat.one_pos _
  · refine Nat.add_pos_right _ (List.countP_pos_iff.mpr ?_)
    obtain ⟨next, down, dominates⟩ := exists_immediatelyDominates founded reached'
      (immediate.dominates.of_reference immediate.ne member) same
    have reaches := dominates.reaches reached'
    have nameable' := nameable_of_reaches leaves tallies reaches.1 reaches.2 nameable
    refine ⟨next, mem_placedAt.mpr ?_, decide_eq_true dominates⟩
    rcases bound_or_operand leaves tallies reaches.1 nameable' down with ⟨named', covered⟩ | operand
    · obtain ⟨before, whole⟩ := suffix
      have order := pairwise_coveredBy root (founded.of_reaches reached)
      rw [← whole, List.pairwise_append] at order
      rw [← whole, List.mem_append, List.mem_cons] at covered
      rcases covered with early | rfl | late
      · exact absurd (reaches.2.trans (.of_reference member))
          (order.2.2 next early target List.mem_cons_self)
      · exact absurd reaches.2 ((founded.of_reaches reached').not_reaches_back member)
      · exact .inr ((kept next).mpr ⟨late, named'⟩)
    · exact .inl operand.symm

private theorem mem_free_of_named : target ∈ body.free := by
  obtain ⟨source, reached', found⟩ := named.2.nonempty
  have member := List.mem_of_getElem? found
  have plain := mem_plains_of_reference leaves tallies reached suffix kept arranged reached' member
  exact SharedTree.mem_free_of_mem_vars (arranged.mem_vars plain member named)
    (not_mem_binders leaves tallies reached suffix named kept arranged)

end Body

open Classical in
/-- Thinning out keeps the bindings of nodes with a name and turns all references to these into
variables. -/
theorem arranged_thin {tree result : SharedTree ι} {id : ι} {ids live : List ι}
    {context : Option Nat}
    (arranged : tree.Arranged view (view.coveredBy root) (fun _ => False) id ids)
    (reached : view.Reaches root id) (suffix : ids <:+ view.coveredBy root id)
    (start : ∀ outer, context = some outer → view.Nameable id → outer = view.paths root id)
    (run : tree.thin view tally context = .ok (result, live)) :
    result.Arranged view (view.boundAt root) (view.Named root) id
      (ids.filter fun target => view.Named root target) := by
  induction arranged generalizing context result live with
  | @plain id operands keys _ _ ih =>
    obtain ⟨outer, results, scope, rfl, rfl, related⟩ := SharedTree.thin_plain_eq_ok run
    have keys' := (SharedTree.keys_results related).trans keys
    -- Each operand becomes a variable if it has a name, and is thinned out in a scope of its own
    -- multiplicity otherwise.
    have each : ∀ result ∈ results, (view.Named root result.1.1 → result.1.2 = .var result.1.1) ∧
        (¬view.Named root result.1.1 → result.1.2.Arranged view (view.boundAt root)
          (view.Named root) result.1.1 (view.boundAt root result.1.1)) := by
      intro result member
      obtain ⟨entry, inside, same, multiplicity, counted, thins⟩ :=
        exists_left_of_mem related member
      have key : entry.1 ∈ OrderedMap.keys operands := List.mem_map_of_mem inside
      rw [keys, mem_firstSeen] at key
      have ref := key.resolve_left List.not_mem_nil
      have reached' := reached.trans (.of_reference ref)
      have nameable := nameable_of_reference leaves tallies reached ref
      obtain rfl : outer = view.paths root id := by
        rcases scope with scope | ⟨_, scope⟩
        · exact start outer scope nameable
        · rw [tallies.multiplicity_eq reached, nameable.frequency_eq] at scope
          exact (Except.ok.inj scope).symm
      obtain rfl : view.frequency root entry.1 = multiplicity :=
        Except.ok.inj ((tallies.multiplicity_eq reached').symm.trans counted)
      have occurs := tallies.founded.paths_lt_frequency_iff reached ref
      rw [same]
      rcases thins with ⟨more, isVar, _⟩ | ⟨fewer, thinned⟩
      · exact ⟨fun _ => isVar, fun unnamed => absurd (occurs.mp more) unnamed⟩
      · refine ⟨fun named => absurd (occurs.mpr named) (not_lt.mpr fewer), fun unnamed => ?_⟩
        refine ih entry inside not_false reached' (List.suffix_refl _) ?_ thinned
        rintro _ ⟨⟩ nameable'
        exact (tallies.founded.paths_reference reached ref).2.mpr
          fun several => unnamed ⟨nameable', several⟩
    refine .plain keys' ?_ ?_
    · intro entry kept named
      obtain ⟨result, member, rfl⟩ := List.mem_map.mp kept
      exact (each result member).1 named
    · intro entry kept unnamed
      obtain ⟨result, member, rfl⟩ := List.mem_map.mp kept
      exact (each result member).2 unnamed
  | @bind target id rest bound body _ _ ihBound ihBody =>
    obtain ⟨body', bodyLive, inner, cases⟩ := SharedTree.thin_bind_eq_ok run
    have arranged := ihBody reached ((List.suffix_cons target rest).trans suffix) start inner
    have used : target ∈ bodyLive ↔ view.Named root target := by
      rw [SharedTree.mem_live_iff inner]
      constructor
      · exact fun isFree => arranged.named_of_mem_vars (SharedTree.mem_vars_of_mem_free isFree)
      · exact fun named => mem_free_of_named leaves tallies reached suffix named (by simp) arranged
    rcases cases with ⟨live, bound', boundLive, outer, rfl, rfl⟩ | ⟨dead, rfl, rfl⟩
    · have named := used.mp live
      have covered := (mem_coveredBy_iff leaves tallies reached).mp
          (suffix.subset List.mem_cons_self)
      rw [List.filter_cons_of_pos (by simpa using named)]
      refine .bind ?_ arranged
      exact ihBound covered.2.1 (List.suffix_refl _) (by simp) outer
    · rw [List.filter_cons_of_neg (by simpa using mt used.mpr dead)]
      exact arranged

end Leaves

end View
end SharingRecovery
