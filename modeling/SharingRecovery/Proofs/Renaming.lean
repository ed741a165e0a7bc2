import SharingRecovery.Proofs.Standing

set_option autoImplicit false

/-!
Sharing recovery does not depend on the names of nodes. Two views may have different identities and
different depths, and one of them more nodes: if an injective renaming takes what a root reaches in
one view to the other, both recover the same tree up to the renaming, or fail in the same way.
-/

namespace SharingRecovery

section Outcomes

variable {ε α β α' β' : Type}

theorem bind_congr_of_ok {x : Except ε α} {f g : α → Except ε β}
    (same : ∀ a, x = .ok a → f a = g a) : x >>= f = x >>= g := by
  cases x with
  | error e => rfl
  | ok a => exact same a rfl

private theorem foldlM_map_eq {step : β → α → Except ε β} {step' : β' → α' → Except ε β'}
    {f : α → α'} {translate : β → β'} {as : List α}
    (each : ∀ a ∈ as, ∀ b, step' (translate b) (f a) = translate <$> step b a) (b : β) :
    (as.map f).foldlM step' (translate b) = translate <$> as.foldlM step b := by
  induction as generalizing b with
  | nil => rfl
  | cons a as ih =>
    obtain ⟨here, others⟩ := List.forall_mem_cons.mp each
    rw [List.map_cons, List.foldlM_cons, List.foldlM_cons, here, bind_map_left, map_bind]
    exact bind_congr fun b => ih others b

end Outcomes

section Names

variable {ι κ α β : Type} [DecidableEq ι] [DecidableEq κ] {f : ι → κ}

namespace OrderedMap

variable (injective : Function.Injective f) (g : α → β) (entries : OrderedMap ι α)
include injective

theorem get?_map (key : ι) : get? (entries.map (Prod.map f g)) (f key) =
    (get? entries key).map g := by
  unfold get?
  induction entries with
  | nil => rfl
  | cons entry entries ih =>
    rw [List.map_cons, List.lookup_cons, List.lookup_cons]
    by_cases same : key = entry.1
    · simp [same]
    · have different : f key ≠ f entry.1 := fun equal => same (injective equal)
      rw [beq_false_of_ne same, Prod.map_fst, beq_false_of_ne different]
      exact ih

theorem insert_map (key : ι) (value : α) :
    insert (entries.map (Prod.map f g)) (f key) (g value) =
      (insert entries key value).map (Prod.map f g) := by
  induction entries with
  | nil => rfl
  | cons entry entries ih =>
    obtain ⟨other, old⟩ := entry
    rw [List.map_cons, Prod.map_apply, insert, insert]
    by_cases same : other = key
    · rw [if_pos same, if_pos (congrArg f same)]
      rfl
    · have different : f other ≠ f key := fun equal => same (injective equal)
      rw [if_neg same, if_neg different, ih]
      rfl

theorem erase_map (key : ι) :
    erase (entries.map (Prod.map f g)) (f key) = (erase entries key).map (Prod.map f g) := by
  unfold erase
  rw [List.filter_map]
  congr 1
  apply List.filter_congr
  intro entry _
  simp [injective.eq_iff]

private theorem foldl_erase_map (keys : List ι) :
    (keys.map f).foldl erase (entries.map (Prod.map f g)) =
    (keys.foldl erase entries).map (Prod.map f g) := by
  induction keys generalizing entries with
  | nil => rfl
  | cons key keys ih =>
    rw [List.map_cons, List.foldl_cons, List.foldl_cons, erase_map injective, ih]

end OrderedMap

def Tally.map (f : ι → κ) (tally : Tally ι) : Tally κ :=
  ⟨List.map (Prod.map f id) tally.counts⟩

namespace SharedTree

mutual

def map (f : ι → κ) : SharedTree ι → SharedTree κ
  | .var id => .var (f id)
  | .bind id bound body => .bind (f id) (map f bound) (map f body)
  | .plain id operands => .plain (f id) (mapAll f operands)

def mapAll (f : ι → κ) : List (ι × SharedTree ι) → List (κ × SharedTree κ)
  | [] => []
  | (id, operand) :: rest => (f id, map f operand) :: mapAll f rest

end

omit [DecidableEq ι] [DecidableEq κ] in
private theorem mapAll_eq (operands : List (ι × SharedTree ι)) :
    mapAll f operands = operands.map (Prod.map f (map f)) := by
  induction operands with
  | nil => rfl
  | cons entry operands ih => rw [mapAll, ih, List.map_cons, Prod.map_apply]

omit [DecidableEq ι] [DecidableEq κ] in
theorem map_plain (id : ι) (operands : List (ι × SharedTree ι)) :
    (plain id operands).map f = .plain (f id) (operands.map (Prod.map f (map f))) := by
  rw [map, mapAll_eq]

end SharedTree

def Hoisted.map (f : ι → κ) (hoisted : Hoisted ι) : Hoisted κ :=
  ⟨hoisted.node.map f, List.map (Prod.map f id) hoisted.pending⟩

def Gathered.map (f : ι → κ) (gathered : Gathered ι) : Gathered κ :=
  ⟨List.map (Prod.map f (SharedTree.map f)) gathered.operands,
    List.map (Prod.map f id) gathered.pending⟩

def Memo.map (f : ι → κ) (memo : Memo ι) : Memo κ :=
  List.map (Prod.map f (Hoisted.map f)) memo

variable (injective : Function.Injective f)
include injective

theorem Tally.get?_map (tally : Tally ι) (key : ι) :
    (tally.map f).get? (f key) = tally.get? key := by
  refine (OrderedMap.get?_map injective _ tally.counts key).trans ?_
  rw [Option.map_id_fun, id]
  rfl

private theorem Tally.count_map (tally : Tally ι) (key : ι) :
    (tally.map f).count (f key) = tally.count key := by
  rw [count, count, tally.get?_map injective]

private theorem Tally.add_map (tally : Tally ι) (key : ι) :
    (tally.map f).add (f key) = Tally.map f <$> tally.add key := by
  rw [add, add, tally.get?_map injective, map_bind]
  refine bind_congr fun n => ?_
  exact congrArg (fun counts => Except.ok (Tally.mk counts))
    (OrderedMap.insert_map injective id tally.counts key n)

namespace Hoisted

private theorem addPending_map (pending : OrderedMap ι Nat) (entry : ι × Nat) :
    addPending (pending.map (Prod.map f id)) (Prod.map f id entry) =
      List.map (Prod.map f id) <$> addPending pending entry := by
  rw [addPending, addPending, Prod.map_fst, OrderedMap.get?_map injective, Option.map_id_fun, id,
    map_bind]
  refine bind_congr fun total => ?_
  exact congrArg Except.ok (OrderedMap.insert_map injective id pending entry.1 total)

private theorem covers_map (tally : Tally ι) (multiplicity : Nat) (key : ι) (n : Nat) :
    covers (tally.map f) multiplicity (f key) n = covers tally multiplicity key n := by
  rw [covers, covers, tally.count_map injective]

private theorem covered_map (tally : Tally ι) (multiplicity : Nat) (pending : OrderedMap ι Nat) :
    covered (tally.map f) multiplicity (pending.map (Prod.map f id)) =
      List.map f <$> covered tally multiplicity pending := by
  induction pending with
  | nil => rfl
  | cons entry pending ih =>
    obtain ⟨key, n⟩ := entry
    rw [List.map_cons, Prod.map_apply, covered, covered, id, covers_map injective, ih, map_bind]
    refine bind_congr fun isCovered => ?_
    rw [bind_map_left, map_bind]
    refine bind_congr fun others => ?_
    cases isCovered <;> rfl

private theorem wrap_map (memo : Memo ι) (node : SharedTree ι) (complete : List ι) :
    wrap (memo.map f) (node.map f) (complete.map f) =
    SharedTree.map f <$> wrap memo node complete := by
  induction complete with
  | nil => rfl
  | cons key complete ih =>
    rw [List.map_cons, wrap, wrap, ih, bind_map_left, map_bind]
    refine bind_congr fun body => ?_
    have found : (memo.map f).lookup (f key) = (memo.lookup key).map (Hoisted.map f) :=
      OrderedMap.get?_map injective (Hoisted.map f) memo key
    rw [found]
    cases memo.lookup key with
    | none => rfl
    | some hoisted => rfl

end Hoisted

namespace Gathered

private theorem add_map (gathered : Gathered ι) (operand : ι) (hoisted : Hoisted ι) :
    (gathered.map f).add (f operand) (hoisted.map f) =
    Gathered.map f <$> gathered.add operand hoisted := by
  rw [add, add, map_bind]
  have pending : (hoisted.map f).pending.foldlM Hoisted.addPending (gathered.map f).pending =
      List.map (Prod.map f id) <$> hoisted.pending.foldlM Hoisted.addPending gathered.pending :=
    foldlM_map_eq (fun entry _ found => Hoisted.addPending_map injective found entry)
      gathered.pending
  rw [pending, bind_map_left]
  refine bind_congr fun pending => ?_
  exact congrArg (fun operands => Except.ok (Gathered.mk operands _))
    (OrderedMap.insert_map injective (SharedTree.map f) gathered.operands operand hoisted.node)

private theorem close_map (gathered : Gathered ι) (tally : Tally ι) (memo : Memo ι)
    (multiplicity : Nat) (key : ι) :
    (gathered.map f).close (tally.map f) (memo.map f) multiplicity (f key) =
      Hoisted.map f <$> gathered.close tally memo multiplicity key := by
  have covered : Hoisted.covered (tally.map f) multiplicity (gathered.map f).pending =
      List.map f <$> Hoisted.covered tally multiplicity gathered.pending :=
    Hoisted.covered_map injective tally multiplicity gathered.pending
  rw [close, close, covered, bind_map_left, map_bind]
  refine bind_congr fun complete => ?_
  have wrapped := Hoisted.wrap_map injective memo (.plain key gathered.operands) complete
  rw [SharedTree.map_plain] at wrapped
  have erased : (complete.map f).foldl OrderedMap.erase (gathered.map f).pending =
      List.map (Prod.map f id) (complete.foldl OrderedMap.erase gathered.pending) :=
    OrderedMap.foldl_erase_map injective id gathered.pending complete
  rw [map_bind, erased]
  refine (congrArg (· >>= _) wrapped).trans ?_
  rw [bind_map_left]
  refine bind_congr fun node => ?_
  show Except.ok _ = Except.ok _
  rw [Hoisted.map]
  split
  · rw [← OrderedMap.insert_map injective id]
    rfl
  · rfl

end Gathered

end Names

namespace View

variable {ι κ : Type} [DecidableEq ι] [DecidableEq κ]

def gatherOperand (view : View ι) (tally : Tally ι) (depth : Nat) (state : Gathered ι × Memo ι)
    (operand : ι) : Except Fault (Gathered ι × Memo ι) := do
  let (hoisted, memo) ← view.hoistWithin tally depth operand state.2
  return (← state.1.add operand hoisted, memo)

private theorem hoistWithin_of_unknown {view : View ι} {tally : Tally ι} {depth : Nat} {id : ι}
    {memo : Memo ι} {refs : List ι} (unknown : memo.lookup id = none)
    (operands : view.operands id = .ok refs) : view.hoistWithin tally (depth + 1) id memo = (do
      let multiplicity ← view.multiplicity tally id
      let (gathered, memo) ← refs.foldlM (view.gatherOperand tally depth) (Gathered.empty, memo)
      let hoisted ← gathered.close tally memo multiplicity id
      return (hoisted, (id, hoisted) :: memo)) := by
  rw [hoistWithin, unknown, operands]
  rfl

/-- A renaming takes what a root reaches in one view to another view, and both views are deep
enough. -/
structure Embeds (view : View ι) (view' : View κ) (f : ι → κ) (root : ι) : Prop where
  injective : Function.Injective f
  operands : ∀ id, view.Reaches root id → view'.operands (f id) = List.map f <$> view.operands id
  isTrivial : ∀ id, view.Reaches root id → view'.isTrivial (f id) = view.isTrivial id
  self : view.identify root = .ok root
  self' : view'.identify (f root) = .ok (f root)
  founded : view.Founded root
  low : (view.unfolding root).height ≤ view.depth
  low' : (view.unfolding root).height ≤ view'.depth

variable {view : View ι} {view' : View κ} {f : ι → κ} {root : ι} (embeds : view.Embeds view' f root)
include embeds

private theorem Embeds.multiplicity {id : ι} (reached : view.Reaches root id) (tally : Tally ι) :
    view'.multiplicity (tally.map f) (f id) = view.multiplicity tally id := by
  rw [View.multiplicity, View.multiplicity, embeds.isTrivial id reached,
    tally.count_map embeds.injective]

private theorem Embeds.tallyWithin {id : ι} (reached : view.Reaches root id) {depth depth' : Nat}
    (low : (view.unfolding id).height ≤ depth) (low' : (view.unfolding id).height ≤ depth')
    (tally : Tally ι) : view'.tallyWithin depth' (tally.map f) (f id) =
      Tally.map f <$> view.tallyWithin depth tally id := by
  have founded := embeds.founded.of_reaches reached
  induction id, founded using Founded.induction generalizing depth depth' tally with
  | step id founded ih =>
    obtain ⟨depth, rfl⟩ := Nat.exists_eq_succ_of_ne_zero (founded.height_pos.trans_le low).ne'
    obtain ⟨depth', rfl⟩ := Nat.exists_eq_succ_of_ne_zero (founded.height_pos.trans_le low').ne'
    rw [View.tallyWithin, View.tallyWithin, embeds.isTrivial id reached, map_bind]
    refine bind_congr fun trivial => ?_
    have operands (tally : Tally ι) :
        (view'.operands (f id) >>= List.foldlM (view'.tallyWithin depth') (tally.map f)) =
          Tally.map f <$> (view.operands id >>= List.foldlM (view.tallyWithin depth) tally) := by
      rw [embeds.operands id reached, founded.operands]
      refine foldlM_map_eq (fun ref member tally => ?_) tally
      have below := founded.height_lt member
      exact ih ref member (reached.tail member) (by omega) (by omega) tally
    cases trivial with
    | true => exact operands tally
    | false =>
      show (tally.map f).add (f id) >>= _ = Tally.map f <$> (tally.add id >>= _)
      rw [tally.add_map embeds.injective, bind_map_left, map_bind]
      exact bind_congr operands

theorem Embeds.tally : view'.tally (f root) = Tally.map f <$> view.tally root := by
  rw [View.tally_eq, View.tally_eq, embeds.self, embeds.self']
  exact embeds.tallyWithin (.refl root) embeds.low embeds.low' .empty

def mapHoisted (f : ι → κ) (result : Hoisted ι × Memo ι) : Hoisted κ × Memo κ :=
  (result.1.map f, result.2.map f)

def mapGathered (f : ι → κ) (state : Gathered ι × Memo ι) : Gathered κ × Memo κ :=
  (state.1.map f, state.2.map f)

theorem Embeds.hoistWithin {id : ι} (reached : view.Reaches root id) {depth depth' : Nat}
    (low : (view.unfolding id).height ≤ depth) (low' : (view.unfolding id).height ≤ depth')
    (tally : Tally ι) (memo : Memo ι) : view'.hoistWithin (tally.map f) depth' (f id) (memo.map f) =
      mapHoisted f <$> view.hoistWithin tally depth id memo := by
  have founded := embeds.founded.of_reaches reached
  induction id, founded using Founded.induction generalizing depth depth' memo with
  | step id founded ih =>
    obtain ⟨depth, rfl⟩ := Nat.exists_eq_succ_of_ne_zero (founded.height_pos.trans_le low).ne'
    obtain ⟨depth', rfl⟩ := Nat.exists_eq_succ_of_ne_zero (founded.height_pos.trans_le low').ne'
    have known : (memo.map f).lookup (f id) = (memo.lookup id).map (Hoisted.map f) :=
      OrderedMap.get?_map embeds.injective (Hoisted.map f) memo id
    cases found : memo.lookup id with
    | some hoisted =>
      rw [View.hoistWithin, View.hoistWithin, known, found]
      rfl
    | none =>
      rw [found] at known
      have operands' : view'.operands (f id) = .ok ((view.references id).map f) := by
        rw [embeds.operands id reached, founded.operands]
        rfl
      have operand : ∀ ref ∈ view.references id, ∀ state,
          view'.gatherOperand (tally.map f) depth' (mapGathered f state) (f ref) =
            mapGathered f <$> view.gatherOperand tally depth state ref := by
        rintro ref member ⟨gathered, memo⟩
        have below := founded.height_lt member
        have hoisted : view'.hoistWithin (tally.map f) depth' (f ref) (memo.map f) =
            mapHoisted f <$> view.hoistWithin tally depth ref memo :=
          ih ref member (reached.tail member) (by omega) (by omega) memo
        rw [gatherOperand, gatherOperand]
        dsimp only [mapGathered]
        rw [hoisted, bind_map_left, map_bind]
        refine bind_congr ?_
        rintro ⟨hoisted, memo⟩
        rw [map_bind]
        dsimp only [mapHoisted]
        rw [Gathered.add_map embeds.injective, bind_map_left]
        rfl
      have gathered : ((view.references id).map f).foldlM (view'.gatherOperand (tally.map f) depth')
          (Gathered.empty, memo.map f) = mapGathered f <$>
            (view.references id).foldlM (view.gatherOperand tally depth) (Gathered.empty, memo) :=
        foldlM_map_eq operand (Gathered.empty, memo)
      rw [hoistWithin_of_unknown known operands', hoistWithin_of_unknown found founded.operands,
        embeds.multiplicity reached, gathered, map_bind]
      refine bind_congr fun multiplicity => ?_
      rw [bind_map_left, map_bind]
      refine bind_congr ?_
      rintro ⟨gathered, memo⟩
      dsimp only [mapGathered]
      rw [Gathered.close_map embeds.injective, bind_map_left, map_bind]
      rfl

def mapThinned (f : ι → κ) (result : SharedTree ι × List ι) : SharedTree κ × List κ :=
  (result.1.map f, result.2.map f)

private theorem Embeds.thinOperands {operands : List (ι × SharedTree ι)}
    (tally : Tally ι) (outer : Nat) (reached : ∀ entry ∈ operands, view.Reaches root entry.1)
    (each : ∀ entry ∈ operands, (entry.2.map f).thin view' (tally.map f) (some outer) =
      mapThinned f <$> entry.2.thin view tally (some outer)) :
    SharedTree.thinOperands view' (tally.map f) outer
    (operands.map (Prod.map f (SharedTree.map f))) =
      Prod.map (List.map (Prod.map f (SharedTree.map f))) (List.map f) <$>
        SharedTree.thinOperands view tally outer operands := by
  induction operands with
  | nil => rfl
  | cons entry operands ih =>
    obtain ⟨id, operand⟩ := entry
    obtain ⟨here, reached⟩ := List.forall_mem_cons.mp reached
    obtain ⟨first, each⟩ := List.forall_mem_cons.mp each
    rw [List.map_cons, Prod.map_apply, SharedTree.thinOperands, SharedTree.thinOperands,
      embeds.multiplicity here, map_bind]
    refine bind_congr fun multiplicity => ?_
    have rest (operand : SharedTree ι) (live : List ι) :
        (do
          let rest ← SharedTree.thinOperands view' (tally.map f) outer
            (operands.map (Prod.map f (SharedTree.map f)))
          return ((f id, operand.map f) :: rest.1, live.map f ++ rest.2)) =
          Prod.map (List.map (Prod.map f (SharedTree.map f))) (List.map f) <$> (do
            let rest ← SharedTree.thinOperands view tally outer operands
            return ((id, operand) :: rest.1, live ++ rest.2)) := by
      rw [ih reached each, bind_map_left, map_bind]
      refine bind_congr fun rest => ?_
      refine congrArg Except.ok (Prod.ext rfl ?_)
      exact List.map_append.symm
    by_cases more : outer < multiplicity
    · rw [if_pos more, if_pos more]
      exact rest (.var id) [id]
    · rw [if_neg more, if_neg more, first, bind_map_left, map_bind]
      exact bind_congr fun thinned => rest thinned.1 thinned.2

theorem Embeds.thin {tree : SharedTree ι} {id : ι} (stands : tree.Stands view id)
    (reached : view.Reaches root id) (tally : Tally ι) (context : Option Nat) :
    (tree.map f).thin view' (tally.map f) context =
    mapThinned f <$> tree.thin view tally context := by
  induction stands generalizing context with
  | var id => rfl
  | @bind id target bound body _ below _ _ ihBound ihBody =>
    rw [SharedTree.map, SharedTree.thin, SharedTree.thin, ihBody reached, bind_map_left, map_bind]
    refine bind_congr ?_
    rintro ⟨body, live⟩
    dsimp only [mapThinned]
    have mentioned : f id ∈ live.map f ↔ id ∈ live := List.mem_map_of_injective embeds.injective
    have others : (live.map f).filter (· ≠ f id) = (live.filter (· ≠ id)).map f := by
      rw [List.filter_map]
      congr 1
      apply List.filter_congr
      intro other _
      simp [embeds.injective.eq_iff]
    by_cases used : id ∈ live
    · rw [if_pos used, if_pos (mentioned.mpr used), ihBound (reached.trans below),
        bind_map_left, map_bind, others]
      refine bind_congr fun bound => ?_
      refine congrArg Except.ok (Prod.ext rfl ?_)
      exact List.map_append.symm
    · rw [if_neg used, if_neg (mt mentioned.mp used)]
      rfl
  | @plain id refs operands listed covers _ ih =>
    have referred : ∀ entry ∈ operands, view.Reaches root entry.1 := by
      intro entry member
      have ref := (covers entry.1).mp (List.mem_map_of_mem member)
      exact reached.tail (references_eq listed ▸ ref)
    have scope (outer : Nat) := embeds.thinOperands tally outer referred fun entry member =>
      ih entry member (referred entry member) (some outer)
    have whole (outer : Nat) : (do
          let thinned ← SharedTree.thinOperands view' (tally.map f) outer
            (operands.map (Prod.map f (SharedTree.map f)))
          return (SharedTree.plain (f id) thinned.1, thinned.2)) =
        mapThinned f <$> (do
          let thinned ← SharedTree.thinOperands view tally outer operands
          return (SharedTree.plain id thinned.1, thinned.2)) := by
      rw [scope outer, bind_map_left, map_bind]
      refine bind_congr fun thinned => ?_
      refine congrArg Except.ok (Prod.ext ?_ rfl)
      exact (SharedTree.map_plain id thinned.1).symm
    rw [SharedTree.map_plain]
    cases context with
    | some outer =>
      rw [SharedTree.thin, SharedTree.thin]
      exact whole outer
    | none =>
      rw [SharedTree.thin, SharedTree.thin, embeds.multiplicity reached, map_bind]
      exact bind_congr whole

/-- What is recovered from a view does not depend on how its nodes are named, on how deep the view
is said to be, or on nodes that are not reached. -/
theorem Embeds.recover : view'.recover (f root) = SharedTree.map f <$> view.recover root := by
  rw [View.recover, View.recover, embeds.tally, bind_map_left, map_bind]
  refine bind_congr fun tally => ?_
  have hoisted : view'.hoist (tally.map f) (f root) = mapHoisted f <$> view.hoist tally root :=
    embeds.hoistWithin (.refl root) embeds.low embeds.low' tally []
  rw [hoisted, bind_map_left, map_bind]
  refine bind_congr_of_ok ?_
  rintro ⟨hoisted, memo⟩ hoist
  have stands := (stands_of_hoistWithin hoist).1
  dsimp only [mapHoisted, Hoisted.map]
  rw [List.isEmpty_map, embeds.thin stands (.refl root)]
  split
  · rfl
  · rw [bind_map_left, map_bind]
    refine bind_congr ?_
    rintro ⟨tree, live⟩
    cases live <;> rfl

end View
end SharingRecovery
