import SharingRecovery.Lowering.Basic
import SharingRecovery.Proofs.Closing
import SharingRecovery.Proofs.Expansion
import SharingRecovery.Proofs.Unshared

set_option autoImplicit false

/-!
Lowering preserves the program: with all `let`s inlined, a lowered program is the direct translation
of the program without sharing. A tree is lowered in a scope; with the translation of every key of
the scope in the place of its variable, the result is the translation of the node that the tree
stands for.
-/

namespace SharingRecovery

theorem LoweringError.ofFault_eq_ok_iff {α : Type} {x : Except Fault α} {a : α} :
    ofFault x = .ok a ↔ x = .ok a := by
  cases x <;> simp [ofFault, Except.mapError]

namespace Scope

variable {κ α : Type} [DecidableEq κ]

def terms (entries : List (κ × α)) (i : Nat) : Option α :=
  entries[i]?.map Prod.snd

omit [DecidableEq κ] in
theorem terms_nil : terms ([] : List (κ × α)) = fun _ => none :=
  rfl

omit [DecidableEq κ] in
theorem terms_cons (key : κ) (term : α) (entries : List (κ × α)) :
    terms ((key, term) :: entries) = Term.push term (terms entries) := by
  funext i
  cases i <;> rfl

omit [DecidableEq κ] in
theorem keys_foldl_push (keys : List κ) (scope : Scope κ) :
    (keys.foldl push scope).keys = keys.reverse ++ scope.keys := by
  induction keys generalizing scope with
  | nil => rfl
  | cons key keys ih =>
    rw [List.foldl_cons, ih, List.reverse_cons, List.append_assoc]
    rfl

private theorem terms_of_index {scope : Scope κ} {entries : List (κ × α)}
    (keys : scope.keys = entries.map Prod.fst) {key : κ} {i : Nat}
    (found : scope.index key = .ok i) : ∃ term, terms entries i = some term ∧
    entries.lookup key = some term := by
  rw [index, Fault.require_eq_ok_iff, index?, keys] at found
  clear keys
  induction entries generalizing i with
  | nil => simp at found
  | cons entry entries ih =>
    rw [List.map_cons, List.idxOf?_cons] at found
    rw [List.lookup_cons]
    by_cases same : entry.1 = key
    · rw [same, beq_self_eq_true, if_pos rfl] at found
      rw [same, beq_self_eq_true, ← Option.some.inj found]
      exact ⟨entry.2, rfl, rfl⟩
    · rw [beq_false_of_ne same, if_neg Bool.false_ne_true] at found
      obtain ⟨j, there, rfl⟩ := Option.map_eq_some_iff.mp found
      rw [beq_false_of_ne (Ne.symm same)]
      exact ih there

end Scope

namespace ScalarTerm

variable {arrays : Nat → Option ArrayTerm} {scalars : Nat → Option ScalarTerm}

private theorem inline_project (e : ScalarTerm) (path : Path) :
    (e.project path).inline = e.inline.project path := by
  induction path generalizing e with
  | nil => rfl
  | cons i path ih => exact ih (.op (.prj i e))

private theorem close_project (e : ScalarTerm) (path : Path) :
    (e.project path).close arrays scalars = (e.close arrays scalars).map (project · path) := by
  induction path generalizing e with
  | nil => exact Option.map_id'.symm
  | cons i path ih =>
    refine (ih (.op (.prj i e))).trans ?_
    rw [close_op]
    cases found : e.close arrays scalars <;> simp [ScalarOp.mapM, found, project]

theorem inline_op (op : ScalarOp ArrayTerm ScalarTerm) :
    (ScalarTerm.op op).inline = .op (op.mapOperands ArrayTerm.inline inline) :=
  fold_op Term.inlineForm op

theorem ofKey_eq_ok {scope : Scope ScalarKey} {key : ScalarKey} {e : ScalarTerm}
    (run : ofKey scope key = .ok e) : ∃ i, scope.index key = .ok i ∧ e = .var i := by
  obtain ⟨i, found, run⟩ := bind_eq_ok_iff.mp run
  exact ⟨i, LoweringError.ofFault_eq_ok_iff.mp found, (pure_eq_ok_iff.mp run).symm⟩

end ScalarTerm

theorem ArrayTerm.inline_op (op : ArrayOp ArrayTerm ScalarTerm FunTerm FunTerm) :
    (ArrayTerm.op op).inline =
      .op (op.mapOperands inline ScalarTerm.inline FunTerm.inline FunTerm.inline) :=
  fold_op Term.inlineForm op

theorem ArrayOp.eq_stencil_of_mem_parts {A E F S : Type} {op : ArrayOp A E F S} {f : S}
    (member : Part.stencil f ∈ op.parts) : ∃ boundary xs, op = .stencil f boundary xs := by
  cases op <;> simp_all [parts]

namespace Surroundings

variable {g : Graph} {share : Bool} {around : Surroundings} {arrays : Nat → Option ArrayTerm}
  {array : ArrayKey → Option ArrayTerm} {start : List (ScalarKey × ScalarTerm)}

def param? (around : Surroundings) (start : List (ScalarKey × ScalarTerm)) (key : ScalarKey) :
    Option ScalarTerm :=
  match around.stencil with
  | none => start.lookup key
  | some (argument, paths) =>
    match paths.lookup key with
    | none => start.lookup key
    | some path => (start.lookup argument).map (ScalarTerm.project · path)

/-- The arrays that scalar code reads are lowered to what they should be, and the argument of a
stencil is a placeholder. -/
structure Matches (around : Surroundings) (g : Graph) (arrays : Nat → Option ArrayTerm)
    (array : ArrayKey → Option ArrayTerm) : Prop where
  array_eq : ∀ key t, around.array key = .ok t →
    ∃ u, t.inline.close arrays = some u ∧ array key = some u
  argument : ∀ argument paths, around.stencil = some (argument, paths) →
    g.scalar? argument = some .param

private theorem close_lowerParam (fits : around.Matches g arrays array) {scope : Scope ScalarKey}
    {entries : List (ScalarKey × ScalarTerm)} (keys : scope.keys = entries.map Prod.fst)
    (params : ∀ other, g.scalar? other = some .param → entries.lookup other = start.lookup other)
    {key : ScalarKey} (isParam : g.scalar? key = some .param) {e : ScalarTerm}
    (run : around.lowerParam scope key = .ok e) :
    ∃ v, e.inline.close arrays (Scope.terms entries) = some v ∧
    around.param? start key = some v := by
  -- A placeholder by itself: nothing that was bound later stands in its way.
  have direct : ∀ {other e}, g.scalar? other = some .param → ScalarTerm.ofKey scope other = .ok e →
      ∃ v, e.inline.close arrays (Scope.terms entries) = some v ∧ start.lookup other = some v := by
    intro other e isParam run
    obtain ⟨i, found, rfl⟩ := ScalarTerm.ofKey_eq_ok run
    obtain ⟨v, here, known⟩ := Scope.terms_of_index keys found
    exact ⟨v, here, (params other isParam).symm.trans known⟩
  rw [lowerParam] at run
  rw [param?]
  cases stencil : around.stencil with
  | none =>
    rw [stencil] at run
    exact direct isParam run
  | some within =>
    obtain ⟨argument, paths⟩ := within
    rw [stencil] at run
    dsimp only at run ⊢
    cases found : paths.lookup key with
    | none =>
      rw [found] at run
      exact direct isParam run
    | some path =>
      rw [found] at run
      obtain ⟨base, lowered, run⟩ := bind_eq_ok_iff.mp run
      rw [pure_eq_ok_iff] at run
      subst run
      obtain ⟨v, closes, known⟩ := direct (fits.argument argument paths stencil) lowered
      refine ⟨v.project path, ?_, ?_⟩
      · rw [ScalarTerm.inline_project, ScalarTerm.close_project, closes]
        rfl
      · rw [known]
        rfl

theorem lowerParam_eq_ok {scope : Scope ScalarKey} {key : ScalarKey} {e : ScalarTerm}
    (run : around.lowerParam scope key = .ok e) :
    ∃ other base path, ScalarTerm.ofKey scope other = .ok base ∧ e = base.project path := by
  rw [lowerParam] at run
  split at run
  · exact ⟨key, e, [], run, rfl⟩
  · split at run
    · exact ⟨key, e, [], run, rfl⟩
    · obtain ⟨base, lowered, run⟩ := bind_eq_ok_iff.mp run
      exact ⟨_, base, _, lowered, (pure_eq_ok_iff.mp run).symm⟩

theorem lowerTree_bind_eq_ok {scope : Scope ScalarKey} {key : ScalarKey}
    {bound body : SharedTree ScalarKey} {e : ScalarTerm}
    (run : around.lowerTree g scope (.bind key bound body) = .ok e) :
    ∃ bound' body', around.lowerTree g scope bound = .ok bound' ∧
      around.lowerTree g (scope.push key) body = .ok body' ∧ e = .letIn bound' body' := by
  obtain ⟨bound', outer, run⟩ := bind_eq_ok_iff.mp run
  obtain ⟨body', inner, run⟩ := bind_eq_ok_iff.mp run
  exact ⟨bound', body', outer, inner, (pure_eq_ok_iff.mp run).symm⟩

theorem lookup_lowerOperands (scope : Scope ScalarKey) (key : ScalarKey)
    (operands : List (ScalarKey × SharedTree ScalarKey)) :
    (lowerOperands around g scope operands).lookup key =
      (operands.lookup key).map (lowerTree around g scope) :=
  OrderedMap.lookup_eq_map (by rw [lowerOperands]) (fun _ _ _ => by rw [lowerOperands]) operands key

section Node

variable {scope : Scope ScalarKey} {key : ScalarKey}
  {operands : List (ScalarKey × Except LoweringError ScalarTerm)}

theorem lowerNode_of_param (found : g.scalar? key = some .param) :
    around.lowerNode g scope key operands = around.lowerParam scope key := by
  rw [lowerNode, Graph.scalarNode_eq_ok_iff.mpr found]
  rfl

theorem lowerNode_of_op {operation : ScalarOp ArrayKey ScalarKey}
    (found : g.scalar? key = some (.op operation)) : around.lowerNode g scope key operands =
      operation.mapM around.array (resultAt (.fault .missingScalarOperand) operands) >>=
        fun lowered => pure (.op lowered) := by
  rw [lowerNode, Graph.scalarNode_eq_ok_iff.mpr found]
  show operation.mapM around.array _ >>= _ = _
  refine congrArg (· >>= _) (congrArg (operation.mapM around.array) (funext fun ref => ?_))
  rw [resultAt]
  cases operands.lookup ref <;> rfl

theorem lowerNode_eq_ok {e : ScalarTerm} (run : around.lowerNode g scope key operands = .ok e) :
    g.scalar? key = some .param ∧ around.lowerParam scope key = .ok e ∨
      ∃ operation lowered, g.scalar? key = some (.op operation) ∧
        operation.mapM around.array (resultAt (.fault .missingScalarOperand) operands) =
        .ok lowered ∧ e = .op lowered := by
  obtain ⟨node, fetched, _⟩ := bind_eq_ok_iff.mp run
  have found := Graph.scalarNode_eq_ok_iff.mp (LoweringError.ofFault_eq_ok_iff.mp fetched)
  cases node with
  | param => exact .inl ⟨found, lowerNode_of_param found ▸ run⟩
  | op operation =>
    rw [lowerNode_of_op found] at run
    obtain ⟨lowered, mapped, run⟩ := bind_eq_ok_iff.mp run
    exact .inr ⟨operation, lowered, found, mapped, (pure_eq_ok_iff.mp run).symm⟩

end Node

theorem not_param_of_nameable {key : ScalarKey} (nameable : (g.scalarView share).Nameable key) :
    g.scalar? key ≠ some .param := by
  intro isParam
  obtain ⟨node, found, run⟩ := bind_eq_ok_iff.mp nameable
  obtain rfl := Option.some.inj (isParam.symm.trans (Graph.scalarNode_eq_ok_iff.mp found))
  simp [ScalarNode.isTrivial, pure, Except.pure] at run

private theorem close_lowerNode (fits : around.Matches g arrays array) {scope : Scope ScalarKey}
    {entries : List (ScalarKey × ScalarTerm)} (keys : scope.keys = entries.map Prod.fst)
    (params : ∀ other, g.scalar? other = some .param → entries.lookup other = start.lookup other)
    {key : ScalarKey} (founded : (g.scalarView share).Founded key)
    (low : ((g.scalarView share).unfolding key).height ≤ g.scalarDepth)
    {operands : List (ScalarKey × Except LoweringError ScalarTerm)}
    (each : ∀ ref e, operands.lookup ref = some (.ok e) →
      ∃ v, e.inline.close arrays (Scope.terms entries) = some v ∧
        g.unsharedScalar array (around.param? start) ref = some v)
    {e : ScalarTerm} (run : around.lowerNode g scope key operands = .ok e) :
    ∃ v, e.inline.close arrays (Scope.terms entries) = some v ∧
      g.unsharedScalar array (around.param? start) key = some v := by
  rw [Graph.unsharedScalar_eq founded low]
  obtain ⟨found, run⟩ | ⟨operation, lowered, found, mapped, rfl⟩ := lowerNode_eq_ok run
  · rw [found]
    exact close_lowerParam fits keys params found run
  · rw [found]
    have parts : operation.Forall
        (fun xs => ∀ t, around.array xs = .ok t →
          ∃ u, t.inline.close arrays = some u ∧ array xs = some u)
        (fun ref => ∀ e, resultAt (.fault .missingScalarOperand) operands ref = .ok e →
          ∃ v, e.inline.close arrays (Scope.terms entries) = some v ∧
            g.unsharedScalar array (around.param? start) ref = some v) :=
      ⟨fun xs _ t => fits.array_eq xs t, fun ref _ e lowered =>
        each ref e (resultAt_eq_ok_iff.mp lowered)⟩
    obtain ⟨closed, after, direct⟩ := ScalarOp.mapM_mapM mapped parts
    refine ⟨.op closed, ?_, congrArg (Option.map ScalarTerm.op) direct⟩
    rw [ScalarTerm.inline_op, ScalarTerm.close_op, ScalarOp.mapM_mapOperands]
    exact congrArg (Option.map ScalarTerm.op) after

theorem close_lowerTree (fits : around.Matches g arrays array) {tree : SharedTree ScalarKey}
    {key : ScalarKey} (stands : tree.Stands (g.scalarView share) key)
    (founded : (g.scalarView share).Founded key)
    (low : ((g.scalarView share).unfolding key).height ≤ g.scalarDepth) {scope : Scope ScalarKey}
    {entries : List (ScalarKey × ScalarTerm)} (keys : scope.keys = entries.map Prod.fst)
    (known : ∀ other ∈ tree.free, ∃ v, entries.lookup other = some v ∧
      g.unsharedScalar array (around.param? start) other = some v)
    (params : ∀ other, g.scalar? other = some .param → entries.lookup other = start.lookup other)
    {e : ScalarTerm} (run : around.lowerTree g scope tree = .ok e) :
    ∃ v, e.inline.close arrays (Scope.terms entries) = some v ∧
      g.unsharedScalar array (around.param? start) key = some v := by
  induction stands generalizing scope entries e with
  | var key =>
    obtain ⟨i, found, rfl⟩ := ScalarTerm.ofKey_eq_ok run
    obtain ⟨v, here, looked⟩ := Scope.terms_of_index keys found
    obtain ⟨v', looked', direct⟩ := known key (SharedTree.mem_free_var.mpr rfl)
    obtain rfl := Option.some.inj (looked.symm.trans looked')
    exact ⟨v, here, direct⟩
  | @bind id target bound body nameable below _ _ ihBound ihBody =>
    obtain ⟨bound', body', lowered, lowered', rfl⟩ := lowerTree_bind_eq_ok run
    obtain ⟨value, closes, direct⟩ := ihBound (founded.of_reaches below)
      ((founded.height_le_of_reaches below).trans low) keys
      (fun other inside => known other (SharedTree.mem_free_bind.mpr (.inl inside))) params lowered
    -- What is bound is no placeholder, so those are still found where they were.
    have kept : ∀ other, g.scalar? other = some .param →
        ((id, value) :: entries).lookup other = start.lookup other := by
      intro other isParam
      have different : other ≠ id := fun same => not_param_of_nameable nameable (same ▸ isParam)
      rw [List.lookup_cons, beq_false_of_ne different]
      exact params other isParam
    obtain ⟨v, closes', direct'⟩ := ihBody founded low (congrArg (id :: ·) keys)
      (SharedTree.known_of_bind direct known) kept lowered'
    refine ⟨v, ?_, direct'⟩
    rw [Scope.terms_cons] at closes'
    exact (ScalarTerm.close_instantiate closes _).trans closes'
  | @plain id refs operands listed covers _ ih =>
    refine close_lowerNode fits keys params founded low (fun ref e looked => ?_) run
    rw [lookup_lowerOperands] at looked
    obtain ⟨operand, here, lowered⟩ := Option.map_eq_some_iff.mp looked
    have inside := OrderedMap.mem_of_get? here
    have member : ref ∈ refs := (covers ref).mp (OrderedMap.mem_keys_iff.mpr ⟨operand, here⟩)
    have below := View.Reaches.of_reference (View.references_eq listed ▸ member)
    exact ih _ inside (founded.of_reaches below)
      ((founded.height_le_of_reaches below).trans low) keys
      (fun other free => known other (SharedTree.mem_free_plain.mpr ⟨_, inside, free⟩))
      params lowered

theorem close_lowerScalar (fits : around.Matches g arrays array) {scope : Scope ScalarKey}
    (keys : scope.keys = start.map Prod.fst)
    (own : ∀ i e, Scope.terms start i = some e → e = .var i)
    {root : ScalarKey} {e : ScalarTerm} (run : around.lowerScalar g share scope root = .ok e) :
    ∃ v, e.inline.close arrays Term.same = some v ∧
      g.unsharedScalar array (around.param? start) root = some v := by
  obtain ⟨tree, recovered, run⟩ := bind_eq_ok_iff.mp run
  rw [LoweringError.ofFault_eq_ok_iff] at recovered
  obtain ⟨founded, low⟩ := (g.consistent_scalarView share).founded_of_recover recovered
  obtain ⟨stands, closed⟩ := View.stands_of_recover recovered
  obtain ⟨v, closes, direct⟩ :=
    close_lowerTree fits stands founded low keys (by simp [closed]) (fun _ _ => rfl) run
  refine ⟨v, ScalarTerm.close_mono (fun i term found => ?_) closes, direct⟩
  rw [own i term found]
  rfl

end Surroundings

namespace FunTerm

private theorem inline_ofBody (n : Nat) (e : ScalarTerm) :
    (ofBody n e).inline = ofBody n e.inline := by
  induction n with
  | zero => rfl
  | succ n ih => exact congrArg lam ih

private theorem close_ofBody {arrays : Nat → Option ArrayTerm} (n : Nat) (e : ScalarTerm) :
    (ofBody n e).close arrays = (e.close arrays Term.same).map (ofBody n) := by
  induction n with
  | zero => rfl
  | succ n ih =>
    refine (congrArg (Option.map lam) ih).trans ?_
    rw [Option.map_map]
    rfl

end FunTerm

namespace Lambda

def entries (f : Lambda) : List (ScalarKey × ScalarTerm) :=
  f.params.zipIdx.reverse.map (Prod.map id fun i => .var (f.arity - 1 - i))

private theorem lookup_entries (f : Lambda) (key : ScalarKey) :
    f.entries.lookup key = f.param? key :=
  OrderedMap.lookup_eq_map List.map_nil (fun _ _ _ => List.map_cons) _ key

private theorem keys_entries (f : Lambda) :
    (f.params.foldl Scope.push .empty).keys = f.entries.map Prod.fst := by
  rw [Scope.keys_foldl_push, entries, List.map_map, List.map_reverse, Prod.map_fst',
    Function.id_comp, List.zipIdx_map_fst]
  exact List.append_nil _

private theorem eq_var_of_terms_entries (f : Lambda) (i : Nat) (e : ScalarTerm)
    (found : Scope.terms f.entries i = some e) : e = .var i := by
  rw [Scope.terms, entries, List.getElem?_map, Option.map_map] at found
  obtain ⟨⟨key, j⟩, here, rfl⟩ := Option.map_eq_some_iff.mp found
  have inside : i < f.params.length := by
    simpa using (List.getElem?_eq_some_iff.mp here).1
  rw [List.getElem?_reverse (by simpa using inside), List.getElem?_zipIdx,
    List.length_zipIdx] at here
  obtain ⟨_, _, same⟩ := Option.map_eq_some_iff.mp here
  obtain ⟨_, rfl⟩ := Prod.mk.inj same
  refine congrArg ScalarTerm.var ?_
  change f.params.length - 1 - (0 + (f.params.length - 1 - i)) = i
  omega

end Lambda

namespace Lowering

variable {l : Lowering} {share : Bool} {around : Surroundings} {arrays : Nat → Option ArrayTerm}
  {array : ArrayKey → Option ArrayTerm}

private theorem close_lowerLambda (fits : around.Matches l.graph arrays array)
    (plain : around.stencil = none) {f : Lambda} {t : FunTerm}
    (run : l.lowerLambda around f = .ok t) : ∃ u, t.inline.close arrays = some u ∧
      FunTerm.ofBody f.arity <$> l.graph.unsharedScalar array f.param? f.body = some u := by
  obtain ⟨e, lowered, run⟩ := bind_eq_ok_iff.mp run
  rw [pure_eq_ok_iff] at run
  subst run
  have params : around.param? f.entries = f.param? := by
    funext key
    rw [Surroundings.param?, plain]
    exact f.lookup_entries key
  obtain ⟨v, closes, direct⟩ :=
    Surroundings.close_lowerScalar fits f.keys_entries f.eq_var_of_terms_entries lowered
  rw [params] at direct
  rw [FunTerm.inline_ofBody, FunTerm.close_ofBody, closes, direct]
  exact ⟨_, rfl, rfl⟩

private theorem param?_stencil (array : ArrayKey → Except LoweringError ArrayTerm)
    (f : StencilLambda) (paths : List Path) :
    Surroundings.param? ⟨array, some (f.argument, neighbourPaths f.neighbours paths)⟩
      [(f.argument, .var 0)] = f.param? paths := by
  funext key
  rw [Surroundings.param?, StencilLambda.param?]
  dsimp only [neighbourPaths]
  cases (f.neighbours.zip paths).reverse.lookup key with
  | none =>
    by_cases same : key = f.argument
    · simp [same]
    · simp [List.lookup_cons, same, beq_false_of_ne same]
  | some path => simp

private theorem close_lowerStencil (fits : around.Matches l.graph arrays array) {f : StencilLambda}
    (isParam : l.graph.scalar? f.argument = some .param) {t : FunTerm}
    (run : l.lowerStencil around f = .ok t) :
    ∃ u, t.inline.close arrays = some u ∧
      FunTerm.ofBody 1 <$> l.graph.unsharedScalar array
        (f.param? (l.tuples f.neighbourhood.rank f.neighbourhood)) f.body = some u := by
  rw [lowerStencil] at run
  dsimp only at run
  split at run
  · cases run
  · obtain ⟨e, lowered, run⟩ := bind_eq_ok_iff.mp run
    rw [pure_eq_ok_iff] at run
    subst run
    have fits' : ∀ paths,
        Surroundings.Matches ⟨around.array, some (f.argument, paths)⟩ l.graph arrays array := by
      refine fun paths => ⟨fits.array_eq, ?_⟩
      rintro _ _ ⟨⟩
      exact isParam
    have own : ∀ i e, Scope.terms [(f.argument, ScalarTerm.var 0)] i = some e → e = .var i := by
      intro i e found
      cases i with
      | zero => exact (Option.some.inj found).symm
      | succ i => simp [Scope.terms] at found
    obtain ⟨v, closes, direct⟩ := Surroundings.close_lowerScalar (fits' _) rfl own lowered
    rw [param?_stencil] at direct
    rw [FunTerm.inline_ofBody, FunTerm.close_ofBody, closes, direct]
    exact ⟨_, rfl, rfl⟩

/-- How lowering makes functions: the body becomes scalar code that reads the given arrays, in a
scope of as many keys as the function has parameters. -/
def LowersBody (l : Lowering) (array : ArrayKey → Except LoweringError ArrayTerm) (code : ScalarKey)
    (f : FunTerm) : Prop :=
  ∃ stencil scope e,
    Surroundings.lowerScalar ⟨array, stencil⟩ l.graph l.shareScalars scope code = .ok e ∧
    f = .ofBody scope.depth e

theorem lowersBody_of_lowerLambda {f : Lambda} {t : FunTerm}
    (run : l.lowerLambda around f = .ok t) : l.LowersBody around.array f.body t := by
  obtain ⟨e, lowered, run⟩ := bind_eq_ok_iff.mp run
  have depth : (f.params.foldl Scope.push .empty).depth = f.arity := by
    rw [Scope.depth, Scope.keys_foldl_push]
    simp [Scope.empty, Lambda.arity]
  rw [← depth] at run
  exact ⟨_, _, e, lowered, (pure_eq_ok_iff.mp run).symm⟩

theorem lowersBody_of_lowerStencil {f : StencilLambda} {t : FunTerm}
    (run : l.lowerStencil around f = .ok t) : l.LowersBody around.array f.body t := by
  rw [lowerStencil] at run
  dsimp only at run
  split at run
  · cases run
  · obtain ⟨e, lowered, run⟩ := bind_eq_ok_iff.mp run
    exact ⟨_, _, e, lowered, (pure_eq_ok_iff.mp run).symm⟩

theorem lowerTree_var_eq_ok {scope : Scope ArrayKey} {key : ArrayKey} {t : ArrayTerm}
    (run : l.lowerTree scope (.var key) = .ok t) : ∃ i, scope.index key = .ok i ∧ t = .var i := by
  obtain ⟨i, found, run⟩ := bind_eq_ok_iff.mp run
  exact ⟨i, LoweringError.ofFault_eq_ok_iff.mp found, (pure_eq_ok_iff.mp run).symm⟩

theorem lowerTree_bind_eq_ok {scope : Scope ArrayKey} {key : ArrayKey}
    {bound body : SharedTree ArrayKey} {t : ArrayTerm}
    (run : l.lowerTree scope (.bind key bound body) = .ok t) :
    ∃ bound' body', l.lowerTree scope bound = .ok bound' ∧
    l.lowerTree (scope.push key) body = .ok body' ∧
      t = .letIn bound' body' := by
  obtain ⟨bound', outer, run⟩ := bind_eq_ok_iff.mp run
  obtain ⟨body', inner, run⟩ := bind_eq_ok_iff.mp run
  exact ⟨bound', body', outer, inner, (pure_eq_ok_iff.mp run).symm⟩

theorem lookup_lowerOperands (scope : Scope ArrayKey) (key : ArrayKey)
    (operands : List (ArrayKey × SharedTree ArrayKey)) :
    (l.lowerOperands scope operands).lookup key = (operands.lookup key).map (l.lowerTree scope) :=
  OrderedMap.lookup_eq_map (by rw [lowerOperands]) (fun _ _ _ => by rw [lowerOperands]) operands key

def reading (operands : List (ArrayKey × Except LoweringError ArrayTerm)) : Surroundings :=
  ⟨resultAt (.fault .missingArrayOperand) operands, none⟩

section Node

variable {key : ArrayKey} {operands : List (ArrayKey × Except LoweringError ArrayTerm)}

theorem lowerNode_of_found {node : ArrayNode} (found : l.graph.array? key = some node) :
    l.lowerNode key operands = node.mapM (reading operands).array
      ((reading operands).lowerScalar l.graph l.shareScalars .empty)
      (l.lowerLambda (reading operands)) (l.lowerStencil (reading operands)) >>= fun lowered =>
      pure (.op lowered) := by
  let lowered (array : ArrayKey → Except LoweringError ArrayTerm) :
      Except LoweringError ArrayTerm :=
    node.mapM array (Surroundings.lowerScalar ⟨array, none⟩ l.graph l.shareScalars .empty)
      (l.lowerLambda ⟨array, none⟩) (l.lowerStencil ⟨array, none⟩) >>= fun lowered =>
      pure (.op lowered)
  rw [lowerNode, Graph.arrayNode_eq_ok_iff.mpr found]
  refine congrArg lowered (funext fun ref => ?_)
  show _ = resultAt _ operands ref
  rw [resultAt]
  cases operands.lookup ref <;> rfl

theorem lowerNode_eq_ok {t : ArrayTerm} (run : l.lowerNode key operands = .ok t) :
    ∃ node lowered, l.graph.array? key = some node ∧ node.mapM (reading operands).array
      ((reading operands).lowerScalar l.graph l.shareScalars .empty)
      (l.lowerLambda (reading operands)) (l.lowerStencil (reading operands)) = .ok lowered ∧
      t = .op lowered := by
  obtain ⟨node, fetched, _⟩ := bind_eq_ok_iff.mp run
  have found := Graph.arrayNode_eq_ok_iff.mp (LoweringError.ofFault_eq_ok_iff.mp fetched)
  rw [lowerNode_of_found found] at run
  obtain ⟨lowered, mapped, run⟩ := bind_eq_ok_iff.mp run
  exact ⟨node, lowered, found, mapped, (pure_eq_ok_iff.mp run).symm⟩

end Node

private theorem close_lowerNode {key : ArrayKey} (founded : (l.graph.arrayView share).Founded key)
    (low : ((l.graph.arrayView share).unfolding key).height ≤ l.graph.arrays.size + 1)
    (stencils : ∀ f boundary xs, l.graph.array? key = some (.stencil f boundary xs) →
      l.graph.scalar? f.argument = some .param)
    {operands : List (ArrayKey × Except LoweringError ArrayTerm)}
    (each : ∀ ref t, operands.lookup ref = some (.ok t) →
      ∃ u, t.inline.close arrays = some u ∧ l.graph.unshared l.tuples ref = some u)
    {t : ArrayTerm} (run : l.lowerNode key operands = .ok t) :
    ∃ u, t.inline.close arrays = some u ∧ l.graph.unshared l.tuples key = some u := by
  obtain ⟨node, lowered, found, mapped, rfl⟩ := lowerNode_eq_ok run
  have fits : (reading operands).Matches l.graph arrays (l.graph.unshared l.tuples) := by
    refine ⟨fun ref t lowered => ?_, fun _ _ stencil => by cases stencil⟩
    exact each ref t (resultAt_eq_ok_iff.mp lowered)
  have empty : ∀ i e, Scope.terms ([] : List (ScalarKey × ScalarTerm)) i = some e → e = .var i := by
    simp [Scope.terms_nil]
  have stencil : ∀ f, .stencil f ∈ node.parts → l.graph.scalar? f.argument = some .param := by
    intro f member
    obtain ⟨boundary, xs, same⟩ := ArrayOp.eq_stencil_of_mem_parts member
    exact stencils f boundary xs (found.trans (congrArg some same))
  -- Part by part, the lowered operation closes to what the node is translated to.
  have both : ∃ closed, lowered.mapM (fun t => t.inline.close arrays)
        (fun e => e.inline.close arrays Term.same) (fun f => f.inline.close arrays)
        (fun f => f.inline.close arrays) = some closed ∧
      node.mapM (l.graph.unshared l.tuples)
        (l.graph.unsharedScalar (l.graph.unshared l.tuples) fun _ => none)
        (fun f => FunTerm.ofBody f.arity <$>
          l.graph.unsharedScalar (l.graph.unshared l.tuples) f.param? f.body)
        (fun f => FunTerm.ofBody 1 <$> l.graph.unsharedScalar (l.graph.unshared l.tuples)
          (f.param? (l.tuples f.neighbourhood.rank f.neighbourhood)) f.body) = some closed := by
    refine ArrayOp.mapM_mapM mapped fun part member => ?_
    cases part with
    | array xs => exact fits.array_eq xs
    | scalar e => exact fun _ => Surroundings.close_lowerScalar fits rfl empty
    | function f => exact fun _ => close_lowerLambda fits rfl
    | stencil f => exact fun _ => close_lowerStencil fits (stencil f member)
  obtain ⟨closed, after, direct⟩ := both
  refine ⟨.op closed, ?_, ?_⟩
  · rw [ArrayTerm.inline_op, ArrayTerm.close_op, ArrayOp.mapM_mapOperands]
    exact congrArg (Option.map ArrayTerm.op) after
  · rw [Graph.unshared_eq founded low, found]
    exact congrArg (Option.map ArrayTerm.op) direct

/-- A lowered tree, with the translations of the keys in scope in the place of their variables, is
the translation of the node that the tree stands for. -/
theorem close_lowerTree {tree : SharedTree ArrayKey} {key : ArrayKey}
    (stands : tree.Stands (l.graph.arrayView share) key)
    (founded : (l.graph.arrayView share).Founded key)
    (low : ((l.graph.arrayView share).unfolding key).height ≤ l.graph.arrays.size + 1)
    (stencils : ∀ other f boundary xs, (l.graph.arrayView share).Reaches key other →
      l.graph.array? other = some (.stencil f boundary xs) →
      l.graph.scalar? f.argument = some .param)
    {scope : Scope ArrayKey} {entries : List (ArrayKey × ArrayTerm)}
    (keys : scope.keys = entries.map Prod.fst)
    (known : ∀ other ∈ tree.free, ∃ u, entries.lookup other = some u ∧
      l.graph.unshared l.tuples other = some u)
    {t : ArrayTerm} (run : l.lowerTree scope tree = .ok t) :
    ∃ u, t.inline.close (Scope.terms entries) = some u ∧
    l.graph.unshared l.tuples key = some u := by
  induction stands generalizing scope entries t with
  | var key =>
    obtain ⟨i, found, rfl⟩ := lowerTree_var_eq_ok run
    obtain ⟨u, here, looked⟩ := Scope.terms_of_index keys found
    obtain ⟨u', looked', direct⟩ := known key (SharedTree.mem_free_var.mpr rfl)
    obtain rfl := Option.some.inj (looked.symm.trans looked')
    exact ⟨u, here, direct⟩
  | @bind id target bound body _ below _ _ ihBound ihBody =>
    obtain ⟨bound', body', lowered, lowered', rfl⟩ := lowerTree_bind_eq_ok run
    obtain ⟨value, closes, direct⟩ := ihBound (founded.of_reaches below)
      ((founded.height_le_of_reaches below).trans low)
      (fun other f boundary xs reaches => stencils other f boundary xs (below.trans reaches)) keys
      (fun other inside => known other (SharedTree.mem_free_bind.mpr (.inl inside))) lowered
    obtain ⟨u, closes', direct'⟩ := ihBody founded low stencils (congrArg (id :: ·) keys)
      (SharedTree.known_of_bind direct known) lowered'
    refine ⟨u, ?_, direct'⟩
    rw [Scope.terms_cons] at closes'
    exact (ArrayTerm.close_instantiate closes _).trans closes'
  | @plain id refs operands listed covers _ ih =>
    refine close_lowerNode founded low (fun f boundary xs => stencils id f boundary xs (.refl id))
      (fun ref t looked => ?_) run
    rw [lookup_lowerOperands] at looked
    obtain ⟨operand, here, lowered⟩ := Option.map_eq_some_iff.mp looked
    have inside := OrderedMap.mem_of_get? here
    have member : ref ∈ refs := (covers ref).mp (OrderedMap.mem_keys_iff.mpr ⟨operand, here⟩)
    have below := View.Reaches.of_reference (View.references_eq listed ▸ member)
    exact ih _ inside (founded.of_reaches below) ((founded.height_le_of_reaches below).trans low)
      (fun other f boundary xs reaches => stencils other f boundary xs (below.trans reaches)) keys
      (fun other free => known other (SharedTree.mem_free_plain.mpr ⟨_, inside, free⟩)) lowered

end Lowering

theorem Graph.lower_eq_ok {g : Graph} {options : Options} {root : ArrayKey} {t : ArrayTerm}
    (run : g.lower options root = .ok t) :
    ∃ tree, (g.arrayView options.shareArrays).recover root = .ok tree ∧
      Lowering.lowerTree ⟨g, options.tuples, options.shareScalars⟩ .empty tree = .ok t := by
  obtain ⟨tree, recovered, run⟩ := bind_eq_ok_iff.mp run
  obtain ⟨lowered, done, checked⟩ := bind_eq_ok_iff.mp run
  have same : lowered = t := by
    dsimp only at checked
    split at checked
    · obtain ⟨_, _, checked⟩ := bind_eq_ok_iff.mp checked
      exact pure_eq_ok_iff.mp checked
    · exact pure_eq_ok_iff.mp checked
  exact ⟨tree, LoweringError.ofFault_eq_ok_iff.mp recovered, same ▸ done⟩

/-- With all `let`s inlined, a lowered program is the direct translation of the program without
sharing. -/
theorem Graph.unshared_eq_inline_of_lower {g : Graph} {options : Options} {root : ArrayKey}
    (stencils : ∀ key f boundary xs, (g.arrayView options.shareArrays).Reaches root key →
      g.array? key = some (.stencil f boundary xs) → g.scalar? f.argument = some .param)
    {t : ArrayTerm} (run : g.lower options root = .ok t) :
    g.unshared options.tuples root = some t.inline := by
  obtain ⟨tree, recovered, lowered⟩ := lower_eq_ok run
  obtain ⟨founded, low⟩ := (g.consistent_arrayView options.shareArrays).founded_of_recover recovered
  obtain ⟨stands, closed⟩ := View.stands_of_recover recovered
  have keys : (Scope.empty : Scope ArrayKey).keys =
      ([] : List (ArrayKey × ArrayTerm)).map Prod.fst := rfl
  obtain ⟨u, closes, direct⟩ :=
    Lowering.close_lowerTree (l := ⟨g, options.tuples, options.shareScalars⟩) stands founded low
      stencils keys (by simp [closed]) lowered
  rw [Scope.terms_nil] at closes
  rw [direct, ArrayTerm.eq_of_close closes]

/-- A map that is read twice, once through a stencil, with `let`s of arrays and of scalars: below a
`let` the argument of the stencil is one variable further out. -/
theorem Graph.unshared_eq_inline_stencil_over_map :
    let s (i : Nat) : ScalarKey := ⟨i⟩
    let a (i : Nat) : ArrayKey := ⟨i⟩
    let g : Graph := ⟨⟨#[.use ⟨[], [.bool true]⟩, .map ⟨[s 0], s 2⟩ (a 0),
        .stencil ⟨⟨[1, 3]⟩, s 3, [s 4, s 5, s 6], s 8⟩ .clamp (a 1),
        .zipWith ⟨[s 0, s 3], s 10⟩ (a 2) (a 1)]⟩,
      ⟨#[.param, .op (.tuple [s 0, s 0]), .op (.tuple [s 1, s 1, s 9]), .param, .param, .param,
        .param, .op (.tuple [s 3, s 6]), .op (.tuple [s 4, s 7, s 7]), .op (.size (a 0)),
        .op (.tuple [s 0, s 3])]⟩⟩
    let t : ArrayTerm :=
      .letIn
        (.letIn (.op (.use ⟨[], [.bool true]⟩))
          (.op (.map (.lam (.body (.letIn (.op (.tuple [.var 0, .var 0]))
            (.op (.tuple [.var 0, .var 0, .op (.size (.var 0))]))))) (.var 0))))
        (.op (.zipWith (.lam (.lam (.body (.op (.tuple [.var 1, .var 0])))))
          (.op (.stencil (.lam (.body (.letIn
            (.op (.tuple [.var 0, .op (.prj 2 (.op (.prj 0 (.var 0))))]))
            (.op (.tuple [.op (.prj 0 (.op (.prj 0 (.var 1)))), .var 0, .var 0])))))
            .clamp (.var 0)))
          (.var 0)))
    (∀ key f boundary xs, (g.arrayView true).Reaches (a 3) key →
        g.array? key = some (.stencil f boundary xs) → g.scalar? f.argument = some .param) ∧
      g.lower {} (a 3) = .ok t ∧ g.unshared .nested (a 3) = some t.inline := by
  intro s a g t
  have stencils : ∀ key f boundary xs, (g.arrayView true).Reaches (a 3) key →
      g.array? key = some (.stencil f boundary xs) → g.scalar? f.argument = some .param := by
    intro key f boundary xs _ found
    obtain ⟨_ | _ | _ | _ | slot⟩ := key
    case succ.succ.zero =>
      cases found
      rfl
    all_goals cases found
  have lowered : g.lower {} (a 3) = .ok t := by
    subst t g a s
    rfl
  exact ⟨stencils, lowered, @unshared_eq_inline_of_lower g {} (a 3) stencils t lowered⟩

end SharingRecovery
