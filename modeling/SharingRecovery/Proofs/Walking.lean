import SharingRecovery.Proofs.Outcome
import SharingRecovery.Tally
import SharingRecovery.View.Program

set_option autoImplicit false

/-!
A walk by a stack is a recursion over the tree. What is on top of the stack is done, together with
everything below it, before the rest of the stack is touched (`walk_cons`). So counting and looking
for arrays visit the nodes in the order of the recursion, and fail where it fails first.
-/

namespace SharingRecovery

section Walk

variable {ι σ : Type} {visit : σ → ι → Except Fault σ} {operands : ι → Except Fault (List ι)}

/-- Visits a node, then what is below its operands, one after the other. -/
def visitWithin (visit : σ → ι → Except Fault σ) (operands : ι → Except Fault (List ι)) :
    Nat → σ → ι → Except Fault σ
  | 0, _, _ => .error .cycle
  | depth + 1, state, id => do
    let state ← visit state id
    let ids ← operands id
    ids.foldlM (visitWithin visit operands depth) state

theorem Stack.push_reverse (stack : Stack ι) (depth : Nat) (ids : List ι) :
    Stack.push stack depth ids.reverse = ids.map (depth, ·) ++ stack := by
  rw [Stack.push, List.foldl_reverse]
  induction ids with
  | nil => rfl
  | cons id ids ih => rw [List.foldr_cons, ih, List.map_cons, List.cons_append]

theorem walk_succ (depth : Nat) (id : ι) (state : σ) (stack : Stack ι) :
    walk visit operands state ((depth + 1, id) :: stack) = visit state id >>= fun state =>
      operands id >>= fun ids => walk visit operands state (ids.map (depth, ·) ++ stack) := by
  rw [walk]
  refine bind_congr fun state => ?_
  split
  next fault failed => rw [failed]; rfl
  next ids listed => rw [listed, Stack.push_reverse]; rfl

private theorem walk_append {depth : Nat}
    (each : ∀ id state stack, walk visit operands state ((depth, id) :: stack) =
      visitWithin visit operands depth state id >>= fun state => walk visit operands state stack)
    (ids : List ι) (state : σ) (stack : Stack ι) :
    walk visit operands state (ids.map (depth, ·) ++ stack) =
      ids.foldlM (visitWithin visit operands depth) state >>= fun state =>
        walk visit operands state stack := by
  -- What is assumed of single nodes is `walk_cons`, whose induction on the depth uses this.
  induction ids generalizing state with
  | nil => rfl
  | cons id ids ih =>
    rw [List.map_cons, List.cons_append, each, List.foldlM_cons, bind_assoc]
    exact bind_congr ih

theorem walk_cons (depth : Nat) (id : ι) (state : σ) (stack : Stack ι) :
    walk visit operands state ((depth, id) :: stack) =
      visitWithin visit operands depth state id >>= fun state =>
      walk visit operands state stack := by
  induction depth generalizing id state stack with
  | zero =>
    rw [walk]
    rfl
  | succ depth ih =>
    rw [walk_succ, visitWithin, bind_assoc]
    refine bind_congr fun state => ?_
    rw [bind_assoc]
    exact bind_congr fun ids => walk_append ih ids state stack

/-- From a single node the walk by a stack is the recursion. -/
theorem walk_singleton (depth : Nat) (id : ι) (state : σ) :
    walk visit operands state [(depth, id)] = visitWithin visit operands depth state id := by
  have done : (fun state : σ => walk visit operands state []) = pure :=
    funext fun state => by rw [walk]; rfl
  rw [walk_cons, done, bind_pure]

end Walk

namespace View

variable {ι : Type} [DecidableEq ι]

def tallyWithin (view : View ι) : Nat → Tally ι → ι → Except Fault (Tally ι)
  | 0, _, _ => .error .cycle
  | depth + 1, tally, id => do
    let tally ← if ← view.isTrivial id then pure tally else tally.add id
    let operands ← view.operands id
    operands.foldlM (view.tallyWithin depth) tally

private theorem visitWithin_countNode (view : View ι) (depth : Nat) :
    visitWithin view.countNode view.operands depth = view.tallyWithin depth := by
  induction depth with
  | zero => rfl
  | succ depth ih =>
    funext tally id
    rw [visitWithin, tallyWithin, countNode, ih, bind_assoc]
    refine bind_congr fun trivial => ?_
    cases trivial <;> rfl

theorem tally_eq (view : View ι) (root : ι) :
    view.tally root = view.identify root >>= view.tallyWithin view.depth .empty := by
  rw [tally]
  refine bind_congr fun id => ?_
  rw [walk_singleton, visitWithin_countNode]

end View

namespace Graph

def arraysReadWithin (g : Graph) : Nat → ScalarKey → Except Fault (List ArrayKey)
  | 0, _ => .error .cycle
  | depth + 1, key => do
    let node ← g.scalarNode key
    let below ← node.operands.mapM (g.arraysReadWithin depth)
    return node.array?.toList ++ below.flatten

private theorem appendList_append {α : Type} (xs : Array α) (ys zs : List α) :
    (xs.appendList ys).appendList zs = xs.appendList (ys ++ zs) :=
  Array.ext' (by simp)

private theorem foldlM_readNode {g : Graph} {depth : Nat}
    (each : ∀ key read, visitWithin g.readNode g.scalarOperands depth read key =
      (read.appendList ·) <$> g.arraysReadWithin depth key)
    (keys : List ScalarKey) (read : Array ArrayKey) :
    keys.foldlM (visitWithin g.readNode g.scalarOperands depth) read =
      (read.appendList ·.flatten) <$> keys.mapM (g.arraysReadWithin depth) := by
  induction keys generalizing read with
  | nil => simp
  | cons key keys ih =>
    rw [List.foldlM_cons, List.mapM_cons, each]
    cases g.arraysReadWithin depth key with
    | error fault => rfl
    | ok found =>
      refine (ih (read ++ found)).trans ?_
      cases keys.mapM (g.arraysReadWithin depth) with
      | error fault => rfl
      | ok below => exact congrArg Except.ok (appendList_append _ _ _)

private theorem visitWithin_readNode (g : Graph) (depth : Nat) (key : ScalarKey)
    (read : Array ArrayKey) :
    visitWithin g.readNode g.scalarOperands depth read key =
      (read.appendList ·) <$> g.arraysReadWithin depth key := by
  induction depth generalizing key read with
  | zero => rfl
  | succ depth ih =>
    rw [visitWithin, arraysReadWithin, readNode, scalarOperands]
    cases g.scalarNode key with
    | error fault => rfl
    | ok node =>
      refine (foldlM_readNode ih node.operands (read ++ node.array?.toList)).trans ?_
      rw [ok_bind]
      cases node.operands.mapM (g.arraysReadWithin depth) with
      | error fault => rfl
      | ok below => exact congrArg Except.ok (appendList_append _ _ _)

theorem arraysRead_eq (g : Graph) (root : ScalarKey) :
    g.arraysRead root = g.arraysReadWithin g.scalarDepth root := by
  rw [arraysRead, walk_singleton, visitWithin_readNode]
  cases g.arraysReadWithin g.scalarDepth root with
  | error fault => rfl
  | ok read => exact congrArg Except.ok (by simp)

end Graph
end SharingRecovery
