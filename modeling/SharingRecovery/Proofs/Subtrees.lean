import SharingRecovery.SharedTree.Basic

set_option autoImplicit false

/-!
The parts of a tree with explicit sharing: its plain nodes, bindings and variables, and the
variables that are free in it.
-/

namespace SharingRecovery.SharedTree

variable {ι : Type}

@[elab_as_elim, induction_eliminator]
theorem induction {motive : SharedTree ι → Prop} (var : ∀ id, motive (.var id))
    (bind : ∀ id bound body, motive bound → motive body → motive (.bind id bound body))
    (plain : ∀ id operands, (∀ entry ∈ operands, motive entry.2) → motive (.plain id operands))
    (tree : SharedTree ι) : motive tree :=
  @SharedTree.rec ι motive (fun operands => ∀ entry ∈ operands, motive entry.2)
    (fun entry => motive entry.2) var bind plain (by simp)
    (fun _ _ first rest => List.forall_mem_cons.mpr ⟨first, rest⟩) (fun _ _ holds => holds) tree

mutual

def subtrees : SharedTree ι → List (SharedTree ι)
  | .var id => [.var id]
  | .bind id bound body => .bind id bound body :: (subtrees bound ++ subtrees body)
  | .plain id operands => .plain id operands :: subtreesOfAll operands

def subtreesOfAll : List (ι × SharedTree ι) → List (SharedTree ι)
  | [] => []
  | (_, operand) :: rest => subtrees operand ++ subtreesOfAll rest

end

def plains (tree : SharedTree ι) : List ι :=
  tree.subtrees.filterMap fun
    | .plain id _ => some id
    | _ => none

def binders (tree : SharedTree ι) : List ι :=
  tree.subtrees.filterMap fun
    | .bind id _ _ => some id
    | _ => none

def vars (tree : SharedTree ι) : List ι :=
  tree.subtrees.filterMap fun
    | .var id => some id
    | _ => none

def head? : SharedTree ι → Option ι
  | .var _ => none
  | .bind _ _ body => body.head?
  | .plain id _ => some id

/-- The identities of the bindings at the top of a tree, outermost first. -/
def chain : SharedTree ι → List ι
  | .bind id _ body => id :: body.chain
  | _ => []

theorem subtreesOfAll_eq (operands : List (ι × SharedTree ι)) :
    subtreesOfAll operands = operands.flatMap fun entry => entry.2.subtrees := by
  induction operands with
  | nil => rfl
  | cons entry operands ih => rw [subtreesOfAll, ih, List.flatMap_cons]

theorem subtrees_plain (id : ι) (operands : List (ι × SharedTree ι)) :
    (plain id operands).subtrees =
      plain id operands :: operands.flatMap fun entry => entry.2.subtrees := by
  rw [subtrees, subtreesOfAll_eq]

theorem mem_subtrees_self (tree : SharedTree ι) : tree ∈ tree.subtrees := by
  cases tree <;> rw [subtrees] <;> exact List.mem_cons_self

theorem subtrees_sublist {part tree : SharedTree ι} (member : part ∈ tree.subtrees) :
    part.subtrees.Sublist tree.subtrees := by
  induction tree with
  | var id =>
    rw [subtrees, List.mem_singleton] at member
    subst member
    exact .refl _
  | bind id bound body ihBound ihBody =>
    rw [subtrees, List.mem_cons, List.mem_append] at member
    rcases member with rfl | inside | inside
    · exact .refl _
    · rw [subtrees]
      exact ((ihBound inside).trans (List.sublist_append_left _ _)).cons _
    · rw [subtrees]
      exact ((ihBody inside).trans (List.sublist_append_right _ _)).cons _
  | plain id operands ih =>
    rw [subtrees_plain, List.mem_cons, List.mem_flatMap] at member
    rcases member with rfl | ⟨entry, among, inside⟩
    · exact .refl _
    · have here : entry.2.subtrees ∈ operands.map fun entry => entry.2.subtrees :=
        List.mem_map_of_mem among
      rw [subtrees_plain, List.flatMap_def]
      exact ((ih entry among inside).trans (List.sublist_flatten_of_mem here)).cons _

@[simp]
theorem plains_var (id : ι) : (var id).plains = [] := by
  simp [plains, subtrees]

@[simp]
theorem plains_bind (id : ι) (bound body : SharedTree ι) :
    (bind id bound body).plains = bound.plains ++ body.plains := by
  simp [plains, subtrees]

@[simp]
theorem plains_plain (id : ι) (operands : List (ι × SharedTree ι)) :
    (plain id operands).plains = id :: operands.flatMap fun entry => entry.2.plains := by
  simp [plains, subtrees_plain, List.filterMap_flatMap]

@[simp]
theorem binders_var (id : ι) : (var id).binders = [] := by
  simp [binders, subtrees]

@[simp]
theorem binders_bind (id : ι) (bound body : SharedTree ι) :
    (bind id bound body).binders = id :: (bound.binders ++ body.binders) := by
  simp [binders, subtrees]

@[simp]
theorem binders_plain (id : ι) (operands : List (ι × SharedTree ι)) :
    (plain id operands).binders = operands.flatMap fun entry => entry.2.binders := by
  simp [binders, subtrees_plain, List.filterMap_flatMap]

@[simp]
theorem vars_var (id : ι) : (var id).vars = [id] := by
  simp [vars, subtrees]

@[simp]
theorem vars_bind (id : ι) (bound body : SharedTree ι) :
    (bind id bound body).vars = bound.vars ++ body.vars := by
  simp [vars, subtrees]

@[simp]
theorem vars_plain (id : ι) (operands : List (ι × SharedTree ι)) :
    (plain id operands).vars = operands.flatMap fun entry => entry.2.vars := by
  simp [vars, subtrees_plain, List.filterMap_flatMap]

variable [DecidableEq ι]

mutual

/-- The identities of variables that are not inside the body of a binding of their identity. -/
def free : SharedTree ι → List ι
  | .var id => [id]
  | .bind id bound body => free bound ++ (free body).filter (· ≠ id)
  | .plain _ operands => freeOfAll operands

def freeOfAll : List (ι × SharedTree ι) → List ι
  | [] => []
  | (_, operand) :: rest => free operand ++ freeOfAll rest

end

@[simp]
theorem mem_free_var {id other : ι} : other ∈ (var id).free ↔ other = id := by
  simp [free]

@[simp]
theorem mem_free_bind {id other : ι} {bound body : SharedTree ι} :
    other ∈ (bind id bound body).free ↔ other ∈ bound.free ∨ other ∈ body.free ∧ other ≠ id := by
  simp [free]

@[simp]
theorem mem_free_plain {id other : ι} {operands : List (ι × SharedTree ι)} :
    other ∈ (plain id operands).free ↔ ∃ entry ∈ operands, other ∈ entry.2.free := by
  rw [free]
  induction operands with
  | nil => simp [freeOfAll]
  | cons entry operands ih => simp [freeOfAll, ih]

theorem mem_free_of_mem_vars {id : ι} {tree : SharedTree ι} (occurs : id ∈ tree.vars)
    (unbound : id ∉ tree.binders) : id ∈ tree.free := by
  induction tree with
  | var other => simpa using occurs
  | bind other bound body ihBound ihBody =>
    simp only [vars_bind, List.mem_append] at occurs
    simp only [binders_bind, List.mem_cons, List.mem_append, not_or] at unbound
    rw [mem_free_bind]
    rcases occurs with inside | inside
    · exact .inl (ihBound inside unbound.2.1)
    · exact .inr ⟨ihBody inside unbound.2.2, unbound.1⟩
  | plain other operands ih =>
    simp only [vars_plain, List.mem_flatMap] at occurs
    simp only [binders_plain, List.mem_flatMap, not_exists, not_and] at unbound
    obtain ⟨entry, member, inside⟩ := occurs
    exact mem_free_plain.mpr ⟨entry, member, ih entry member inside (unbound entry member)⟩

omit [DecidableEq ι] in
theorem mem_binders_of_binding {id : ι} {bound body tree : SharedTree ι}
    (binding : bind id bound body ∈ tree.subtrees) : id ∈ tree.binders :=
  List.mem_filterMap.mpr ⟨_, binding, rfl⟩

theorem count_vars_of_binding {id : ι} {bound body tree : SharedTree ι}
    (binding : bind id bound body ∈ tree.subtrees) (once : tree.binders.count id = 1)
    (closed : id ∉ tree.free) : tree.vars.count id = body.vars.count id ∧ id ∉ bound.vars := by
  have absent : ∀ {part : SharedTree ι}, id ∉ part.free → part.binders.count id = 0 →
      part.vars.count id = 0 := by
    intro part closed unbound
    exact List.count_eq_zero.mpr fun occurs =>
      closed (mem_free_of_mem_vars occurs (List.count_eq_zero.mp unbound))
  induction tree with
  | var other => simp [subtrees] at binding
  | bind other bound' body' ihBound ihBody =>
    rw [binders_bind, List.count_cons, List.count_append] at once
    rw [mem_free_bind, not_or] at closed
    rw [vars_bind, List.count_append]
    rw [subtrees, List.mem_cons, List.mem_append] at binding
    have fresh : 0 < bound'.binders.count id + body'.binders.count id → other ≠ id := by
      rintro within rfl
      rw [beq_self_eq_true, if_pos rfl] at once
      omega
    rcases binding with same | inside | inside
    · obtain ⟨rfl, rfl, rfl⟩ := bind.inj same
      rw [beq_self_eq_true, if_pos rfl] at once
      have unused := absent closed.1 (by omega)
      exact ⟨by omega, List.count_eq_zero.mp unused⟩
    · have within := List.count_pos_iff.mpr (mem_binders_of_binding inside)
      have different := fresh (by omega)
      rw [beq_false_of_ne different] at once
      have unused := absent (fun isFree => closed.2 ⟨isFree, different.symm⟩) (by omega)
      obtain ⟨all, rest⟩ := ihBound inside (by omega) closed.1
      exact ⟨by omega, rest⟩
    · have within := List.count_pos_iff.mpr (mem_binders_of_binding inside)
      have different := fresh (by omega)
      rw [beq_false_of_ne different] at once
      have unused := absent closed.1 (by omega)
      obtain ⟨all, rest⟩ :=
        ihBody inside (by omega) fun isFree => closed.2 ⟨isFree, different.symm⟩
      exact ⟨by omega, rest⟩
  | plain other operands ih =>
    rw [subtrees_plain, List.mem_cons, List.mem_flatMap] at binding
    obtain ⟨entry, member, inside⟩ := binding.resolve_left (by simp)
    have within := List.count_pos_iff.mpr (mem_binders_of_binding inside)
    simp only [mem_free_plain, not_exists, not_and] at closed
    obtain ⟨before, after, rfl⟩ := List.append_of_mem member
    simp only [binders_plain, List.flatMap_append, List.flatMap_cons, List.count_append] at once
    -- The other operands do not bind the identity, and so do not use it.
    have unused : ∀ entries : List (ι × SharedTree ι), (∀ e ∈ entries, id ∉ e.2.free) →
        (entries.flatMap fun e => e.2.binders).count id = 0 →
        (entries.flatMap fun e => e.2.vars).count id = 0 := by
      intro entries closed unbound
      rw [List.count_eq_zero, List.mem_flatMap] at unbound ⊢
      rintro ⟨e, among, occurs⟩
      exact closed e among (mem_free_of_mem_vars occurs fun binds => unbound ⟨e, among, binds⟩)
    have first := unused before (fun e among => closed e (List.mem_append_left _ among)) (by omega)
    have last := unused after
      (fun e among => closed e (List.mem_append_right _ (List.mem_cons_of_mem _ among))) (by omega)
    obtain ⟨all, rest⟩ := ih entry member inside (by omega) (closed entry member)
    simp only [vars_plain, List.flatMap_append, List.flatMap_cons, List.count_append]
    exact ⟨by omega, rest⟩

theorem mem_vars_of_mem_free {id : ι} {tree : SharedTree ι} (isFree : id ∈ tree.free) :
    id ∈ tree.vars := by
  induction tree with
  | var other => simpa using isFree
  | bind other bound body ihBound ihBody =>
    rw [vars_bind, List.mem_append]
    exact (mem_free_bind.mp isFree).imp ihBound fun inside => ihBody inside.1
  | plain other operands ih =>
    obtain ⟨entry, member, inside⟩ := mem_free_plain.mp isFree
    rw [vars_plain, List.mem_flatMap]
    exact ⟨entry, member, ih entry member inside⟩

end SharingRecovery.SharedTree
