import SharingRecovery.Operation.Array
import SharingRecovery.Operation.Scalar
import SharingRecovery.Proofs.Outcome

set_option autoImplicit false

/-!
Operations and what is done to their operands. Whatever replaces the operands of an operation
depends on the operands alone, and succeeds if and only if it succeeds on each of them.
-/

namespace SharingRecovery

variable {A E F S A' E' F' S' A'' E'' F'' S'' : Type}

namespace ArrayOp

def mapOperands (array : A → A') (scalar : E → E') (function : F → F') (stencil : S → S')
    (op : ArrayOp A E F S) : ArrayOp A' E' F' S' :=
  Id.run (op.mapM (fun a => pure (array a)) (fun e => pure (scalar e)) (fun f => pure (function f))
    fun s => pure (stencil s))

def Part.Holds (array : A → Prop) (scalar : E → Prop) (function : F → Prop) (stencil : S → Prop) :
    Part A E F S → Prop
  | .array a => array a
  | .scalar e => scalar e
  | .function f => function f
  | .stencil s => stencil s

def Forall (array : A → Prop) (scalar : E → Prop) (function : F → Prop) (stencil : S → Prop)
    (op : ArrayOp A E F S) : Prop :=
  ∀ part ∈ op.parts, part.Holds array scalar function stencil

theorem Forall.imp₂ {op : ArrayOp A E F S} {a a' a'' : A → Prop} {e e' e'' : E → Prop}
    {f f' f'' : F → Prop} {s s' s'' : S → Prop} (first : op.Forall a e f s)
    (second : op.Forall a' e' f' s') (array : ∀ x, a x → a' x → a'' x)
    (scalar : ∀ x, e x → e' x → e'' x) (function : ∀ x, f x → f' x → f'' x)
    (stencil : ∀ x, s x → s' x → s'' x) : op.Forall a'' e'' f'' s'' := by
  intro part member
  have one := first part member
  have two := second part member
  cases part with
  | array x => exact array x one two
  | scalar x => exact scalar x one two
  | function x => exact function x one two
  | stencil x => exact stencil x one two

theorem forall_and {op : ArrayOp A E F S} {a a' : A → Prop} {e e' : E → Prop} {f f' : F → Prop}
    {s s' : S → Prop} : op.Forall a e f s ∧ op.Forall a' e' f' s' ↔
      op.Forall (fun x => a x ∧ a' x) (fun x => e x ∧ e' x) (fun x => f x ∧ f' x)
        fun x => s x ∧ s' x := by
  rw [Forall, Forall, Forall, ← forall₂_and]
  refine forall₂_congr fun part _ => ?_
  cases part <;> exact Iff.rfl

theorem forall_congr_iff {op : ArrayOp A E F S} {a a' : A → Prop} {e e' : E → Prop}
    {f f' : F → Prop} {s s' : S → Prop}
    (same : op.Forall (fun x => a x ↔ a' x) (fun x => e x ↔ e' x)
      (fun x => f x ↔ f' x) fun x => s x ↔ s' x) :
    op.Forall a e f s ↔ op.Forall a' e' f' s' := by
  refine forall₂_congr fun part member => ?_
  have here := same part member
  cases part <;> exact here

def Part.map (array : A → A') (scalar : E → E') (function : F → F') (stencil : S → S') :
    Part A E F S → Part A' E' F' S'
  | .array a => .array (array a)
  | .scalar e => .scalar (scalar e)
  | .function f => .function (function f)
  | .stencil s => .stencil (stencil s)

theorem parts_mapOperands (op : ArrayOp A E F S) (a : A → A') (e : E → E')
    (f : F → F') (s : S → S') :
    (op.mapOperands a e f s).parts = op.parts.map (Part.map a e f s) := by
  cases op <;> rfl

theorem forall_mapOperands {op : ArrayOp A E F S} {a : A → A'} {e : E → E'}
    {f : F → F'} {s : S → S'} {a' : A' → Prop} {e' : E' → Prop} {f' : F' → Prop} {s' : S' → Prop} :
    (op.mapOperands a e f s).Forall a' e' f' s' ↔
      op.Forall (fun x => a' (a x)) (fun x => e' (e x)) (fun x => f' (f x)) fun x => s' (s x) := by
  rw [Forall, parts_mapOperands, List.forall_mem_map, Forall]
  refine forall₂_congr fun part _ => ?_
  cases part <;> exact Iff.rfl

variable {m : Type → Type} [Monad m]

theorem mapM_mapOperands (op : ArrayOp A E F S) (a : A → A') (e : E → E') (f : F → F') (s : S → S')
    (a' : A' → m A'') (e' : E' → m E'') (f' : F' → m F'') (s' : S' → m S'') :
    (op.mapOperands a e f s).mapM a' e' f' s' =
      op.mapM (fun x => a' (a x)) (fun x => e' (e x)) (fun x => f' (f x)) fun x => s' (s x) := by
  cases op <;> rfl

theorem mapM_congr {op : ArrayOp A E F S} {a a' : A → m A'} {e e' : E → m E'} {f f' : F → m F'}
    {s s' : S → m S'} (same : op.Forall (fun x => a x = a' x) (fun x => e x = e' x)
      (fun x => f x = f' x) fun x => s x = s' x) : op.mapM a e f s = op.mapM a' e' f' s' := by
  cases op <;> simp_all [Forall, parts, Part.Holds, mapM]

theorem mapM_pure [LawfulMonad m] (op : ArrayOp A E F S) (a : A → A') (e : E → E') (f : F → F')
    (s : S → S') :
    op.mapM (fun x => (pure (a x) : m A')) (fun x => pure (e x)) (fun x => pure (f x))
      (fun x => pure (s x)) = pure (op.mapOperands a e f s) := by
  cases op <;> simp only [mapM, pure_bind] <;> rfl

theorem forall_of_mapM
    (inverts : ∀ {α β : Type} {x : m α} {f : α → m β} {b : β}, x >>= f = pure b →
      ∃ a, x = pure a ∧ f a = pure b)
    {op : ArrayOp A E F S} {op' : ArrayOp A' E' F' S'} {a : A → m A'} {e : E → m E'} {f : F → m F'}
    {s : S → m S'} (run : op.mapM a e f s = pure op') :
    op.Forall (fun x => ∃ y, a x = pure y) (fun x => ∃ y, e x = pure y) (fun x => ∃ y, f x = pure y)
      fun x => ∃ y, s x = pure y := by
  cases op <;> rw [mapM] at run <;> repeat obtain ⟨_, _, run⟩ := inverts run
  all_goals simp [Forall, parts, Part.Holds, *]

theorem exists_mapM_eq [LawfulMonad m] [Nonempty A'] [Nonempty E'] [Nonempty F'] [Nonempty S']
    {op : ArrayOp A E F S} {a : A → m A'} {e : E → m E'} {f : F → m F'} {s : S → m S'}
    (each : op.Forall (fun x => ∃ y, a x = pure y) (fun x => ∃ y, e x = pure y)
      (fun x => ∃ y, f x = pure y) fun x => ∃ y, s x = pure y) :
    ∃ (a' : A → A') (e' : E → E') (f' : F → F') (s' : S → S'),
      op.Forall (fun x => a x = pure (a' x)) (fun x => e x = pure (e' x))
        (fun x => f x = pure (f' x)) (fun x => s x = pure (s' x)) ∧
      op.mapM a e f s = pure (op.mapOperands a' e' f' s') := by
  let a' (x : A) := Classical.epsilon fun y => a x = pure y
  let e' (x : E) := Classical.epsilon fun y => e x = pure y
  let f' (x : F) := Classical.epsilon fun y => f x = pure y
  let s' (x : S) := Classical.epsilon fun y => s x = pure y
  have chosen : op.Forall (fun x => a x = pure (a' x)) (fun x => e x = pure (e' x))
      (fun x => f x = pure (f' x)) (fun x => s x = pure (s' x)) :=
    each.imp₂ each (fun x found _ => Classical.epsilon_spec found)
      (fun x found _ => Classical.epsilon_spec found)
      (fun x found _ => Classical.epsilon_spec found)
      (fun x found _ => Classical.epsilon_spec found)
  exact ⟨a', e', f', s', chosen, (mapM_congr chosen).trans (mapM_pure op a' e' f' s')⟩

theorem exists_mapM_eq_ok_iff {ε : Type} [Nonempty A'] [Nonempty E'] [Nonempty F'] [Nonempty S']
    {op : ArrayOp A E F S} {a : A → Except ε A'} {e : E → Except ε E'} {f : F → Except ε F'}
    {s : S → Except ε S'} : (∃ op', op.mapM a e f s = .ok op') ↔
      op.Forall (fun x => ∃ y, a x = .ok y) (fun x => ∃ y, e x = .ok y) (fun x => ∃ y, f x = .ok y)
        fun x => ∃ y, s x = .ok y := by
  constructor
  · rintro ⟨op', run⟩
    exact forall_of_mapM bind_eq_ok_iff.mp run
  · intro each
    obtain ⟨_, _, _, _, _, run⟩ := exists_mapM_eq each
    exact ⟨_, run⟩

theorem forall_of_mapM_eq_ok {ε : Type} [Nonempty A'] [Nonempty E'] [Nonempty F'] [Nonempty S']
    {op : ArrayOp A E F S} {op' : ArrayOp A' E' F' S'} {a : A → Except ε A'} {e : E → Except ε E'}
    {f : F → Except ε F'} {s : S → Except ε S'} {a' : A' → Prop} {e' : E' → Prop} {f' : F' → Prop}
    {s' : S' → Prop} (run : op.mapM a e f s = .ok op')
    (each : op.Forall (fun x => ∀ y, a x = .ok y → a' y) (fun x => ∀ y, e x = .ok y → e' y)
      (fun x => ∀ y, f x = .ok y → f' y) fun x => ∀ y, s x = .ok y → s' y) :
    op'.Forall a' e' f' s' := by
  obtain ⟨va, ve, vf, vs, values, equal⟩ := exists_mapM_eq (forall_of_mapM bind_eq_ok_iff.mp run)
  obtain rfl : op.mapOperands va ve vf vs = op' := Except.ok.inj (equal.symm.trans run)
  rw [forall_mapOperands]
  exact each.imp₂ values (fun x holds value => holds _ value) (fun x holds value => holds _ value)
    (fun x holds value => holds _ value) (fun x holds value => holds _ value)

theorem mapM_ne_error {ε : Type} {op : ArrayOp A E F S} {a : A → Except ε A'} {e : E → Except ε E'}
    {f : F → Except ε F'} {s : S → Except ε S'} {error : ε}
    (each : op.Forall (fun x => a x ≠ .error error) (fun x => e x ≠ .error error)
      (fun x => f x ≠ .error error) fun x => s x ≠ .error error) :
    op.mapM a e f s ≠ .error error := by
  cases op <;>
    simp_all [Forall, parts, Part.Holds, mapM, bind_eq_error_iff, map_eq_error_iff, pure_ne_error]

/-- Replacing operands in two steps: if on each operand what the second step makes of the result of
the first is what a third function makes of the operand, so it is on the whole. -/
theorem mapM_mapM {ε : Type} [Nonempty A'] [Nonempty E'] [Nonempty F'] [Nonempty S'] [Nonempty A'']
    [Nonempty E''] [Nonempty F''] [Nonempty S''] {op : ArrayOp A E F S} {op' : ArrayOp A' E' F' S'}
    {a : A → Except ε A'} {e : E → Except ε E'} {f : F → Except ε F'} {s : S → Except ε S'}
    {a' : A' → Option A''} {e' : E' → Option E''} {f' : F' → Option F''} {s' : S' → Option S''}
    {a'' : A → Option A''} {e'' : E → Option E''} {f'' : F → Option F''} {s'' : S → Option S''}
    (run : op.mapM a e f s = .ok op')
    (each : op.Forall (fun x => ∀ y, a x = .ok y → ∃ z, a' y = some z ∧ a'' x = some z)
      (fun x => ∀ y, e x = .ok y → ∃ z, e' y = some z ∧ e'' x = some z)
      (fun x => ∀ y, f x = .ok y → ∃ z, f' y = some z ∧ f'' x = some z)
      fun x => ∀ y, s x = .ok y → ∃ z, s' y = some z ∧ s'' x = some z) :
    ∃ op'', op'.mapM a' e' f' s' = some op'' ∧ op.mapM a'' e'' f'' s'' = some op'' := by
  obtain ⟨va, ve, vf, vs, values, equal⟩ := exists_mapM_eq (forall_of_mapM bind_eq_ok_iff.mp run)
  obtain rfl : op.mapOperands va ve vf vs = op' := Except.ok.inj (equal.symm.trans run)
  have found : op.Forall (fun x => ∃ z, a'' x = pure z) (fun x => ∃ z, e'' x = pure z)
      (fun x => ∃ z, f'' x = pure z) (fun x => ∃ z, s'' x = pure z) := by
    refine values.imp₂ each ?_ ?_ ?_ ?_ <;>
    · intro x value step
      obtain ⟨z, _, direct⟩ := step _ value
      exact ⟨z, direct⟩
  have same : op.Forall (fun x => a' (va x) = a'' x) (fun x => e' (ve x) = e'' x)
      (fun x => f' (vf x) = f'' x) (fun x => s' (vs x) = s'' x) := by
    refine values.imp₂ each ?_ ?_ ?_ ?_ <;>
    · intro x value step
      obtain ⟨z, after, direct⟩ := step _ value
      exact after.trans direct.symm
  obtain ⟨_, _, _, _, _, result⟩ := exists_mapM_eq found
  exact ⟨_, (mapM_mapOperands op va ve vf vs a' e' f' s').trans ((mapM_congr same).trans result),
    result⟩

theorem eq_of_mapM {op op' : ArrayOp A E F S} {a : A → Option A} {e : E → Option E}
    {f : F → Option F} {s : S → Option S} (run : op.mapM a e f s = some op')
    (each : op.Forall (fun x => ∀ y, a x = some y → x = y) (fun x => ∀ y, e x = some y → x = y)
      (fun x => ∀ y, f x = some y → x = y) fun x => ∀ y, s x = some y → x = y) : op = op' := by
  have parts := forall_of_mapM Option.bind_eq_some_iff.mp run
  have kept : op.Forall (fun x => a x = pure (id x)) (fun x => e x = pure (id x))
      (fun x => f x = pure (id x)) (fun x => s x = pure (id x)) := by
    refine parts.imp₂ each ?_ ?_ ?_ ?_ <;>
    · rintro x ⟨y, found⟩ unique
      rw [found, ← unique y found]
      rfl
  have whole : op.mapOperands id id id id = op := by cases op <;> rfl
  rw [mapM_congr kept, mapM_pure, whole] at run
  exact Option.some.inj run

theorem mapM_done {ε : Type} (op : ArrayOp A E F S) (a : A → Except ε Unit) (e : E → Except ε Unit)
    (f : F → Except ε Unit) (s : S → Except ε Unit) :
    (op.mapM a e f s >>= fun _ => pure ()) = forM op.parts fun
      | .array x => a x
      | .scalar x => e x
      | .function x => f x
      | .stencil x => s x := by
  cases op <;> simp [mapM, parts]

end ArrayOp

namespace ScalarOp

def mapOperands (array : A → A') (scalar : E → E') (op : ScalarOp A E) : ScalarOp A' E' :=
  Id.run (op.mapM (fun a => pure (array a)) fun e => pure (scalar e))

def Forall (array : A → Prop) (scalar : E → Prop) (op : ScalarOp A E) : Prop :=
  (∀ a ∈ op.array?, array a) ∧ ∀ e ∈ op.scalars, scalar e

theorem Forall.imp₂ {op : ScalarOp A E} {a a' a'' : A → Prop} {e e' e'' : E → Prop}
    (first : op.Forall a e) (second : op.Forall a' e') (array : ∀ x, a x → a' x → a'' x)
    (scalar : ∀ x, e x → e' x → e'' x) : op.Forall a'' e'' :=
  ⟨fun x member => array x (first.1 x member) (second.1 x member),
    fun x member => scalar x (first.2 x member) (second.2 x member)⟩

theorem array?_mapOperands (op : ScalarOp A E) (a : A → A') (e : E → E') :
    (op.mapOperands a e).array? = op.array?.map a := by
  cases op <;> simp [mapOperands, mapM, array?]

theorem scalars_mapOperands (op : ScalarOp A E) (a : A → A') (e : E → E') :
    (op.mapOperands a e).scalars = op.scalars.map e := by
  cases op <;> simp [mapOperands, mapM, scalars]

theorem forall_mapOperands {op : ScalarOp A E} {a : A → A'} {e : E → E'} {a' : A' → Prop}
    {e' : E' → Prop} :
    (op.mapOperands a e).Forall a' e' ↔ op.Forall (fun x => a' (a x)) fun x => e' (e x) := by
  simp [Forall, array?_mapOperands, scalars_mapOperands]

variable {m : Type → Type} [Monad m] [LawfulMonad m]

private theorem list_mapM_congr {es : List E} {f f' : E → m E'} (same : ∀ e ∈ es, f e = f' e) :
    es.mapM f = es.mapM f' := by
  induction es with
  | nil => rfl
  | cons e es ih =>
    obtain ⟨here, others⟩ := List.forall_mem_cons.mp same
    rw [List.mapM_cons, List.mapM_cons, here, ih others]

private theorem forall_of_list_mapM
    (inverts : ∀ {α β : Type} {x : m α} {f : α → m β} {b : β}, x >>= f = pure b →
      ∃ a, x = pure a ∧ f a = pure b)
    {es : List E} {es' : List E'} {f : E → m E'} (run : es.mapM f = pure es') :
    ∀ e ∈ es, ∃ y, f e = pure y := by
  induction es generalizing es' with
  | nil => simp
  | cons e es ih =>
    rw [List.mapM_cons] at run
    obtain ⟨y, here, run⟩ := inverts run
    obtain ⟨ys, others, _⟩ := inverts run
    exact List.forall_mem_cons.mpr ⟨⟨y, here⟩, ih others⟩

theorem mapM_mapOperands (op : ScalarOp A E) (a : A → A') (e : E → E') (a' : A' → m A'')
    (e' : E' → m E'') :
    (op.mapOperands a e).mapM a' e' = op.mapM (fun x => a' (a x)) fun x => e' (e x) := by
  cases op <;> simp [mapOperands, mapM, Function.comp_def]

theorem mapM_congr {op : ScalarOp A E} {a a' : A → m A'} {e e' : E → m E'}
    (same : op.Forall (fun x => a x = a' x) fun x => e x = e' x) : op.mapM a e = op.mapM a' e' := by
  cases op with
  | tuple es =>
    have all : es.mapM e = es.mapM e' := list_mapM_congr same.2
    rw [mapM, mapM, all]
  | primApp p es =>
    have all : es.mapM e = es.mapM e' := list_mapM_congr same.2
    rw [mapM, mapM, all]
  | _ => simp_all [Forall, array?, scalars, mapM]

theorem mapM_pure (op : ScalarOp A E) (a : A → A') (e : E → E') :
    op.mapM (fun x => (pure (a x) : m A')) (fun x => pure (e x)) = pure (op.mapOperands a e) := by
  cases op <;> simp [mapM, mapOperands]

theorem forall_of_mapM
    (inverts : ∀ {α β : Type} {x : m α} {f : α → m β} {b : β}, x >>= f = pure b →
      ∃ a, x = pure a ∧ f a = pure b)
    {op : ScalarOp A E} {op' : ScalarOp A' E'} {a : A → m A'} {e : E → m E'}
    (run : op.mapM a e = pure op') :
    op.Forall (fun x => ∃ y, a x = pure y) fun x => ∃ y, e x = pure y := by
  cases op with
  | tuple es =>
    obtain ⟨_, all, _⟩ := inverts run
    exact ⟨by simp [array?], forall_of_list_mapM inverts all⟩
  | primApp p es =>
    obtain ⟨_, all, _⟩ := inverts run
    exact ⟨by simp [array?], forall_of_list_mapM inverts all⟩
  | _ =>
    rw [mapM] at run
    repeat obtain ⟨_, _, run⟩ := inverts run
    simp [Forall, array?, scalars, *]

theorem exists_mapM_eq [Nonempty A'] [Nonempty E'] {op : ScalarOp A E} {a : A → m A'} {e : E → m E'}
    (each : op.Forall (fun x => ∃ y, a x = pure y) fun x => ∃ y, e x = pure y) :
    ∃ (a' : A → A') (e' : E → E'),
      op.Forall (fun x => a x = pure (a' x)) (fun x => e x = pure (e' x)) ∧
      op.mapM a e = pure (op.mapOperands a' e') := by
  let a' (x : A) := Classical.epsilon fun y => a x = pure y
  let e' (x : E) := Classical.epsilon fun y => e x = pure y
  have chosen : op.Forall (fun x => a x = pure (a' x)) (fun x => e x = pure (e' x)) :=
    each.imp₂ each (fun x found _ => Classical.epsilon_spec found)
      (fun x found _ => Classical.epsilon_spec found)
  exact ⟨a', e', chosen, (mapM_congr chosen).trans (mapM_pure op a' e')⟩

theorem exists_mapM_eq_ok_iff {ε : Type} [Nonempty A'] [Nonempty E'] {op : ScalarOp A E}
    {a : A → Except ε A'} {e : E → Except ε E'} : (∃ op', op.mapM a e = .ok op') ↔
      op.Forall (fun x => ∃ y, a x = .ok y) fun x => ∃ y, e x = .ok y := by
  constructor
  · rintro ⟨op', run⟩
    exact forall_of_mapM bind_eq_ok_iff.mp run
  · intro each
    obtain ⟨_, _, _, run⟩ := exists_mapM_eq each
    exact ⟨_, run⟩

theorem forall_of_mapM_eq_ok {ε : Type} [Nonempty A'] [Nonempty E'] {op : ScalarOp A E}
    {op' : ScalarOp A' E'} {a : A → Except ε A'} {e : E → Except ε E'}
    {a' : A' → Prop} {e' : E' → Prop} (run : op.mapM a e = .ok op')
    (each : op.Forall (fun x => ∀ y, a x = .ok y → a' y) fun x => ∀ y, e x = .ok y → e' y) :
    op'.Forall a' e' := by
  obtain ⟨va, ve, values, equal⟩ := exists_mapM_eq (forall_of_mapM bind_eq_ok_iff.mp run)
  obtain rfl : op.mapOperands va ve = op' := Except.ok.inj (equal.symm.trans run)
  rw [forall_mapOperands]
  exact each.imp₂ values (fun x holds value => holds _ value) (fun x holds value => holds _ value)

private theorem list_mapM_ne_error {ε : Type} {es : List E} {f : E → Except ε E'} {error : ε}
    (each : ∀ e ∈ es, f e ≠ .error error) : es.mapM f ≠ .error error := by
  intro failed
  obtain ⟨e, inside, here⟩ := exists_of_mapM_eq_error failed
  exact each e inside here

theorem mapM_ne_error {ε : Type} {op : ScalarOp A E} {a : A → Except ε A'} {e : E → Except ε E'}
    {error : ε} (each : op.Forall (fun x => a x ≠ .error error) fun x => e x ≠ .error error) :
    op.mapM a e ≠ .error error := by
  cases op with
  | tuple es =>
    have all : es.mapM e ≠ .error error := list_mapM_ne_error each.2
    simp [mapM, map_eq_error_iff, all]
  | primApp p es =>
    have all : es.mapM e ≠ .error error := list_mapM_ne_error each.2
    simp [mapM, map_eq_error_iff, all]
  | _ =>
    simp_all [Forall, array?, scalars, mapM, bind_eq_error_iff, map_eq_error_iff, pure_ne_error]

theorem mapM_mapM {ε : Type} [Nonempty A'] [Nonempty E'] [Nonempty A''] [Nonempty E'']
    {op : ScalarOp A E} {op' : ScalarOp A' E'} {a : A → Except ε A'} {e : E → Except ε E'}
    {a' : A' → Option A''} {e' : E' → Option E''} {a'' : A → Option A''} {e'' : E → Option E''}
    (run : op.mapM a e = .ok op')
    (each : op.Forall (fun x => ∀ y, a x = .ok y → ∃ z, a' y = some z ∧ a'' x = some z)
      fun x => ∀ y, e x = .ok y → ∃ z, e' y = some z ∧ e'' x = some z) :
    ∃ op'', op'.mapM a' e' = some op'' ∧ op.mapM a'' e'' = some op'' := by
  obtain ⟨va, ve, values, equal⟩ := exists_mapM_eq (forall_of_mapM bind_eq_ok_iff.mp run)
  obtain rfl : op.mapOperands va ve = op' := Except.ok.inj (equal.symm.trans run)
  have found : op.Forall (fun x => ∃ z, a'' x = pure z) (fun x => ∃ z, e'' x = pure z) := by
    refine values.imp₂ each ?_ ?_ <;>
    · intro x value step
      obtain ⟨z, _, direct⟩ := step _ value
      exact ⟨z, direct⟩
  have same : op.Forall (fun x => a' (va x) = a'' x) (fun x => e' (ve x) = e'' x) := by
    refine values.imp₂ each ?_ ?_ <;>
    · intro x value step
      obtain ⟨z, after, direct⟩ := step _ value
      exact after.trans direct.symm
  obtain ⟨_, _, _, result⟩ := exists_mapM_eq found
  exact ⟨_, (mapM_mapOperands op va ve a' e').trans ((mapM_congr same).trans result), result⟩

theorem eq_of_mapM {op op' : ScalarOp A E} {a : A → Option A} {e : E → Option E}
    (run : op.mapM a e = some op')
    (each : op.Forall (fun x => ∀ y, a x = some y → x = y) fun x => ∀ y, e x = some y → x = y) :
    op = op' := by
  have parts := forall_of_mapM Option.bind_eq_some_iff.mp run
  have kept : op.Forall (fun x => a x = pure (id x)) (fun x => e x = pure (id x)) := by
    refine parts.imp₂ each ?_ ?_ <;>
    · rintro x ⟨y, found⟩ unique
      rw [found, ← unique y found]
      rfl
  have whole : op.mapOperands id id = op := by cases op <;> simp [mapOperands, mapM]
  rw [mapM_congr kept, mapM_pure, whole] at run
  exact Option.some.inj run

theorem mapM_done {ε : Type} (op : ScalarOp A E) (a : A → Except ε Unit) (e : E → Except ε Unit) :
    (op.mapM a e >>= fun _ => pure ()) =
      forM op.array?.toList a >>= fun _ => forM op.scalars e := by
  have list (es : List E) : (fun _ => ()) <$> es.mapM e = forM es e := by
    induction es with
    | nil => rfl
    | cons x xs ih => simp [← ih]
  cases op <;> simp [mapM, array?, scalars, list]

end ScalarOp
end SharingRecovery
