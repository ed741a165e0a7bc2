import Mathlib.Data.List.Forall2
import SharingRecovery.Fault

set_option autoImplicit false

/-!
Computations that may fail, seen from their results: what has to have succeeded for the whole to
succeed.
-/

namespace SharingRecovery

variable {ε α β γ : Type}

theorem bind_eq_ok_iff {x : Except ε α} {f : α → Except ε β} {b : β} :
    (x >>= f) = .ok b ↔ ∃ a, x = .ok a ∧ f a = .ok b := by
  cases x with
  | error e => simp [bind, Except.bind]
  | ok a => simp [bind, Except.bind]

theorem ok_bind (a : α) (f : α → Except ε β) : (.ok a >>= f) = f a :=
  rfl

theorem pure_eq_ok_iff {a b : α} : (pure a : Except ε α) = .ok b ↔ a = b := by
  simp [pure, Except.pure]

theorem exists_bind_eq_ok_iff {x : Except ε α} {f : α → Except ε β} :
    (∃ b, (x >>= f) = .ok b) ↔ ∃ a, x = .ok a ∧ ∃ b, f a = .ok b := by
  simp only [bind_eq_ok_iff]
  exact ⟨fun ⟨b, a, first, second⟩ => ⟨a, first, b, second⟩,
    fun ⟨a, first, b, second⟩ => ⟨b, a, first, second⟩⟩

theorem exists_bind_pure_eq_ok_iff {x : Except ε α} {f : α → β} :
    (∃ b, (x >>= fun a => pure (f a)) = .ok b) ↔ ∃ a, x = .ok a := by
  rw [exists_bind_eq_ok_iff]
  exact exists_congr fun a => and_iff_left ⟨f a, rfl⟩

theorem exists_bind_bind_pure_eq_ok_iff {x : Except ε α} {y : Except ε β} {f : α → β → γ} :
    (∃ c, (x >>= fun a => y >>= fun b => pure (f a b)) = .ok c) ↔
      (∃ a, x = .ok a) ∧ ∃ b, y = .ok b := by
  rw [exists_bind_eq_ok_iff]
  simp only [exists_bind_pure_eq_ok_iff, exists_and_right]

theorem bind_eq_error_iff {x : Except ε α} {f : α → Except ε β} {e : ε} :
    (x >>= f) = .error e ↔ x = .error e ∨ ∃ a, x = .ok a ∧ f a = .error e := by
  cases x with
  | error e' => simp [bind, Except.bind]
  | ok a => simp [bind, Except.bind]

theorem bind_ne_error {x : Except ε α} {f : α → Except ε β} {e : ε} (here : x ≠ .error e)
    (next : ∀ a, x = .ok a → f a ≠ .error e) : (x >>= f) ≠ .error e := by
  rw [ne_eq, bind_eq_error_iff]
  rintro (failed | ⟨a, run, failed⟩)
  · exact here failed
  · exact next a run failed

theorem map_eq_ok_iff {x : Except ε α} {f : α → β} {b : β} :
    f <$> x = .ok b ↔ ∃ a, x = .ok a ∧ f a = b := by
  cases x with
  | error e => simp [Functor.map, Except.map]
  | ok a => simp [Functor.map, Except.map]

theorem map_eq_error_iff {x : Except ε α} {f : α → β} {e : ε} :
    f <$> x = .error e ↔ x = .error e := by
  cases x with
  | error e' => simp [Functor.map, Except.map]
  | ok a => simp [Functor.map, Except.map]

theorem pure_ne_error {a : α} {e : ε} : (pure a : Except ε α) ≠ .error e := by
  simp [pure, Except.pure]

theorem bind_pure_eq_error_iff {x : Except ε α} {f : α → β} {e : ε} :
    (x >>= fun a => pure (f a)) = .error e ↔ x = .error e := by
  rw [bind_pure_comp, map_eq_error_iff]

theorem Fault.require_ne_error {fault other : Fault} (different : fault ≠ other) {x : Option α} :
    fault.require x ≠ .error other := by
  cases x with
  | none => exact fun same => different (Except.error.inj same)
  | some a => exact nofun

theorem Fault.require_eq_ok_iff {fault : Fault} {x : Option α} {a : α} :
    fault.require x = .ok a ↔ x = some a := by
  cases x <;> simp [Fault.require]

def resultAt {κ : Type} [BEq κ] (missing : ε) (results : List (κ × Except ε α)) (key : κ) :
    Except ε α :=
  match results.lookup key with
  | some result => result
  | none => .error missing

section Results

variable {κ : Type} [BEq κ] {missing : ε} {results : List (κ × Except ε α)} {key : κ}

theorem resultAt_eq_ok_iff {a : α} :
    resultAt missing results key = .ok a ↔ results.lookup key = some (.ok a) := by
  unfold resultAt
  cases results.lookup key <;> simp

theorem resultAt_ne_error {e : ε} (found : results.lookup key ≠ some (.error e))
    (different : missing ≠ e) : resultAt missing results key ≠ .error e := by
  unfold resultAt
  cases looked : results.lookup key with
  | none => exact fun failed => different (Except.error.inj failed)
  | some result => exact fun failed => found (failed ▸ looked)

end Results

theorem mapM_eq_ok_iff {f : α → Except ε β} {as : List α} {bs : List β} :
    as.mapM f = .ok bs ↔ List.Forall₂ (fun a b => f a = .ok b) as bs := by
  induction as generalizing bs with
  | nil => cases bs <;> simp [pure_eq_ok_iff]
  | cons a as ih =>
    rw [List.mapM_cons, bind_eq_ok_iff]
    constructor
    · rintro ⟨b, head, rest⟩
      obtain ⟨bs', tail, equal⟩ := bind_eq_ok_iff.mp rest
      rw [pure_eq_ok_iff] at equal
      subst equal
      exact .cons head (ih.mp tail)
    · intro related
      cases related with
      | cons head tail =>
        exact ⟨_, head, bind_eq_ok_iff.mpr ⟨_, ih.mpr tail, rfl⟩⟩

theorem mapM_map_result (f : α → Except ε β) (g : β → γ) (as : List α) :
    as.mapM (fun a => g <$> f a) = List.map g <$> as.mapM f := by
  induction as with
  | nil => rfl
  | cons a as ih =>
    rw [List.mapM_cons, List.mapM_cons, ih]
    cases f a with
    | error e => rfl
    | ok b => cases as.mapM f <;> rfl

theorem exists_right_of_mem {R : α → β → Prop} {as : List α} {bs : List β}
    (related : List.Forall₂ R as bs) {a : α} (member : a ∈ as) : ∃ b ∈ bs, R a b := by
  obtain ⟨i, bound, rfl⟩ := List.getElem_of_mem member
  obtain ⟨length, each⟩ := List.forall₂_iff_get.mp related
  exact ⟨_, List.getElem_mem (length ▸ bound), each i bound (length ▸ bound)⟩

theorem exists_left_of_mem {R : α → β → Prop} {as : List α} {bs : List β}
    (related : List.Forall₂ R as bs) {b : β} (member : b ∈ bs) : ∃ a ∈ as, R a b :=
  exists_right_of_mem (R := flip R) related.flip member

theorem exists_of_mem_mapM {f : α → Except ε β} {as : List α} {bs : List β}
    (run : as.mapM f = .ok bs) {a : α} (member : a ∈ as) : ∃ b ∈ bs, f a = .ok b :=
  exists_right_of_mem (mapM_eq_ok_iff.mp run) member

theorem exists_of_mem_result {f : α → Except ε β} {as : List α} {bs : List β}
    (run : as.mapM f = .ok bs) {b : β} (member : b ∈ bs) : ∃ a ∈ as, f a = .ok b :=
  exists_left_of_mem (mapM_eq_ok_iff.mp run) member

theorem exists_of_mapM_eq_error {f : α → Except ε β} {as : List α} {e : ε}
    (failed : as.mapM f = .error e) : ∃ a ∈ as, f a = .error e := by
  induction as with
  | nil => exact absurd failed pure_ne_error
  | cons a as ih =>
    rw [List.mapM_cons, bind_eq_error_iff] at failed
    rcases failed with here | ⟨_, _, failed⟩
    · exact ⟨a, List.mem_cons_self, here⟩
    · rcases bind_eq_error_iff.mp failed with failed | ⟨_, _, failed⟩
      · obtain ⟨b, inside, there⟩ := ih failed
        exact ⟨b, List.mem_cons_of_mem a inside, there⟩
      · exact absurd failed pure_ne_error

theorem foldlM_cons_eq_ok_iff {f : β → α → Except ε β} {a : α} {as : List α} {b b' : β} :
    (a :: as).foldlM f b = .ok b' ↔ ∃ middle, f b a = .ok middle ∧ as.foldlM f middle = .ok b' := by
  rw [List.foldlM_cons, bind_eq_ok_iff]

theorem foldlM_nil_eq_ok_iff {f : β → α → Except ε β} {b b' : β} :
    [].foldlM f b = .ok b' ↔ b = b' := by
  rw [List.foldlM_nil, pure_eq_ok_iff]

theorem foldlM_invariant {holds : β → Prop} {f : β → α → Except ε β} {as : List α} {b b' : β}
    (step : ∀ a ∈ as, ∀ b b', holds b → f b a = .ok b' → holds b') (start : holds b)
    (run : as.foldlM f b = .ok b') : holds b' := by
  induction as generalizing b with
  | nil =>
    rw [foldlM_nil_eq_ok_iff] at run
    exact run ▸ start
  | cons a as ih =>
    obtain ⟨middle, first, rest⟩ := foldlM_cons_eq_ok_iff.mp run
    have kept := step a List.mem_cons_self b middle start first
    exact ih (fun other inside => step other (List.mem_cons_of_mem a inside)) kept rest

theorem forM_flatMap_eq {as : List α} {items : α → List β} {f : α → Except ε Unit}
    {visit : β → Except ε Unit} (each : ∀ a ∈ as, f a = forM (items a) visit) :
    forM as f = forM (as.flatMap items) visit := by
  induction as with
  | nil => rfl
  | cons a as ih =>
    obtain ⟨here, others⟩ := List.forall_mem_cons.mp each
    rw [List.forM_cons, List.flatMap_cons, List.forM_append, here, ih others]

theorem forM_eq_ok_iff {f : α → Except ε Unit} {as : List α} :
    forM as f = .ok () ↔ ∀ a ∈ as, f a = .ok () := by
  induction as with
  | nil => simp [pure_eq_ok_iff]
  | cons a as ih =>
    rw [List.forM_cons, bind_eq_ok_iff, List.forall_mem_cons, ← ih]
    constructor
    · rintro ⟨_, here, others⟩
      exact ⟨here, others⟩
    · rintro ⟨here, others⟩
      exact ⟨(), here, others⟩

theorem forM_eq_error_iff {as : List α} {f : α → Except ε Unit} {e : ε} : forM as f = .error e ↔
    ∃ before a after, as = before ++ a :: after ∧ (∀ b ∈ before, f b = .ok ()) ∧
    f a = .error e := by
  induction as with
  | nil => simp [pure, Except.pure]
  | cons a as ih =>
    rw [List.forM_cons, bind_eq_error_iff, ih]
    constructor
    · rintro (failed | ⟨_, passed, before, b, after, rfl, all, failed⟩)
      · exact ⟨[], a, as, rfl, nofun, failed⟩
      · exact ⟨a :: before, b, after, rfl, List.forall_mem_cons.mpr ⟨passed, all⟩, failed⟩
    · rintro ⟨_ | ⟨b, before⟩, c, after, same, all, failed⟩
      · obtain ⟨rfl, rfl⟩ := List.cons.inj same
        exact .inl failed
      · obtain ⟨rfl, rfl⟩ := List.cons.inj same
        obtain ⟨passed, all⟩ := List.forall_mem_cons.mp all
        exact .inr ⟨(), passed, before, c, after, rfl, all, failed⟩

end SharingRecovery
