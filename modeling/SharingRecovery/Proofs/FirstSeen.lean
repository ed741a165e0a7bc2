import Mathlib.Data.List.Induction
import Mathlib.Data.List.Nodup
import SharingRecovery.OrderedMap

set_option autoImplicit false

/-!
Keys in the order in which they are first seen: a key that is already known keeps its place, a new
one goes to the end. This is the order of the keys of an ordered map.
-/

namespace SharingRecovery

variable {κ α : Type} [DecidableEq κ]

/-- Known keys, then those of another list that are new, in order of first appearance. -/
def firstSeen (known more : List κ) : List κ :=
  more.foldl (fun seen key => if key ∈ seen then seen else seen ++ [key]) known

theorem firstSeen_cons (known more : List κ) (key : κ) :
    firstSeen known (key :: more) =
      firstSeen (if key ∈ known then known else known ++ [key]) more :=
  rfl

theorem firstSeen_append (known more others : List κ) :
    firstSeen known (more ++ others) = firstSeen (firstSeen known more) others :=
  List.foldl_append

theorem firstSeen_singleton (known : List κ) (key : κ) :
    firstSeen known [key] = if key ∈ known then known else known ++ [key] :=
  rfl

@[simp]
theorem mem_firstSeen {known more : List κ} {key : κ} :
    key ∈ firstSeen known more ↔ key ∈ known ∨ key ∈ more := by
  induction more generalizing known with
  | nil => simp [firstSeen]
  | cons other more ih =>
    rw [firstSeen_cons, ih]
    split
    · rename_i old
      rw [List.mem_cons]
      constructor
      · exact Or.imp_right .inr
      · rintro (inside | rfl | inside)
        · exact .inl inside
        · exact .inl old
        · exact .inr inside
    · simp [or_assoc]

theorem firstSeen_of_subset {known more : List κ} (subset : more ⊆ known) :
    firstSeen known more = known := by
  induction more with
  | nil => rfl
  | cons key more ih =>
    rw [firstSeen_cons, if_pos (subset List.mem_cons_self)]
    exact ih fun other inside => subset (List.mem_cons_of_mem key inside)

theorem nodup_firstSeen {known : List κ} (nodup : known.Nodup) (more : List κ) :
    (firstSeen known more).Nodup := by
  induction more generalizing known with
  | nil => exact nodup
  | cons key more ih =>
    rw [firstSeen_cons]
    split
    · exact ih nodup
    · rename_i fresh
      exact ih (List.nodup_append_comm.mp (List.nodup_cons.mpr ⟨fresh, nodup⟩))

theorem filter_firstSeen (p : κ → Bool) (known more : List κ) :
    (firstSeen known more).filter p = firstSeen (known.filter p) (more.filter p) := by
  induction more generalizing known with
  | nil => rfl
  | cons key more ih =>
    rw [firstSeen_cons, ih]
    by_cases kept : p key
    · rw [List.filter_cons_of_pos kept, firstSeen_cons]
      by_cases old : key ∈ known <;> simp [old, kept]
    · rw [List.filter_cons_of_neg kept]
      by_cases old : key ∈ known <;> simp [old, kept]

theorem firstSeen_assoc (known more others : List κ) :
    firstSeen known (firstSeen more others) = firstSeen (firstSeen known more) others := by
  induction others using List.reverseRecOn with
  | nil => rfl
  | append_singleton others key ih =>
    rw [firstSeen_append, firstSeen_append, ← ih, firstSeen_singleton]
    split
    · rename_i old
      rw [firstSeen_singleton, if_pos (mem_firstSeen.mpr (.inr old))]
    · rw [firstSeen_append]

theorem firstSeen_eq_append {more : List κ} (nodup : more.Nodup) (known : List κ) :
    firstSeen known more = known ++ more.filter (· ∉ known) := by
  induction more generalizing known with
  | nil => simp [firstSeen]
  | cons key more ih =>
    obtain ⟨fresh, nodup⟩ := List.nodup_cons.mp nodup
    rw [firstSeen_cons, ih nodup]
    split
    · rename_i old
      simp [old]
    · rename_i new
      have same : more.filter (· ∉ known ++ [key]) = more.filter (· ∉ known) := by
        refine List.filter_congr fun other inside => ?_
        have different : other ≠ key := fun same => fresh (same ▸ inside)
        simp [different]
      rw [same, List.filter_cons_of_pos (by simpa using new), List.append_assoc,
        List.singleton_append]

namespace OrderedMap

theorem keys_insert_eq (entries : OrderedMap κ α) (key : κ) (value : α) :
    keys (insert entries key value) = firstSeen (keys entries) [key] := by
  rw [keys_insert, firstSeen_singleton]

theorem mem_keys_iff {entries : OrderedMap κ α} {key : κ} :
    key ∈ keys entries ↔ ∃ value, get? entries key = some value := by
  induction entries with
  | nil => simp [keys, get?]
  | cons entry rest ih =>
    obtain ⟨k, v⟩ := entry
    simp only [keys, get?] at ih
    by_cases same : key = k
    · simp [keys, get?, same]
    · have miss : (key == k) = false := by simp [same]
      simp [keys, get?, List.lookup_cons, same, miss, ih]

theorem mem_of_get? {entries : OrderedMap κ α} {key : κ} {value : α}
    (found : get? entries key = some value) : (key, value) ∈ entries := by
  induction entries with
  | nil => simp [get?] at found
  | cons entry rest ih =>
    obtain ⟨k, v⟩ := entry
    rw [get?, List.lookup_cons] at found
    split at found
    · rename_i same
      rw [beq_iff_eq.mp same, ← Option.some.inj found]
      exact List.mem_cons_self
    · exact List.mem_cons_of_mem _ (ih found)

theorem lookup_eq_map {β : Type} {replace : List (κ × α) → List (κ × β)} {value : α → β}
    (nil : replace [] = []) (cons : ∀ key a rest,
      replace ((key, a) :: rest) = (key, value a) :: replace rest)
    (entries : List (κ × α)) (key : κ) :
    (replace entries).lookup key = (entries.lookup key).map value := by
  induction entries with
  | nil => rw [nil]; rfl
  | cons entry rest ih =>
    obtain ⟨k, a⟩ := entry
    rw [cons, List.lookup_cons, List.lookup_cons, ih]
    cases key == k <;> rfl

theorem get?_of_mem {entries : OrderedMap κ α} (nodup : (keys entries).Nodup) {entry : κ × α}
    (member : entry ∈ entries) : get? entries entry.1 = some entry.2 := by
  induction entries with
  | nil => simp at member
  | cons head rest ih =>
    obtain ⟨fresh, nodup⟩ := List.nodup_cons.mp nodup
    rw [get?, List.lookup_cons]
    rcases List.mem_cons.mp member with rfl | member
    · simp
    · have different : entry.1 ≠ head.1 := fun same => fresh (same ▸ List.mem_map_of_mem member)
      rw [beq_false_of_ne different]
      exact ih nodup member

theorem get?_erase (entries : OrderedMap κ α) {key other : κ} (different : other ≠ key) :
    get? (erase entries key) other = get? entries other := by
  induction entries with
  | nil => rfl
  | cons entry rest ih =>
    obtain ⟨k, v⟩ := entry
    simp only [get?, erase, List.lookup_cons] at ih ⊢
    by_cases same : k = key
    · rw [List.filter_cons_of_neg (by simpa using same), ih, same, beq_false_of_ne different]
    · rw [List.filter_cons_of_pos (by simpa using same), List.lookup_cons, ih]

end OrderedMap
end SharingRecovery
