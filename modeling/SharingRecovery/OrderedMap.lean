set_option autoImplicit false

/-!
Finite maps that remember the order in which their keys first came, as lists of entries. Writing to
a key that is already there keeps its place.
-/

namespace SharingRecovery

/-- The entries of a map, in order of first insertion. -/
abbrev OrderedMap (κ α : Type) := List (κ × α)

namespace OrderedMap

variable {κ α : Type} [DecidableEq κ]

def get? (entries : OrderedMap κ α) (key : κ) : Option α :=
  entries.lookup key

/-- Writes a value: in place if the key is there, at the end if it is new. -/
def insert : OrderedMap κ α → κ → α → OrderedMap κ α
  | [], key, value => [(key, value)]
  | (k, v) :: rest, key, value =>
    if k = key then (k, value) :: rest else (k, v) :: insert rest key value

/-- Drops a key. The entries behind it move up. -/
def erase (entries : OrderedMap κ α) (key : κ) : OrderedMap κ α :=
  entries.filter fun entry => entry.1 ≠ key

def keys (entries : OrderedMap κ α) : List κ :=
  entries.map Prod.fst

theorem get?_insert (entries : OrderedMap κ α) (key other : κ) (value : α) :
    get? (insert entries key value) other =
      if other = key then some value else get? entries other := by
  have miss (a b : κ) (h : ¬a = b) : (a == b) = false := by simp [h]
  induction entries with
  | nil => by_cases h : other = key <;> simp [insert, get?, List.lookup_cons, miss, h]
  | cons entry rest ih =>
    obtain ⟨k, v⟩ := entry
    simp only [get?] at ih
    by_cases hk : k = key
    · subst hk
      by_cases h : other = k <;> simp [insert, get?, List.lookup_cons, miss, h]
    · by_cases h : other = k
      · subst h
        simp [insert, get?, hk]
      · simp [insert, get?, List.lookup_cons, hk, miss, h, ih]

theorem keys_insert (entries : OrderedMap κ α) (key : κ) (value : α) :
    keys (insert entries key value) =
      if key ∈ keys entries then keys entries else keys entries ++ [key] := by
  induction entries with
  | nil => simp [insert, keys]
  | cons entry rest ih =>
    obtain ⟨k, v⟩ := entry
    by_cases hk : k = key
    · subst hk
      simp [insert, keys]
    · simp only [keys] at ih
      have hk' : key ≠ k := fun h => hk h.symm
      by_cases hm : key ∈ rest.map Prod.fst <;> simp_all [insert, keys]

theorem mem_insert {entries : OrderedMap κ α} {key : κ} {value : α} {entry : κ × α}
    (member : entry ∈ insert entries key value) : entry ∈ entries ∨ entry = (key, value) := by
  induction entries with
  | nil => exact .inr (List.mem_singleton.mp member)
  | cons first rest ih =>
    obtain ⟨k, v⟩ := first
    rw [insert] at member
    split at member
    · rename_i same
      rcases List.mem_cons.mp member with rfl | member
      · exact .inr (by rw [same])
      · exact .inl (List.mem_cons_of_mem _ member)
    · rcases List.mem_cons.mp member with rfl | member
      · exact .inl List.mem_cons_self
      · exact (ih member).imp_left (List.mem_cons_of_mem _)

end OrderedMap
end SharingRecovery
