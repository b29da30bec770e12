/-!
# Tables

A table holds at most one entry for a key. A new entry stands behind the older ones, and an entry
that is replaced keeps its place.
-/

set_option autoImplicit false

namespace Interpose

/-- Keys with what is held for them. -/
structure Table (κ : Type) (α : Type) where
  entries : List (κ × α)

namespace Table

variable {κ : Type} {α : Type} [DecidableEq κ]

/-- The table without entries. -/
def empty : Table κ α := ⟨[]⟩

instance : Inhabited (Table κ α) := ⟨empty⟩

/-- What is held for the key in a list of entries. -/
def find (k : κ) : List (κ × α) → Option α
  | [] => none
  | (k', a) :: rest => if k' = k then some a else find k rest

/-- The entries with one for the key, in place of the one that it had. -/
def put (k : κ) (a : α) : List (κ × α) → List (κ × α)
  | [] => [(k, a)]
  | (k', a') :: rest => if k' = k then (k, a) :: rest else (k', a') :: put k a rest

/-- What is held for a key. -/
def get? (t : Table κ α) (k : κ) : Option α := find k t.entries

/-- Something is held for the key. -/
def contains (t : Table κ α) (k : κ) : Bool := (t.get? k).isSome

/-- The table with an entry for the key. -/
def insert (t : Table κ α) (k : κ) (a : α) : Table κ α := ⟨put k a t.entries⟩

/-- The table without an entry for the key. -/
def erase (t : Table κ α) (k : κ) : Table κ α := ⟨t.entries.filter fun e => e.1 ≠ k⟩

omit [DecidableEq κ] in
/-- How many keys have an entry. -/
def size (t : Table κ α) : Nat := t.entries.length

omit [DecidableEq κ] in
/-- The keys, in the order of their entries. -/
def keys (t : Table κ α) : List κ := t.entries.map Prod.fst

/-! ## Lookup after a change -/

theorem get?_empty (k : κ) : (empty : Table κ α).get? k = none := rfl

/-- The key that was written has the new entry, and the others keep theirs. -/
theorem get?_insert (t : Table κ α) (k k' : κ) (a : α) :
    (t.insert k a).get? k' = if k = k' then some a else t.get? k' := by
  obtain ⟨entries⟩ := t
  show find k' (put k a entries) = if k = k' then some a else find k' entries
  induction entries with
  | nil => rfl
  | cons e rest ih =>
    obtain ⟨k₀, a₀⟩ := e
    unfold put
    split
    · next h =>
      subst h
      by_cases hk : k₀ = k' <;> simp [find, hk]
    · next h =>
      by_cases hk : k₀ = k'
      · have hne : k ≠ k' := fun h' => h (hk.trans h'.symm)
        simp [find, hk, hne]
      · simp [find, hk, ih]

/-- The key that was erased has no entry, and the others keep theirs. -/
theorem get?_erase (t : Table κ α) (k k' : κ) :
    (t.erase k).get? k' = if k = k' then none else t.get? k' := by
  obtain ⟨entries⟩ := t
  show find k' (entries.filter fun e => e.1 ≠ k) = if k = k' then none else find k' entries
  induction entries with
  | nil => simp [find]
  | cons e rest ih =>
    obtain ⟨k₀, a₀⟩ := e
    by_cases h₀ : k₀ = k
    · subst h₀
      rw [List.filter_cons_of_neg (by simp), ih]
      by_cases hk : k₀ = k' <;> simp [find, hk]
    · rw [List.filter_cons_of_pos (by simp [h₀])]
      by_cases hk : k₀ = k'
      · have hne : k ≠ k' := fun h' => h₀ (hk.trans h'.symm)
        simp [find, hk, hne]
      · simp only [find, hk, if_false, ih]

end Table

end Interpose
