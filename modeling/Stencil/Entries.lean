import Stencil.Text

/-! Named entries in the order of their first insertion. Main statements: a lookup after an
insertion finds the inserted value, and an insertion appends its key only when it is new. -/
namespace Stencil

abbrev Entries (α : Type) := List (Text × α)

namespace Entries
variable {α : Type}

def get? : Entries α → Text → Option α
  | [], _ => none
  | (k, v) :: rest, key => if k = key then some v else get? rest key

def contains (entries : Entries α) (key : Text) : Bool := (entries.get? key).isSome

def keys (entries : Entries α) : List Text := entries.map (·.1)

/-- A new key goes to the end; a present key keeps its place and takes the new value. -/
def insert : Entries α → Text → α → Entries α
  | [], key, value => [(key, value)]
  | (k, v) :: rest, key, value =>
    if k = key then (k, value) :: rest else (k, v) :: insert rest key value

/-- The entries without the one of a key. -/
def erase (entries : Entries α) (key : Text) : Entries α :=
  entries.filter fun entry => entry.1 != key

/-- Inserts all entries of `upper`, in order. -/
def overlay (entries upper : Entries α) : Entries α :=
  upper.foldl (fun acc entry => acc.insert entry.1 entry.2) entries

theorem get?_insert (entries : Entries α) (key : Text) (value : α) (k : Text) :
    (entries.insert key value).get? k = if key = k then some value else entries.get? k := by
  induction entries with
  | nil => rfl
  | cons entry rest ih =>
    obtain ⟨k', v⟩ := entry
    simp only [insert]
    by_cases hk : k' = key
    · subst hk
      simp only [if_true, get?]
      split <;> rfl
    · simp only [if_neg hk, get?, ih]
      by_cases h : k' = k
      · have : key ≠ k := fun e => hk (h.trans e.symm)
        simp [h, this]
      · simp [h]

theorem keys_insert (entries : Entries α) (key : Text) (value : α) :
    (entries.insert key value).keys =
      if key ∈ entries.keys then entries.keys else entries.keys ++ [key] := by
  induction entries with
  | nil => rfl
  | cons entry rest ih =>
    obtain ⟨k, v⟩ := entry
    by_cases hk : k = key
    · simp [insert, keys, hk]
    · have hk' : ¬key = k := fun e => hk e.symm
      simp only [keys] at ih
      by_cases hm : key ∈ rest.map (·.1) <;>
        simp_all [insert, keys]

theorem nodup_keys_insert {entries : Entries α} (h : entries.keys.Nodup) (key : Text)
    (value : α) : (entries.insert key value).keys.Nodup := by
  rw [keys_insert]
  split
  · exact h
  · rename_i hk
    refine List.nodup_append.2 ⟨h, by simp, ?_⟩
    intro a ha b hb hab
    simp only [List.mem_singleton] at hb
    exact hk (hb ▸ hab ▸ ha)

end Entries
end Stencil
