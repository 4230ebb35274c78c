/-!
# Named entries

Lists of entries with a name each.  Inserting under a name that is present
replaces its entry where it stands; a new name goes to the end, so the order of
the entries is that of their first insertion.
-/

namespace Treewalk

abbrev Assoc (α : Type) := List (String × α)

namespace Assoc

variable {α : Type}

def find? (name : String) : Assoc α → Option α
  | [] => none
  | (key, value) :: rest => if key = name then some value else find? name rest

def insert (name : String) (value : α) : Assoc α → Assoc α
  | [] => [(name, value)]
  | (key, old) :: rest =>
      if key = name then (key, value) :: rest else (key, old) :: insert name value rest

def names (entries : Assoc α) : List String := entries.map Prod.fst

def has (name : String) (entries : Assoc α) : Bool := (entries.find? name).isSome

theorem find?_insert (name key : String) (value : α) (entries : Assoc α) :
    (entries.insert key value).find? name =
      if key = name then some value else entries.find? name := by
  induction entries with
  | nil => simp [insert, find?]
  | cons entry rest ih =>
      obtain ⟨k, old⟩ := entry
      by_cases hk : k = key <;> by_cases hn : k = name <;> simp_all [insert, find?]
      · intro h
        exact absurd h.symm hk

@[simp] theorem find?_insert_self (name : String) (value : α) (entries : Assoc α) :
    (entries.insert name value).find? name = some value := by
  simp [find?_insert]

theorem names_insert_of_has {name : String} {entries : Assoc α} (value : α)
    (h : (entries.find? name).isSome) : (entries.insert name value).names = entries.names := by
  induction entries with
  | nil => simp [find?] at h
  | cons entry rest ih =>
      obtain ⟨k, old⟩ := entry
      by_cases hk : k = name
      · simp [insert, hk, names]
      · simp only [find?, hk, if_false] at h
        simpa [insert, hk, names] using ih h

end Assoc

end Treewalk
