/-! Values by name, in the order of the names. -/

namespace NodeWeave

abbrev Index (α : Type) := List (String × α)

namespace Index

variable {α : Type}

def insert (name : String) (value : α) : Index α → Index α
  | [] => [(name, value)]
  | (other, old) :: rest =>
      if name < other then (name, value) :: (other, old) :: rest
      else if name = other then (name, value) :: rest
      else (other, old) :: insert name value rest

/-- The values in order. Of two with one name the later one stays. -/
def ofList (values : List (String × α)) : Index α :=
  values.foldl (fun index (name, value) => insert name value index) []

def names (index : Index α) : List String :=
  index.map (·.1)

theorem lookup_insert_self (name : String) (value : α) (index : Index α) :
    (insert name value index).lookup name = some value := by
  induction index with
  | nil => simp [insert]
  | cons entry rest ih =>
      obtain ⟨other, old⟩ := entry
      by_cases less : name < other
      · simp [insert, less]
      · by_cases same : name = other
        · simp [insert, same]
        · rw [insert, if_neg less, if_neg same, List.lookup_cons]
          have differs : (name == other) = false := by simpa using same
          rw [differs]
          exact ih

theorem lookup_insert_of_ne {name query : String} (ne : query ≠ name) (value : α)
    (index : Index α) : (insert name value index).lookup query = index.lookup query := by
  induction index with
  | nil =>
      have differs : (query == name) = false := by simpa using ne
      rw [insert, List.lookup_cons, differs]
  | cons entry rest ih =>
      obtain ⟨other, old⟩ := entry
      have differs : (query == name) = false := by simpa using ne
      by_cases less : name < other
      · rw [insert, if_pos less, List.lookup_cons, differs]
      · by_cases same : name = other
        · rw [insert, if_neg less, if_pos same, List.lookup_cons, differs, List.lookup_cons,
            ← same, differs]
        · rw [insert, if_neg less, if_neg same, List.lookup_cons, List.lookup_cons, ih]

end Index

end NodeWeave
