import NodeWeave.Grammar.Basic

/-! The exceptions that may leave a scope. -/

namespace NodeWeave.Grammar

def parseException : String := "ParseException"

def runtimeException : String := "RuntimeException"

/-- The names of the productions that are declared and not yet visited. -/
def unvisited (g : Grammar) (visited : List String) : List String :=
  (g.productions.map Production.name).filter fun name => !visited.contains name

theorem length_unvisited_cons_lt (g : Grammar) {visited : List String} {name : String}
    {p : Production} (fresh : visited.contains name = false)
    (declared : g.production? name = some p) :
    (g.unvisited (name :: visited)).length < (g.unvisited visited).length := by
  have mem : name ∈ g.unvisited visited := by
    simp only [unvisited, List.mem_filter, List.mem_map]
    refine ⟨⟨p, List.mem_of_find?_eq_some declared, ?_⟩, by simpa using fresh⟩
    have := List.find?_some declared
    simpa using this
  have narrower : g.unvisited (name :: visited) = (g.unvisited visited).filter (· != name) := by
    simp only [unvisited, List.filter_filter]
    apply List.filter_congr
    intro other _
    by_cases same : other = name <;> simp [same]
  rw [narrower]
  apply Nat.lt_of_le_of_ne (List.length_filter_le _ _)
  intro same
  have all := List.length_filter_eq_length_iff.1 same name mem
  simp at all

set_option linter.unusedVariables false in
/-- The productions reached from the pending references, in the order in which they are met. A name
that has been visited is not visited again, and a reference to nothing reaches nothing. -/
def reachable (g : Grammar) (visited : List String) : List String → List Production
  | [] => []
  | name :: pending =>
      match fresh : visited.contains name with
      | true => g.reachable visited pending
      | false =>
          match declared : g.production? name with
          | none => g.reachable visited pending
          | some p =>
              p :: g.reachable (name :: visited)
                ((p.expansion?.map Expansion.references).getD [] ++ pending)
termination_by pending => ((g.unvisited visited).length, pending.length)
decreasing_by
  · exact .right _ (by simp)
  · exact .right _ (by simp)
  · exact .left _ _ (g.length_unvisited_cons_lt fresh declared)

def insertSorted (name : String) : List String → List String
  | [] => [name]
  | other :: rest =>
      if name < other then name :: other :: rest
      else if name = other then other :: rest
      else other :: insertSorted name rest

def sortedDistinct (names : List String) : List String :=
  names.foldr insertSorted []

/-- The two exceptions that every scope rethrows, and the others in order. -/
def withStandardExceptions (thrown : List String) : List String :=
  runtimeException :: parseException ::
    (sortedDistinct thrown).filter fun e => e != runtimeException && e != parseException

/-- The exceptions that leave a body: those that the production around it declares, and those
that the productions reached from it declare. -/
def exceptionSet (g : Grammar) (enclosing : Option Production) (body : Expansion) :
    List String :=
  let visited := (enclosing.map Production.name).toList
  let own := (enclosing.map Production.throws).getD []
  withStandardExceptions
    (own ++ (g.reachable visited body.references).flatMap Production.throws)

/-- The exceptions that leave a production whose body cannot be analysed. -/
def declaredExceptionSet (throws : List String) : List String :=
  withStandardExceptions throws

@[simp] theorem mem_insertSorted {name other : String} {names : List String} :
    name ∈ insertSorted other names ↔ name = other ∨ name ∈ names := by
  induction names with
  | nil => simp [insertSorted]
  | cons first rest ih =>
      simp only [insertSorted]
      split
      · simp
      · split
        · next same => subst same; simp
        · simp only [List.mem_cons, ih]
          constructor
          · rintro (h | h | h) <;> simp [h]
          · rintro (h | h | h) <;> simp [h]

@[simp] theorem mem_sortedDistinct {name : String} {names : List String} :
    name ∈ sortedDistinct names ↔ name ∈ names := by
  induction names with
  | nil => simp [sortedDistinct]
  | cons first rest ih =>
      rw [sortedDistinct, List.foldr_cons, mem_insertSorted, List.mem_cons]
      exact or_congr_right ih

end NodeWeave.Grammar
