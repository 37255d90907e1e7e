import NodeWeave.Hierarchy.Declared
import NodeWeave.Hierarchy.Outline
import NodeWeave.Pattern.Reader

/-!
Names of a written hierarchy stand for classes. A pattern stands for all declared nodes whose names
it matches, a simple name for a node of the grammar, a name behind a percent sign for a class in
the package of the nodes, and any other name for itself.
-/

namespace NodeWeave.Hierarchy

/-- What texts of patterns mean: whether a pattern is found in a name, if its text is valid. -/
abbrev Matcher := String → Option (String → Bool)

inductive Shorthand where
  | pattern (text : String)
  | quoted (simple : String)
  | simple (raw : String)
  | qualified (name : String)
  deriving DecidableEq, Repr

namespace Shorthand

def isSimple (name : List Char) : Bool :=
  !name.isEmpty && name.all Text.isWord

def ofPlainName (name : String) : Shorthand :=
  match Text.after? ['%'] name.toList with
  | some rest => quoted (String.ofList rest)
  | none => if isSimple name.toList then simple name else qualified name

def ofName (name : String) : Shorthand :=
  match Text.after? ['r', ':'] name.toList with
  | some rest => pattern (String.ofList rest)
  | none => ofPlainName name

@[simp] theorem ofName_pattern (text : String) : ofName ("r:" ++ text) = pattern text := by
  rw [ofName, String.toList_append,
    show Text.after? ['r', ':'] ("r:".toList ++ text.toList) = some text.toList from
      Text.after?_eq_some_iff.mpr rfl]
  exact congrArg pattern String.ofList_toList

def specificity : Shorthand → Specificity
  | pattern _ => .regex
  | quoted _ => .quoted
  | simple _ => .resolved
  | qualified _ => .qname

/-- The class that a name stands for, and the name by which the grammar may declare it. -/
def target (d : Declared) : Shorthand → String × String
  | pattern text => (text, text)
  | quoted short => (JavaName.qualify d.nodePackage short, short)
  | simple raw => (d.qualifiedName raw, raw)
  | qualified name => (name, name)

end Shorthand

namespace Outline

def classEntry (d : Declared) (entry : Entry) (specificity : Specificity) : Entry :=
  let (name, raw) := (Shorthand.ofPlainName entry.name).target d
  { name, place := entry.place, specificity
    external := !(d.declares raw || d.declaresClass name) }

def notInGrammar (entry : Entry) : Report :=
  .make .exactNodeNotInGrammar
    ("The node " ++ entry.name ++ " is not in the grammar (can be generated anyway)")
    [entry.place]

/-- The one class that an entry stands for. One that the grammar does not declare is reported. -/
def expandEntry (d : Declared) (entry : Entry) (specificity : Specificity) : Reported Entry :=
  let result := classEntry d entry specificity
  { value := result, reports := if result.external then [notInGrammar result] else [] }

/-- The text that is read for a pattern, which has to match whole names. -/
def wholeName (text : String) : String :=
  "^(?:" ++ text ++ ")$"

def found (d : Declared) (place : Place) (children : List Outline) (raw : String) : Outline :=
  node { name := d.qualifiedName raw, place, specificity := .regex } children

def notALeaf (matched : Nat) : String :=
  "Regex patterns should only be used as leaves, this pattern matches " ++ toString matched ++
    " nodes"

section

variable (compile : Matcher) (d : Declared)

mutual
/-- What one written node stands for, with the meaning that texts of patterns have. Nodes may stand
below a pattern that matches one name. -/
def expand : Outline → Reported (List Outline)
  | node entry children =>
      match Shorthand.ofName entry.name with
      | .pattern text =>
          match compile (wholeName text) with
          | none => do
              Reported.tell
                [.make .invalidRegex ("Invalid regex '" ++ text ++ "'") [entry.place]]
              return []
          | some isMatch =>
              match d.rawNames.filter isMatch, children with
              | [], [] => do
                  Reported.tell
                    [.make .unmatchedHierarchyRegex
                      ("Regex pattern '" ++ text ++ "' matches no nodes") [entry.place]]
                  return []
              | names, [] => return names.map (found d entry.place [])
              | [raw], child :: rest => do
                  Reported.tell [.make .regexShouldBeLeaf (notALeaf 1) [entry.place]]
                  return [found d entry.place (← expandAll (child :: rest)) raw]
              | names, _ :: _ => do
                  Reported.tell
                    [{ category := .regexShouldBeLeaf, severity := .error
                       message := notALeaf names.length, places := [entry.place] }]
                  return []
      | shorthand => do
          let entry ← expandEntry d entry shorthand.specificity
          return [node entry (← expandAll children)]

def expandAll : List Outline → Reported (List Outline)
  | [] => return []
  | outline :: rest => do return (← expand outline) ++ (← expandAll rest)
end

/-- What a hierarchy stands for. Its root is never a pattern. -/
def expandRootWith : Outline → Reported Outline
  | node entry children => do
      let entry ← expandEntry d entry .root
      return node entry (← expandAll compile d children)

theorem specificity_expandRootWith (outline : Outline) :
    (expandRootWith compile d outline).value.entry.specificity = .root := by
  cases outline
  rfl

end

/-- What a hierarchy stands for, with the patterns that are read here. -/
def expandRoot (d : Declared) : Outline → Reported Outline :=
  expandRootWith Pattern.compile? d

theorem specificity_expandRoot (d : Declared) (outline : Outline) :
    (expandRoot d outline).value.entry.specificity = .root :=
  specificity_expandRootWith Pattern.compile? d outline

end Outline

end NodeWeave.Hierarchy
