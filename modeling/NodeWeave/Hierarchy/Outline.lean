import NodeWeave.Hierarchy.Specificity
import NodeWeave.Report.Basic
import NodeWeave.Text.Blank
import NodeWeave.Yaml.Basic

/-!
Hierarchies as they are written: a name, or a name with the names below it. Malformed parts are
reported and left out.
-/

namespace NodeWeave.Hierarchy

structure Entry where
  name : String
  /-- Where the node is written or declared. -/
  place : Place
  specificity : Specificity := .unknown
  /-- The grammar does not declare the node. -/
  external : Bool := false
  deriving DecidableEq, Repr

inductive Outline where
  | node (entry : Entry) (children : List Outline)
  deriving Repr

namespace Outline

def entry : Outline → Entry
  | node entry _ => entry

def children : Outline → List Outline
  | node _ children => children

mutual
def size : Outline → Nat
  | node _ children => 1 + sizeAll children

def sizeAll : List Outline → Nat
  | [] => 0
  | outline :: rest => size outline + sizeAll rest
end

mutual
def entries : Outline → List Entry
  | node entry children => entry :: entriesAll children

def entriesAll : List Outline → List Entry
  | [] => []
  | outline :: rest => entries outline ++ entriesAll rest
end

@[simp] theorem entry_node (entry : Entry) (children : List Outline) :
    (node entry children).entry = entry := rfl

@[simp] theorem children_node (entry : Entry) (children : List Outline) :
    (node entry children).children = children := rfl

mutual
theorem length_entries (outline : Outline) : outline.entries.length = outline.size := by
  cases outline with
  | node entry children =>
      rw [entries, size, List.length_cons, length_entriesAll children, Nat.add_comm]

theorem length_entriesAll (outlines : List Outline) :
    (entriesAll outlines).length = sizeAll outlines := by
  cases outlines with
  | nil => rfl
  | cons outline rest =>
      rw [entriesAll, sizeAll, List.length_append, length_entries outline,
        length_entriesAll rest]
end

def kindName : Yaml → String
  | .null => "null"
  | .bool _ => "a boolean"
  | .int _ | .float _ => "a number"
  | .text _ => "a string"
  | .list _ => "a sequence"
  | .map _ => "a map"
  | .tagged _ _ => "a tagged value"

def wrongType (expected : String) (value : Yaml) (path : DataPath) : Report :=
  .make .wrongType ("expected " ++ expected ++ ", got " ++ kindName value) [.data path]

def entryOfName (name : String) (path : DataPath) : Reported (Option Entry) :=
  let name := Text.trim name
  if name.isEmpty then do
    Reported.tell
      [.make .wrongType "expected a node name, got an empty string" [.data path]]
    return none
  else return some { name, place := .data path }

def leafOfName (name : String) (path : DataPath) : Reported (Option Outline) := do
  return (← entryOfName name path).map fun entry => node entry []

mutual
def ofValue (path : DataPath) : Yaml → Reported (Option Outline)
  | .text name => leafOfName name path
  | .map [] => do
      Reported.tell [.make .noHierarchyRoots "expected one root" [.data path]]
      return none
  | .map [root] => ofRoot path root
  | .map roots => do
      Reported.tell
        [.make .multipleHierarchyRoots (toString roots.length ++ " roots, expected one")
          [.data path]]
      return none
  | value => do
      Reported.tell [wrongType "a string or a map" value path]
      return none

/-- A name and what is below it. The path goes on with the name as it is written. -/
def ofRoot (path : DataPath) : Yaml × Yaml → Reported (Option Outline)
  | (.text name, below) => do
      let place := path ++ [name]
      match ← entryOfName name place with
      | none => return none
      | some entry => return (← ofBelow place below).map (node entry)
  | (key, _) => do
      Reported.tell [wrongType "a node name" key path]
      return none

/-- What is below a name, unless the value cannot say it. -/
def ofBelow (path : DataPath) : Yaml → Reported (Option (List Outline))
  | .text name => do return some (← leafOfName name path).toList
  | .list items => do return some (← ofItems path 0 items)
  | value => do
      Reported.tell [wrongType "a sequence or a string" value path]
      return none

def ofItems (path : DataPath) (index : Nat) : List Yaml → Reported (List Outline)
  | [] => return []
  | item :: rest => do
      let first ← ofValue (path ++ [toString index]) item
      return first.toList ++ (← ofItems path (index + 1) rest)
end

def dataPath : DataPath :=
  ["jjtx", "typeHierarchy"]

def defaultRoot : Outline :=
  node { name := "Node", place := .data dataPath } []

def asRoot : Outline → Outline
  | node entry children => node { entry with specificity := .root } children

@[simp] theorem specificity_asRoot (outline : Outline) :
    outline.asRoot.entry.specificity = .root := by
  cases outline
  rfl

def written? : Option Yaml → Reported (Option Outline)
  | none | some .null => return none
  | some value => ofValue dataPath value

def ofYaml (value : Option Yaml) : Reported Outline := do
  return ((← written? value).getD defaultRoot).asRoot

@[simp] theorem ofYaml_none : (ofYaml none).value = defaultRoot.asRoot := rfl

end Outline

end NodeWeave.Hierarchy
