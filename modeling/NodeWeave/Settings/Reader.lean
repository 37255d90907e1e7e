import NodeWeave.Settings.Basic
import NodeWeave.Text.Blank

/-! Reading option files. What they say stands under one key; other keys are passed over. -/

namespace NodeWeave.Settings

open Yaml

def fieldNames : List String :=
  ["nodePrefix", "nodePackage", "typeHierarchy", "javaccGen", "templateContext", "visitors",
    "nodeGen"]

/-- How deep values may still be in the fields of the settings. -/
def fieldDepth : Nat := Document.maxDepth - 2

def readVisitors (d : Document) (node : Node) : Decode (Index FileSpec) := do
  let entries ← d.entriesOf node
  let specs ← entries.mapM fun (k, v) => do
    let name ← d.textOf k
    let spec ← FileSpec.ofNode d (fieldDepth - 1) v
    return (name, spec)
  return Index.ofList specs

def readNodeFiles (d : Document) (node : Node) : Decode (List FileSpec) := do
  let fields ← d.fieldsOf ["templates"] node
  match fields.lookup "templates" with
  | some n => do
      let items ← d.itemsOf n
      items.mapM (FileSpec.ofNode d (fieldDepth - 2))
  | none => return []

def ofNode (d : Document) (node : Node) : Decode Settings := do
  let fields ← d.fieldsOf fieldNames node
  let field {α : Type} (name : String) (read : Node → Decode α) : Decode (Option α) :=
    match fields.lookup name with
    | some n => d.optional read n
    | none => pure none
  let visitors ←
    match fields.lookup "visitors" with
    | some n => readVisitors d n
    | none => pure []
  return {
    nodePrefix := ← field "nodePrefix" d.textOf
    nodePackage := ← field "nodePackage" d.textOf
    hierarchy := ← field "typeHierarchy" (d.value fieldDepth)
    generation := ← field "javaccGen" (d.entriesValue fieldDepth)
    context := ← field "templateContext" (d.entriesValue fieldDepth)
    visitors
    nodeFiles := ← field "nodeGen" (readNodeFiles d) }

def readText (text : String) : Except Problem Settings := do
  let d ← Document.read text
  match d.root with
  | none => return {}
  | some root =>
      d.decode do
        let fields ← d.fieldsOf ["jjtx"] root
        match fields.lookup "jjtx" with
        | some n => return (← d.optional (ofNode d) n).getD {}
        | none => return {}

/-- Reads switches as they are written. Those that are missing have their defaults. -/
def readSwitches (text : String) : Except Problem Switches := do
  let d ← Document.read text
  match d.root with
  | none => return {}
  | some root =>
      d.decode do
        let fields ← d.fieldsOf switchNames root
        let known := fields.filter fun (name, _) => switchNames.contains name
        let values ← known.mapM fun (name, n) => return (name, Yaml.bool (← d.boolValue n))
        switchesOf values

/-- Reads the settings of a file with a name. A blank file has none. -/
def read (file text : String) : Except Fault Settings :=
  if text.toList.all Text.isBlank then .ok {}
  else
    match readText text with
    | .ok settings => .ok settings
    | .error problem => .error (.config file problem.message)

end NodeWeave.Settings
