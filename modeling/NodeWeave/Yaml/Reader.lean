import NodeWeave.Yaml.Node
import NodeWeave.Yaml.Scalar

/-!
Values of nodes. A value is either what a node stands for by itself, or what it is read as where
one kind of value is wanted: then a text may be written without quotes whatever it looks like.
-/

namespace NodeWeave.Yaml

/-- Steps of reading values. The state says how many more aliases may be followed. -/
abbrev Decode := StateT Nat (Except Problem)

namespace Document

def follow (d : Document) (node : Node) : Decode Node :=
  match node with
  | .alias id => do
      let left ← get
      if left = 0 then throw .tooManyAliases
      set (left - 1)
      match d.anchors.node? id with
      | some target => return target
      | none => throw .unknownAnchor
  | node => return node

/-- The tag that a value keeps: one that starts with an exclamation mark. -/
def keptTag? (tag : Option String) : Option String :=
  tag.filter (·.startsWith "!")

def scalarValue (tag : Option String) (style : ScalarStyle) (text : String) :
    Except Problem Yaml :=
  let plain :=
    if style = .plain then
      match ofPlain? text with
      | some value => .ok value
      | none => .error .wideInteger
    else .ok (Yaml.text text)
  match tag with
  | none => plain
  | some tag =>
      if tag = "tag:yaml.org,2002:bool" then
        match boolOf? text with
        | some b => .ok (bool b)
        | none => .error (.wrongType "a boolean")
      else if tag = "tag:yaml.org,2002:int" then
        match intOf? text.toList with
        | some n =>
            if fits n then .ok (int n)
            else if fitsTwice n then .error .wideInteger
            else .error (.wrongType "an integer")
        | none => .error (.wrongType "an integer")
      else if tag = "tag:yaml.org,2002:float" then
        match floatOf? text.toList with
        | some x => .ok (float x)
        | none => .error (.wrongType "a float")
      else if tag = "tag:yaml.org,2002:null" then
        if isNullText text then .ok null else .error (.wrongType "null")
      else if tag.startsWith "!" then plain
      else .ok (Yaml.text text)

def tagValue (tag : Option String) (value : Yaml) : Except Problem Yaml :=
  match keptTag? tag with
  | some "!" => .error .emptyTag
  | some tag => .ok (tagged tag value)
  | none => .ok value

def distinctEntries (entries : Entries) : Except Problem Entries :=
  entries.foldlM (fun sorted (key, value) =>
    if (find? key sorted).isSome then .error .duplicateKey
    else .ok (sorted ++ [(key, value)])) []

def value (d : Document) : (depth : Nat) → Node → Decode Yaml
  | depth, node => do
      match ← d.follow node with
      | .scalar tag style written =>
          tagValue tag (← scalarValue tag style written)
      | .list tag items =>
          match depth with
          | 0 => throw .tooDeep
          | depth + 1 => do
              let items ← items.mapM (d.value depth)
              tagValue tag (.list items)
      | .map tag entries =>
          match depth with
          | 0 => throw .tooDeep
          | depth + 1 => do
              let entries ← entries.mapM fun (k, v) => do
                let k ← d.value depth k
                let v ← d.value depth v
                return (k, v)
              tagValue tag (.map (← distinctEntries entries))
      | .alias _ => throw .unknownAnchor

def maxDepth : Nat := 128

def decode {α : Type} (d : Document) (steps : Decode α) : Except Problem α := do
  let (a, _) ← steps.run (100 * d.size)
  return a

/-! ### Values of a wanted kind -/

def isAbsent (d : Document) (node : Node) : Decode Bool := do
  match ← d.follow node with
  | .scalar tag .plain written =>
      match tag with
      | some "tag:yaml.org,2002:null" =>
          if isNullText written then return true else throw (.wrongType "null")
      | some _ => return false
      | none => return written.isEmpty || isNullText written
  | _ => return false

def optional {α : Type} (d : Document) (read : Node → Decode α) (node : Node) :
    Decode (Option α) := do
  if ← d.isAbsent node then return none else return some (← read node)

def textOf (d : Document) (node : Node) : Decode String := do
  match ← d.follow node with
  | .scalar _ _ written => return written
  | _ => throw (.wrongType "a string")

def boolValue (d : Document) (node : Node) : Decode Bool := do
  match ← d.follow node with
  | .scalar tag style written =>
      if style = .plain ∨ (style = .literal ∧ tag = some "tag:yaml.org,2002:bool") then
        match boolOf? written with
        | some b => return b
        | none => throw (.wrongType "a boolean")
      else throw (.wrongType "a boolean")
  | _ => throw (.wrongType "a boolean")

/-- The entries of a map. Where nothing is written there are none. -/
def entriesOf (d : Document) (node : Node) : Decode (List (Node × Node)) := do
  match ← d.follow node with
  | .map _ entries => return entries
  | .scalar _ .plain "" => return []
  | _ => throw (.wrongType "a map")

/-- The items of a list. Where nothing is written there are none. -/
def itemsOf (d : Document) (node : Node) : Decode (List Node) := do
  match ← d.follow node with
  | .list _ items => return items
  | .scalar _ .plain "" => return []
  | _ => throw (.wrongType "a list")

/-- The entries of a map, with values of any kind, that has at most this depth. -/
def entriesValue (d : Document) (depth : Nat) (node : Node) : Decode Entries := do
  let entries ← d.entriesOf node
  match depth with
  | 0 => throw .tooDeep
  | depth + 1 => do
      let values ← entries.mapM fun (k, v) => do
        let k ← d.value depth k
        let v ← d.value depth v
        return (k, v)
      distinctEntries values

/-- The entries of a map with names of fields. No name that is looked for occurs twice. -/
def fieldsOf (d : Document) (known : List String) (node : Node) :
    Decode (List (String × Node)) := do
  let entries ← d.entriesOf node
  let fields ← entries.mapM fun (k, v) => do
    let name ← d.textOf k
    return (name, v)
  let used := (fields.map (·.1)).filter known.contains
  unless decide used.Nodup do throw .duplicateKey
  return fields

end Document

/-! ### Values of a wanted kind, from values -/

def untagged : Yaml → Yaml
  | tagged _ value => untagged value
  | value => value

def toText : Yaml → Except Problem String
  | value =>
      match untagged value with
      | text s => .ok s
      | _ => .error (.wrongType "a string")

def toBool : Yaml → Except Problem Bool
  | value =>
      match untagged value with
      | bool b => .ok b
      | _ => .error (.wrongType "a boolean")

def toEntries : Yaml → Except Problem Entries
  | value =>
      match untagged value with
      | map entries => .ok entries
      | null => .ok []
      | _ => .error (.wrongType "a map")

def toFields (value : Yaml) : Except Problem (List (String × Yaml)) := do
  (← toEntries value).mapM fun (key, value) => return (← toText key, value)

def toOptional {α : Type} (read : Yaml → Except Problem α) : Yaml → Except Problem (Option α)
  | null => .ok none
  | value => (read value).map some

def optionalField {α : Type} (fields : List (String × Yaml)) (name : String)
    (read : Yaml → Except Problem α) : Except Problem (Option α) :=
  match fields.lookup name with
  | some value => toOptional read value
  | none => .ok none

/-- The value that a text stands for. A text that says nothing stands for null. -/
def read (text : String) : Except Problem Yaml := do
  let d ← Document.read text
  match d.root with
  | none => return null
  | some root => d.decode (d.value Document.maxDepth root)

end NodeWeave.Yaml
