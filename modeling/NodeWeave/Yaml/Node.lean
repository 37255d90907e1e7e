import NodeWeave.Yaml.Layout

/-!
Nodes: what a text in YAML says before its scalars get a meaning. Aliases refer to nodes with an
anchor.
-/

namespace NodeWeave.Yaml

inductive Node where
  | scalar (tag : Option String) (style : ScalarStyle) (text : String)
  | list (tag : Option String) (items : List Node)
  | map (tag : Option String) (entries : List (Node × Node))
  | alias (id : Nat)
  deriving Repr, Inhabited

def Node.empty : Node := .scalar none .plain ""

structure Anchors where
  /-- The identity that a name has from its last anchor on. -/
  names : List (String × Nat) := []
  /-- For every identity the place of its last anchor among all anchors. -/
  places : List (Nat × Nat) := []
  /-- For every place the node. -/
  nodes : List (Nat × Node) := []
  count : Nat := 0

namespace Anchors

/-- Notes an anchor, and gives its place. An identity is the number of other names with anchors so
far. -/
def add (a : Anchors) (name : String) : Anchors × Nat :=
  let id := a.names.length
  ({ a with
      names := (name, id) :: a.names.filter (·.1 != name)
      places := (id, a.count) :: a.places
      count := a.count + 1 }, a.count)

def setNode (a : Anchors) (place : Nat) (node : Node) : Anchors :=
  { a with nodes := (place, node) :: a.nodes }

def node? (a : Anchors) (id : Nat) : Option Node :=
  (a.places.lookup id).bind fun place => a.nodes.lookup place

end Anchors

/-- A text in YAML. Without a root it says nothing. -/
structure Document where
  root : Option Node
  anchors : Anchors
  /-- How many nodes and ends of nodes there are, which limits the use of aliases. -/
  size : Nat

/-! ### From tokens to nodes -/

structure ReadState where
  tokens : List Token
  /-- The handles of tags with what they stand for. -/
  handles : List (String × String) := []
  anchors : Anchors := {}
  size : Nat := 0

abbrev Read := StateT ReadState (Except Problem)

namespace Read

def peek : Read (Option Token) := do
  return (← get).tokens.head?

def drop : Read Unit :=
  modify fun s => { s with tokens := s.tokens.drop 1 }

def take? (t : Token) : Read Bool := do
  if (← peek) == some t then
    drop
    return true
  else return false

def next (among : List Token) : Read Bool := do
  return (← peek).any among.contains

def count (n : Nat) : Read Unit :=
  modify fun s => { s with size := s.size + n }

def tagName (handle suffix : String) : Read String := do
  if handle.isEmpty then return suffix
  else
    match (← get).handles.lookup handle with
    | some start => return start ++ suffix
    | none =>
        match handle with
        | "!" => return "!" ++ suffix
        | "!!" => return "tag:yaml.org,2002:" ++ suffix
        | _ => throw .badTag

def properties : Read (Option String × Option String) := do
  let tag? : Read (Option String) := do
    match ← peek with
    | some (.tag handle suffix) =>
        drop
        return some (← tagName handle suffix)
    | _ => return none
  let anchor? : Read (Option String) := do
    match ← peek with
    | some (.anchor name) =>
        drop
        return some name
    | _ => return none
  match ← anchor? with
  | some name => return (some name, ← tag?)
  | none =>
      let tag ← tag?
      return (← anchor?, tag)

/-- Where a node stands, which decides what it may be. -/
inductive Position where
  | flow
  | block
  /-- In a block, as a key or a value of a map: a list may stand there without being indented. -/
  | entry
  deriving DecidableEq

mutual
/-- Reads a node. The first argument bounds the depth. -/
def node (bound : Nat) (position : Position) : Read Node :=
  match bound with
  | 0 => throw .tooDeep
  | bound + 1 => do
      match ← peek with
      | some (.alias name) =>
          drop
          count 1
          match (← get).anchors.names.lookup name with
          | some id => return .alias id
          | none => throw .unknownAnchor
      | _ =>
          let (anchor, tag) ← properties
          match anchor with
          | none => content bound position tag (tag.isSome)
          | some name => do
              let s ← get
              let (anchors, place) := s.anchors.add name
              set { s with anchors }
              let n ← content bound position tag true
              modify fun s => { s with anchors := s.anchors.setNode place n }
              return n

def content (bound : Nat) (position : Position) (tag : Option String) (mayBeEmpty : Bool) :
    Read Node :=
  match bound with
  | 0 => throw .tooDeep
  | bound + 1 => do
      match ← peek with
      | some (.scalar style content) =>
          drop
          count 1
          return .scalar tag style content
      | some .flowListStart =>
          drop
          count 2
          return .list tag (← flowItems bound true)
      | some .flowMapStart =>
          drop
          count 2
          return .map tag (← flowEntries bound true)
      | some .listStart =>
          if position = .flow then throw (.expected "content of a node")
          drop
          count 2
          return .list tag (← blockItems bound)
      | some .mapStart =>
          if position = .flow then throw (.expected "content of a node")
          drop
          count 2
          return .map tag (← blockEntries bound)
      | token =>
          if token == some .item && position = .entry then
            count 2
            return .list tag (← plainItems bound)
          else if mayBeEmpty then
            count 1
            return .scalar tag .plain ""
          else throw (.expected "content of a node")

def nodeUnless (bound : Nat) (position : Position) (among : List Token) : Read Node :=
  match bound with
  | 0 => throw .tooDeep
  | bound + 1 => do
      if ← next among then
        count 1
        return .empty
      else node bound position

def blockItems (bound : Nat) : Read (List Node) :=
  match bound with
  | 0 => throw .tooDeep
  | bound + 1 => do
      if ← take? .item then
        let first ← nodeUnless bound .block [.item, .blockEnd]
        return first :: (← blockItems bound)
      else if ← take? .blockEnd then return []
      else throw (.expected "'-' indicator")

def plainItems (bound : Nat) : Read (List Node) :=
  match bound with
  | 0 => throw .tooDeep
  | bound + 1 => do
      if ← take? .item then
        let first ← nodeUnless bound .block [.item, .key, .value, .blockEnd]
        return first :: (← plainItems bound)
      else return []

def blockEntries (bound : Nat) : Read (List (Node × Node)) :=
  match bound with
  | 0 => throw .tooDeep
  | bound + 1 => do
      if ← take? .key then
        let key ← nodeUnless bound .entry [.key, .value, .blockEnd]
        let value ←
          if ← take? .value then nodeUnless bound .entry [.key, .value, .blockEnd]
          else do
            count 1
            pure .empty
        return (key, value) :: (← blockEntries bound)
      else if ← take? .blockEnd then return []
      else throw (.expected "key")

def flowItems (bound : Nat) (first : Bool) : Read (List Node) :=
  match bound with
  | 0 => throw .tooDeep
  | bound + 1 => do
      if ← take? .flowListEnd then return []
      else
        unless first do
          unless ← take? .comma do throw (.expected "',' or ']'")
        if ← take? .key then
          let entry ← flowPair bound
          count 2
          return .map none [entry] :: (← flowItems bound false)
        else if ← take? .flowListEnd then return []
        else
          let n ← node bound .flow
          return n :: (← flowItems bound false)

/-- A key with its value as an item of a flow list. A token that stands instead of the key is
passed over. -/
def flowPair (bound : Nat) : Read (Node × Node) :=
  match bound with
  | 0 => throw .tooDeep
  | bound + 1 => do
      let key ←
        if ← next [.value, .comma, .flowListEnd] then do
          drop
          count 1
          pure .empty
        else node bound .flow
      let value ←
        if ← take? .value then nodeUnless bound .flow [.comma, .flowListEnd]
        else do
          count 1
          pure .empty
      return (key, value)

def flowEntries (bound : Nat) (first : Bool) : Read (List (Node × Node)) :=
  match bound with
  | 0 => throw .tooDeep
  | bound + 1 => do
      if ← take? .flowMapEnd then return []
      else
        unless first do
          unless ← take? .comma do throw (.expected "',' or a closing brace")
        if ← take? .key then
          let key ← nodeUnless bound .flow [.value, .comma, .flowMapEnd]
          let value ←
            if ← take? .value then nodeUnless bound .flow [.comma, .flowMapEnd]
            else do
              count 1
              pure .empty
          return (key, value) :: (← flowEntries bound false)
        else if ← take? .flowMapEnd then return []
        else
          let key ← node bound .flow
          count 1
          return (key, .empty) :: (← flowEntries bound false)
end

/-- Reads the directives in front of a document. The first argument bounds their number. -/
def directives : Nat → (version : Bool) → Read Unit
  | 0, _ => throw .badDirective
  | bound + 1, version => do
      match ← peek with
      | some (.versionDirective major minor) =>
          if version || major != 1 || (minor != 1 && minor != 2) then throw .badDirective
          drop
          directives bound true
      | some (.tagDirective handle start) =>
          let s ← get
          if (s.handles.lookup handle).isSome then throw .badDirective
          set { s with handles := (handle, start) :: s.handles }
          drop
          directives bound version
      | _ => return

def document : Read Document := do
  let bound := 4 * (← get).tokens.length + 8
  if (← peek).isNone then return { root := none, anchors := {}, size := 0 }
  match ← peek with
  | some (.versionDirective ..) | some (.tagDirective ..) | some .documentStart =>
      directives bound false
      unless ← take? .documentStart do throw (.expected "start of a document")
  | _ => pure ()
  let root ←
    match ← peek with
    | none | some (.versionDirective ..) | some (.tagDirective ..) | some .documentStart
    | some .documentEnd => do
        count 1
        pure Node.empty
    | _ => node bound .block
  modify fun s => { s with tokens := s.tokens.dropWhile (· == .documentEnd) }
  unless (← peek).isNone do throw .severalDocuments
  let s ← get
  return { root := some root, anchors := s.anchors, size := s.size }

end Read

def Document.read (text : String) : Except Problem Document := do
  let tokens ← tokens text
  let (document, _) ← Read.document { tokens }
  return document

end NodeWeave.Yaml
