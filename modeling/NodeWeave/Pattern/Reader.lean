import NodeWeave.Pattern.Reader.Bracketed

/-!
Reading patterns. Flags hold up to the end of the group they stand in. There are no references to
groups and no looking around. Of the properties of characters only the common ones are known, and
how large a pattern may be is an estimate.
-/

namespace NodeWeave.Pattern

namespace Read

/-- The flags between a question mark and a colon or a parenthesis, and those they leave. -/
def readFlags : Nat → (negative : Bool) → (seen : List Char) → Flags → Read (Flags × List Char)
  | 0, _, _, _ => failure
  | bound + 1, negative, seen, flags => do
      match ← peek with
      | none => failure
      | some c =>
          if c == ':' || c == ')' then
            if seen.head? == some '-' then failure else return (flags, seen)
          else if seen.contains c then failure
          else if c == '-' then
            drop
            readFlags bound true (c :: seen) flags
          else
            match flags.set? c (!negative) with
            | some flags =>
                drop
                readFlags bound negative (c :: seen) flags
            | none => failure

def isNameStart (c : Char) : Bool :=
  c == '_' || CharSet.isLetter c

def isNamePart (c : Char) : Bool :=
  c == '_' || c == '.' || c == '[' || c == ']' || CharSet.isLetter c || Text.isDigit c

/-- Takes note of the name of a group. No two groups have the same name. -/
def addName : List Char → Read Unit
  | [] => failure
  | c :: rest => do
      if !(isNameStart c && rest.all isNamePart) then failure
      let s ← get
      let name := String.ofList (c :: rest)
      if s.names.contains name then failure
      set { s with names := name :: s.names }

def groupName : Read Unit := do
  let name := (← get).rest.takeWhile (· != '>')
  drop name.length
  failAtEnd
  drop
  addName name

/-- What opens with a parenthesis: a group, or flags for the group around it. -/
inductive Opening where
  | group
  | flags

def opening : Read Opening := do
  dropAndSkip
  if ← take? "?=" <||> take? "?!" <||> take? "?<=" <||> take? "?<!" then failure
  else if ← take? "?P<" <||> take? "?<" then
    groupName
    return .group
  else if ← take? "?" then
    let (flags, seen) ← readFlags (← bound) false [] (← get).flags
    let closes ← next ')'
    drop
    if closes && seen.isEmpty then failure
    modify fun s => { s with flags }
    return if closes then .flags else .group
  else return .group

def decimal : Read (Option Nat) := do
  let skipAll : Read Unit := modify fun s => { s with rest := s.rest.dropWhile Text.isBlank }
  skipAll
  let digits ← takeKind Char.isDigit (← bound)
  skipAll
  skipBlanks
  if digits.isEmpty then return none
  else
    let n := digits.foldl (fun n c => n * 10 + (c.toNat - '0'.toNat)) 0
    if n < Nat.pow 2 32 then return some n else failure

/-- How often something is repeated, from an opening brace on. -/
def counted : Read (Nat × Option Nat) := do
  dropAndSkip
  failAtEnd
  let some least ← decimal | failure
  failAtEnd
  let most ←
    if ← next ',' then do
      dropAndSkip
      failAtEnd
      if ← next '\x7d' then pure none
      else do
        let some most ← decimal | failure
        pure (some most)
    else pure (some least)
  if !(← next '\x7d') then failure
  dropAndSkip
  if ← next '?' then drop
  if most.any (· < least) then failure
  return (least, most)

def charPattern (c : Char) : Read Pattern := do
  let flags := (← get).flags
  let set := CharSet.ofChar c
  if !flags.ignoresCase then return .one set
  else if flags.unicode then return .one (.anyCase set)
  else if c.toNat < 128 then return .one (.intersection (.anyCase set) .ascii)
  else return .one set

def atomPattern : Atom → Read Pattern
  | .char c => charPattern c
  | .set s => return .one s
  | .look l => return .look l
  | .dot => do
      let flags := (← get).flags
      if !flags.unicode then failure
      else if flags.dotMatchesBreak then return .one .any
      else if flags.returnsEndLines then
        return .one (.complement (.union (.ofChar '\n') (.ofChar '\r')))
      else return .one (.complement (.ofChar '\n'))

/-- A character, an escape or a sign that stands for a set or a place. -/
def primitive : Read Pattern := do
  let flags := (← get).flags
  match ← peek with
  | none => failure
  | some '\\' => atomPattern (← escape)
  | some '.' =>
      drop
      atomPattern .dot
  | some '^' =>
      drop
      return .look (if flags.multiLine then .lineStart flags.returnsEndLines else .textStart)
  | some '$' =>
      drop
      return .look (if flags.multiLine then .lineEnd flags.returnsEndLines else .textEnd)
  | some c =>
      drop
      charPattern c

/-- The patterns one after the other. They come in reverse, and flags leave gaps. -/
def sequence (parts : List (Option (Nested Pattern))) : Nested Pattern where
  value :=
    match parts.filterMap id with
    | [] => .empty
    | last :: rest => rest.foldl (fun acc part => .seq part.value acc) last.value
  depth := levels (parts.map fun part => part.elim 0 (·.depth))

def anyOf (first : Pattern) : List Pattern → Pattern
  | [] => first
  | second :: rest => .alt first (anyOf second rest)

def alternation (first : Nested Pattern) (others : List (Nested Pattern)) : Nested Pattern where
  value := anyOf first.value (others.map (·.value))
  depth := levels ((first :: others).map (·.depth))

def repeatLast (least : Nat) (most : Option Nat) :
    List (Option (Nested Pattern)) → Read (List (Option (Nested Pattern)))
  | some part :: rest =>
      return some { value := .repeated part.value least most, depth := part.depth + 1 } :: rest
  | _ => failure

mutual
/-- Alternatives, up to the end of their group. The first argument bounds the depth. -/
def alternatives (bound : Nat) : Read (Nested Pattern) :=
  match bound with
  | 0 => failure
  | bound + 1 => do
      let first ← parts bound []
      return alternation first (← others bound)

def others (bound : Nat) : Read (List (Nested Pattern)) :=
  match bound with
  | 0 => failure
  | bound + 1 => do
      if ← next '|' then
        drop
        let second ← parts bound []
        return second :: (← others bound)
      else return []

def parts (bound : Nat) (acc : List (Option (Nested Pattern))) : Read (Nested Pattern) :=
  match bound with
  | 0 => failure
  | bound + 1 => do
      skipBlanks
      let simple := fun (least : Nat) (most : Option Nat) => do
        let acc ← repeatLast least most acc
        drop
        if ← next '?' then drop
        parts bound acc
      match ← peek with
      | none | some '|' | some ')' => return sequence acc
      | some '(' =>
          let outer := (← get).flags
          match ← opening with
          | .flags => parts bound (none :: acc)
          | .group =>
              let inner ← alternatives bound
              if !(← next ')') then failure
              drop
              modify fun s => { s with flags := outer }
              parts bound (some { inner with depth := inner.depth + 1 } :: acc)
      | some '[' =>
          let s ← bracketed bound
          let value ← bytesOnly s.value
          parts bound (some { value := .one value, depth := s.depth } :: acc)
      | some '?' => simple 0 (some 1)
      | some '*' => simple 0 none
      | some '+' => simple 1 none
      | some '\x7b' =>
          let (least, most) ← counted
          let acc ← repeatLast least most acc
          parts bound acc
      | some _ =>
          let value ← primitive
          parts bound (some { value } :: acc)
end

end Read

def readWhole? (text : String) : Option (Nested Pattern) := do
  let (part, s) ← (Read.alternatives (4 * text.length + 16)).run { rest := text.toList }
  if s.rest.isEmpty then return part else failure

/-- The pattern that a text describes, unless it nests too deep or takes too much room. -/
def read? (text : String) : Option Pattern := do
  let part ← readWhole? text
  if part.depth ≤ maxDepth ∧ part.value.room ≤ maxRoom then return part.value else failure

def compile? (text : String) : Option (String → Bool) :=
  (read? text).map fun p name => p.occursIn name.toList

end NodeWeave.Pattern
