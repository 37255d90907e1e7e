import NodeWeave.Yaml.Cursor

/-!
The tokens of YAML, and how each kind of them is read. Which tokens stand where, and where maps and
lists begin and end, is the matter of the layout.
-/

namespace NodeWeave.Yaml

inductive ScalarStyle where
  | plain
  | quoted
  | literal
  | folded
  deriving DecidableEq, Repr

inductive Token where
  | versionDirective (major minor : Nat)
  | tagDirective (handle start : String)
  | documentStart
  | documentEnd
  | listStart
  | mapStart
  | blockEnd
  | flowListStart
  | flowListEnd
  | flowMapStart
  | flowMapEnd
  /-- The dash in front of an item. -/
  | item
  | comma
  | key
  | value
  | alias (name : String)
  | anchor (name : String)
  | tag (handle suffix : String)
  | scalar (style : ScalarStyle) (text : String)
  deriving DecidableEq, Repr

/-- What stands between two words of a scalar: blanks, or line breaks. -/
structure Gap where
  blanks : List Char := []
  breaks : List Char := []
  /-- The first break was written so that it does not count. -/
  joined : Bool := false

namespace Gap

def hasBreak (gap : Gap) : Bool :=
  gap.joined || !gap.breaks.isEmpty

/-- What the gap reads as. One line break is a space, and of several the first one is dropped. -/
def text (gap : Gap) : List Char :=
  if gap.joined then gap.breaks
  else
    match gap.breaks with
    | [] => gap.blanks
    | ['\n'] => [' ']
    | '\n' :: more => more
    | breaks => breaks

end Gap

namespace Scan

/-- Takes a gap. Below a column a tab after a line break is refused. -/
def gap (margin : Nat) (start : Gap) : Scan Gap := do
  loop (fun gap => do
    match ← peek with
    | some c =>
        if isSpaceOrTab c then
          if gap.hasBreak && c == '\t' && (← get).column < margin then throw .tabAsIndentation
          skip
          return .inl (if gap.hasBreak then gap else { gap with blanks := gap.blanks ++ [c] })
        else if isBreak c then
          let b ← takeBreak
          return .inl { gap with blanks := [], breaks := gap.breaks ++ b }
        else return .inr gap
    | none => return .inr gap) (← bound) start

/-! ### Quotes -/

/-- The character that an escape names, and how many hexadecimal digits give it otherwise. -/
def escape? : Char → Option (Char ⊕ Nat)
  | '0' => some (.inl '\x00')
  | 'a' => some (.inl '\x07')
  | 'b' => some (.inl '\x08')
  | 't' | '\t' => some (.inl '\t')
  | 'n' => some (.inl '\n')
  | 'v' => some (.inl '\x0b')
  | 'f' => some (.inl '\x0c')
  | 'r' => some (.inl '\r')
  | 'e' => some (.inl '\x1b')
  | ' ' => some (.inl ' ')
  | '"' => some (.inl '"')
  | '/' => some (.inl '/')
  | '\\' => some (.inl '\\')
  | 'N' => some (.inl '\u0085')
  | '_' => some (.inl '\u00a0')
  | 'L' => some (.inl '\u2028')
  | 'P' => some (.inl '\u2029')
  | 'x' => some (.inr 2)
  | 'u' => some (.inr 4)
  | 'U' => some (.inr 8)
  | _ => none

def hexValue? (c : Char) : Option Nat :=
  if c.isDigit then some (c.toNat - '0'.toNat)
  else if 'a' ≤ c ∧ c ≤ 'f' then some (c.toNat - 'a'.toNat + 10)
  else if 'A' ≤ c ∧ c ≤ 'F' then some (c.toNat - 'A'.toNat + 10)
  else none

def hexChar? (count : Nat) (text : List Char) : Option Char :=
  if text.length < count then none
  else do
    let code ← (text.take count).foldlM (fun n c => return n * 16 + (← hexValue? c)) 0
    if code.isValidChar then some (Char.ofNat code) else none

def escaped : Scan Char := do
  match (← peek).bind escape? with
  | some (.inl c) =>
      skip
      return c
  | some (.inr count) =>
      skip
      match hexChar? count (← get).rest with
      | some c =>
          skip count
          return c
      | none => throw .badEscape
  | none => throw .badEscape

def quoted (mark : Char) : Scan (List Char) := do
  loop (fun acc => do
    let c ← get
    if c.atDocumentMark then throw .unclosedQuotes
    match c.rest with
    | [] => throw .unclosedQuotes
    | x :: more =>
        if x == mark && mark == '\'' && more.head? == some '\'' then
          skip 2
          return .inl (acc ++ ['\''])
        else if x == mark then
          skip
          return .inr acc
        else if x == '\\' && mark == '"' then
          skip
          if more.head?.any isBreak then
            skipLine
            let between ← gap 0 { joined := true }
            return .inl (acc ++ between.text)
          else return .inl (acc ++ [← escaped])
        else if isSpaceOrTab x || isBreak x then
          let between ← gap 0 {}
          return .inl (acc ++ between.text)
        else
          skip
          return .inl (acc ++ [x])) (← bound) []

/-! ### Plain scalars -/

def isFlowIndicator (c : Char) : Bool :=
  c == ',' || c == '[' || c == ']' || c == '\x7b' || c == '\x7d'

def plainWord (inFlow : Bool) : Scan (List Char) := do
  loop (fun word => do
    match ← peek with
    | none => return .inr word
    | some c =>
        let next ← peek 1
        if isSpaceOrTab c || isBreak c then return .inr word
        else if inFlow && c == ':' && next.any (fun d => isFlowIndicator d || d == '?') then
          throw (.misplaced "':'")
        else if (c == ':' && isGap next) || (inFlow && isFlowIndicator c) then return .inr word
        else
          skip
          return .inl (word ++ [c])) (← bound) []

/-- A plain scalar, and whether it ends after a line break. Outside of flow collections its lines
are indented at least up to the margin. -/
def plain (inFlow : Bool) (margin : Nat) : Scan (List Char × Bool) := do
  loop (fun (taken, between) => do
    let c ← get
    if c.atDocumentMark || c.rest.head? == some '#' then return .inr (taken, between.hasBreak)
    let word ← plainWord inFlow
    let (taken, between) :=
      if word.isEmpty then (taken, between) else (taken ++ between.text ++ word, ({} : Gap))
    match ← peek with
    | some x =>
        if isSpaceOrTab x || isBreak x then
          let between ← gap margin between
          if !inFlow && (← get).column < margin then return .inr (taken, between.hasBreak)
          else return .inl (taken, between)
        else return .inr (taken, between.hasBreak)
    | none => return .inr (taken, between.hasBreak)) (← bound) ([], ({} : Gap))

/-! ### Block scalars -/

/-- Which line breaks at the end of a block scalar are kept. -/
inductive Chomping where
  | strip
  | clip
  | keep
  deriving DecidableEq

def chomping? : Option Char → Option Chomping
  | some '-' => some .strip
  | some '+' => some .keep
  | _ => none

/-- A digit from one to nine: by how much a block is indented. -/
def increment? (c : Option Char) : Except Problem (Option Nat) :=
  match c with
  | some '0' => throw .badBlockHeader
  | some c => return if c.isDigit then some (c.toNat - '0'.toNat) else none
  | none => return none

def blockHeader : Scan (Chomping × Option Nat) := do
  match chomping? (← peek) with
  | some chomping =>
      skip
      let increment ← increment? (← peek)
      if increment.isSome then skip
      return (chomping, increment)
  | none =>
      let increment ← increment? (← peek)
      if increment.isSome then
        skip
        match chomping? (← peek) with
        | some chomping =>
            skip
            return (chomping, increment)
        | none => return (.clip, increment)
      else return (.clip, none)

/-- Takes empty lines, and the spaces in front of a line up to the margin. Without a margin it is
the one of the deepest of these lines, and at least the given one. -/
def blockBreaks (least : Nat) (margin : Option Nat) : Scan (List Char × Nat) := do
  loop (fun (breaks, deepest) => do
    let c ← get
    let spaces := c.rest.takeWhile (· == ' ')
    let width :=
      match margin with
      | some m => min spaces.length (m - c.column)
      | none => spaces.length
    skip width
    let column := (← get).column
    let deepest := max deepest column
    match ← peek with
    | some x =>
        if x == '\t' && margin.all (column < ·) then throw .tabAsIndentation
        else if isBreak x then
          let b ← takeBreak
          return .inl (breaks ++ b, deepest)
        else return .inr (breaks, margin.getD (max deepest least))
    | none => return .inr (breaks, margin.getD (max deepest least))) (← bound) ([], 0)

structure Block where
  text : List Char := []
  /-- The break after the last line. -/
  leading : List Char := []
  /-- The empty lines after it. -/
  trailing : List Char := []
  /-- The last line began with a blank. -/
  indented : Bool := false

/-- A literal or folded block, from its header on. The indentation is that of the parent, less than
zero outside of any block. -/
def block (fold : Bool) (indent : Int) : Scan (List Char) := do
  let (chomping, increment) ← blockHeader
  let _ ← takeWhile isSpaceOrTab
  if (← peek) == some '#' then
    let _ ← takeWhile fun _ => true
  unless (← peek).all isBreak do throw .badBlockHeader
  skipLine
  let least := max 1 (indent + 1).toNat
  let margin := increment.map fun n => if 0 ≤ indent then indent.toNat + n else n
  let (breaks, margin) ← blockBreaks least margin
  loop (fun b => do
    let c ← get
    if c.column == margin && !c.rest.isEmpty then
      let blank := c.rest.head?.any isSpaceOrTab
      let glue :=
        if fold && b.leading.head? == some '\n' && !b.indented && !blank then
          if b.trailing.isEmpty then [' '] else []
        else b.leading
      let line ← takeWhile fun _ => true
      let leading ← takeBreak
      let (trailing, _) ← blockBreaks least (some margin)
      return .inl
        { text := b.text ++ glue ++ b.trailing ++ line, leading, trailing, indented := blank }
    else
      let leading := if chomping = .strip then [] else b.leading
      let trailing := if chomping = .keep then b.trailing else []
      return .inr (b.text ++ leading ++ trailing)) (← bound) ({ trailing := breaks } : Block)

/-! ### Anchors, tags and directives -/

/-- The characters that may follow an anchor or an alias, besides a gap. -/
def endsAnchor (c : Char) : Bool :=
  "?:,]%@".toList.contains c || c == '\x7d' || c == '\x60'

def anchorName : Scan String := do
  let name ← takeWhile isNameChar
  let next ← peek
  if name.isEmpty || !(isGap next || next.any endsAnchor) then throw .badAnchor
  return String.ofList name

/-- The characters of a tag. Some of them only count between angle brackets. -/
def isTagChar (bracketed : Bool) (c : Char) : Bool :=
  isNameChar c || ";/?:@&=+$.%!~*'()".toList.contains c ||
    (bracketed && (c == ',' || c == '[' || c == ']'))

def tagBytes (text : List Char) : List UInt8 :=
  match text with
  | '%' :: a :: b :: rest =>
      match hexValue? a, hexValue? b with
      | some high, some low => UInt8.ofNat (high * 16 + low) :: tagBytes rest
      | _, _ => []
  | _ => []

/-- A tag with its escapes resolved. The first argument bounds the number of steps. -/
def unescapeTag : Nat → List Char → Option (List Char)
  | 0, _ => none
  | _, [] => some []
  | bound + 1, '%' :: rest => do
      let bytes := tagBytes ('%' :: rest)
      let text ← String.fromUTF8? ⟨bytes.toArray⟩
      if bytes.isEmpty then none
      else return text.toList ++ (← unescapeTag bound (('%' :: rest).drop (3 * bytes.length)))
  | bound + 1, c :: rest => return c :: (← unescapeTag bound rest)

def tagText (bracketed : Bool) : Scan String := do
  let taken ← takeWhile (isTagChar bracketed)
  match unescapeTag (taken.length + 1) taken with
  | some tag => return String.ofList tag
  | none => throw .badTag

/-- A tag, from its exclamation mark on: a handle and what follows it. -/
def tag (inFlow : Bool) : Scan Token := do
  let token ←
    if (← peek 1) == some '<' then do
      skip 2
      let text ← tagText true
      if text.isEmpty || (← peek) != some '>' then throw .badTag
      skip
      pure (Token.tag "" text)
    else do
      skip
      let name ← takeWhile isNameChar
      if (← peek) == some '!' then
        skip
        let suffix ← tagText false
        if suffix.isEmpty then throw .badTag
        pure (Token.tag ("!" ++ String.ofList name ++ "!") suffix)
      else
        let suffix := String.ofList name ++ (← tagText false)
        pure (if suffix.isEmpty then Token.tag "" "!" else Token.tag "!" suffix)
  let next ← peek
  unless isGap next || (inFlow && next == some ',') do throw .badTag
  return token

def versionNumber : Scan Nat := do
  let digits ← takeWhile Char.isDigit
  if digits.isEmpty || 9 < digits.length then throw .badDirective
  return digits.foldl (fun n c => n * 10 + (c.toNat - '0'.toNat)) 0

def tagHandle : Scan String := do
  if (← peek) != some '!' then throw .badDirective
  skip
  let name ← takeWhile isNameChar
  if (← peek) == some '!' then
    skip
    return "!" ++ String.ofList name ++ "!"
  else if name.isEmpty then return "!"
  else throw .badDirective

def directive : Scan Token := do
  skip
  let name ← takeWhile isNameChar
  if name.isEmpty || !isGap (← peek) then throw .badDirective
  let _ ← takeWhile isSpaceOrTab
  let token ←
    match String.ofList name with
    | "YAML" => do
        let major ← versionNumber
        if (← peek) != some '.' then throw .badDirective
        skip
        pure (Token.versionDirective major (← versionNumber))
    | "TAG" => do
        let handle ← tagHandle
        if !(← peek).any isSpaceOrTab then throw .badDirective
        let _ ← takeWhile isSpaceOrTab
        let start ← tagText true
        if start.isEmpty || !isGap (← peek) then throw .badDirective
        pure (Token.tagDirective handle start)
    | _ => throw .badDirective
  let _ ← takeWhile isSpaceOrTab
  if (← peek) == some '#' then
    let _ ← takeWhile fun _ => true
  unless (← peek).all isBreak do throw .badDirective
  skipLine
  return token

end Scan

end NodeWeave.Yaml
