import NodeWeave.Yaml.Token

/-!
The layout of a text in YAML: its tokens, together with those that only its indentation and its
colons tell. A key is known as such when its colon is met. Until then its place among the tokens is
held open.
-/

namespace NodeWeave.Yaml

inductive Slot where
  | token (t : Token)
  /-- A key may start here. -/
  | held
  /-- A key starts here. -/
  | key
  /-- A map starts here with its first key. -/
  | firstKey

def Slot.tokens : Slot → List Token
  | token t => [t]
  | held => []
  | key => [.key]
  | firstKey => [.mapStart, .key]

structure PossibleKey where
  slot : Nat
  line : Nat
  index : Nat
  column : Nat
  /-- Nothing else can stand there. -/
  required : Bool

structure Layout where
  cursor : Cursor
  slots : Array Slot := #[]
  /-- The possible key of every open flow collection, the innermost first, and of the block around
  them. -/
  keys : List (Option PossibleKey) := [none]
  /-- The column of the innermost block. -/
  indent : Int := -1
  /-- The columns of the blocks around it. -/
  outer : List Int := []
  keyAllowed : Bool := true
  finished : Bool := false

abbrev LayoutScan := StateT Layout (Except Problem)

namespace LayoutScan

def scan {α : Type} (step : Scan α) : LayoutScan α := do
  let layout ← get
  let (a, cursor) ← step layout.cursor
  set { layout with cursor }
  return a

def inFlow : LayoutScan Bool := do
  return 1 < (← get).keys.length

def push (t : Token) : LayoutScan Unit :=
  modify fun l => { l with slots := l.slots.push (.token t) }

def allowKey (allowed : Bool) : LayoutScan Unit :=
  modify fun l => { l with keyAllowed := allowed }

def dropKey : LayoutScan Unit := do
  let l ← get
  match l.keys with
  | some k :: rest =>
      if k.required then throw .missingColon
      set { l with keys := none :: rest }
  | _ => return

def noteKey : LayoutScan Unit := do
  let l ← get
  if l.keyAllowed then
    dropKey
    let c := l.cursor
    let required := l.keys.length ≤ 1 && l.indent == c.column
    let key : PossibleKey :=
      { slot := l.slots.size, line := c.line, index := c.index, column := c.column, required }
    modify fun l => { l with slots := l.slots.push .held, keys := some key :: l.keys.drop 1 }

def isStale (k : PossibleKey) (c : Cursor) : Bool :=
  k.line < c.line || k.index + 1024 < c.index

def dropStaleKeys : LayoutScan Unit := do
  let l ← get
  let keys ← l.keys.mapM fun key =>
    match key with
    | some k =>
        if isStale k l.cursor then
          if k.required then throw .missingColon else return none
        else return key
    | none => return none
  set { l with keys }

/-- Whether a block begins at a column; then it is the innermost one. -/
def openBlock (column : Nat) : LayoutScan Bool := do
  let l ← get
  if l.keys.length ≤ 1 && l.indent < column then
    set { l with indent := column, outer := l.indent :: l.outer }
    return true
  else return false

def closeBlocks (column : Int) : LayoutScan Unit := do
  unless ← inFlow do
    let l ← get
    let columns := l.indent :: l.outer
    let closed := columns.takeWhile (column < ·)
    match columns.drop closed.length with
    | indent :: outer =>
        set { l with
          indent, outer
          slots := l.slots ++ (closed.map fun _ => Slot.token .blockEnd).toArray }
    | [] => return

/-! ### The kinds of tokens -/

def flowStart (t : Token) : LayoutScan Unit := do
  noteKey
  modify fun l => { l with keys := none :: l.keys }
  allowKey true
  scan Scan.skip
  push t

def flowEnd (t : Token) : LayoutScan Unit := do
  dropKey
  modify fun l => if 1 < l.keys.length then { l with keys := l.keys.drop 1 } else l
  allowKey false
  scan Scan.skip
  push t

def comma : LayoutScan Unit := do
  dropKey
  allowKey true
  scan Scan.skip
  push .comma

def item : LayoutScan Unit := do
  let l ← get
  unless ← inFlow do
    unless l.keyAllowed do throw (.misplaced "item of a list")
    if ← openBlock l.cursor.column then push .listStart
  dropKey
  allowKey true
  scan Scan.skip
  push .item

def explicitKey : LayoutScan Unit := do
  let l ← get
  let flow ← inFlow
  unless flow do
    unless l.keyAllowed do throw (.misplaced "key of a map")
    if ← openBlock l.cursor.column then push .mapStart
  dropKey
  allowKey !flow
  scan Scan.skip
  push .key

def colon : LayoutScan Unit := do
  let l ← get
  match l.keys with
  | some k :: rest =>
      let first ← openBlock k.column
      modify fun l =>
        { l with
          slots := l.slots.setIfInBounds k.slot (if first then .firstKey else .key)
          keys := none :: rest
          keyAllowed := false }
  | _ =>
      let flow ← inFlow
      unless flow do
        unless l.keyAllowed do throw (.misplaced "value of a map")
        if ← openBlock l.cursor.column then push .mapStart
      allowKey !flow
  scan Scan.skip
  push .value

def documentMark : LayoutScan Unit := do
  closeBlocks (-1)
  dropKey
  allowKey false
  let isStart := (← get).cursor.rest.head? == some '-'
  scan (Scan.skip 3)
  push (if isStart then .documentStart else .documentEnd)

def directive : LayoutScan Unit := do
  closeBlocks (-1)
  dropKey
  allowKey false
  push (← scan Scan.directive)

def keyLike (step : Scan Token) : LayoutScan Unit := do
  noteKey
  allowKey false
  push (← scan step)

def quoted (mark : Char) : LayoutScan Unit :=
  keyLike do
    Scan.skip
    return .scalar .quoted (String.ofList (← Scan.quoted mark))

def plain : LayoutScan Unit := do
  let flow ← inFlow
  noteKey
  allowKey false
  let (taken, broken) ← scan (Scan.plain flow ((← get).indent + 1).toNat)
  if broken then allowKey true
  push (.scalar .plain (String.ofList taken))

def block (fold : Bool) : LayoutScan Unit := do
  dropKey
  allowKey true
  scan Scan.skip
  let text ← scan (Scan.block fold (← get).indent)
  push (.scalar (if fold then .folded else .literal) (String.ofList text))

def finish : LayoutScan Unit := do
  closeBlocks (-1)
  dropKey
  modify fun l => { l with finished := true }

/-! ### The text -/

/-- Takes blanks, comments and line breaks, at most so many lines. Tabs do not count as blanks where
a key may start. -/
def skipLines : Nat → LayoutScan Unit
  | 0 => return
  | bound + 1 => do
      let tabs := (← inFlow) || !(← get).keyAllowed
      let _ ← scan (Scan.takeWhile fun c => c == ' ' || (tabs && c == '\t'))
      if (← scan Scan.peek) == some '#' then
        let _ ← scan (Scan.takeWhile fun _ => true)
      if (← scan Scan.peek).any isBreak then
        scan Scan.skipLine
        unless ← inFlow do allowKey true
        skipLines bound

def toNextToken : LayoutScan Unit := do
  skipLines ((← get).cursor.rest.length + 1)

def isIndicator (c : Char) : Bool :=
  "-?:,[]#&*!|>'\"%@".toList.contains c || c == '\x7b' || c == '\x7d' || c == '\x60'

def startsPlain (flow : Bool) (c : Char) (next : Option Char) : Bool :=
  !(isSpaceOrTab c || isIndicator c) ||
    (c == '-' && !next.any isSpaceOrTab) ||
    (!flow && (c == '?' || c == ':') && !isGap next)

def nextToken : LayoutScan Unit := do
  toNextToken
  dropStaleKeys
  let l ← get
  closeBlocks l.cursor.column
  let flow ← inFlow
  match l.cursor.rest with
  | [] => finish
  | c :: rest =>
      let next := rest.head?
      if l.cursor.column == 0 && c == '%' then directive
      else if l.cursor.atDocumentMark then documentMark
      else if c == '[' then flowStart .flowListStart
      else if c == '\x7b' then flowStart .flowMapStart
      else if c == ']' then flowEnd .flowListEnd
      else if c == '\x7d' then flowEnd .flowMapEnd
      else if c == ',' then comma
      else if c == '-' && isGap next then item
      else if c == '?' && (flow || isGap next) then explicitKey
      else if c == ':' && (flow || isGap next) then colon
      else if c == '*' then keyLike do
        Scan.skip
        return .alias (← Scan.anchorName)
      else if c == '&' then keyLike do
        Scan.skip
        return .anchor (← Scan.anchorName)
      else if c == '!' then keyLike (Scan.tag flow)
      else if c == '|' && !flow then block false
      else if c == '>' && !flow then block true
      else if c == '\'' then quoted '\''
      else if c == '"' then quoted '"'
      else if startsPlain flow c next then plain
      else throw .unexpectedCharacter

/-- Reads tokens up to the end. The bound is on their number. -/
def run : Nat → LayoutScan Unit
  | 0 => throw (.expected "end")
  | bound + 1 => do
      nextToken
      unless (← get).finished do run bound

end LayoutScan

/-- The tokens of a text. A byte order mark at its start does not count. -/
def tokens (text : String) : Except Problem (List Token) := do
  let characters :=
    match text.toList with
    | '\ufeff' :: rest => rest
    | characters => characters
  unless characters.all isAllowed do throw .controlCharacter
  let (_, layout) ← LayoutScan.run (characters.length + 2) { cursor := { rest := characters } }
  return layout.slots.toList.flatMap Slot.tokens

end NodeWeave.Yaml
