import NodeWeave.Yaml.Problem

/-! Reading a text in YAML character by character, with the line and the column at hand. -/

namespace NodeWeave.Yaml

/-- Where reading stands. Lines and columns count from zero. -/
structure Cursor where
  rest : List Char
  index : Nat := 0
  line : Nat := 0
  column : Nat := 0

def isBreak (c : Char) : Bool :=
  c == '\n' || c == '\r' || c == '\u0085' || c == '\u2028' || c == '\u2029'

def isSpaceOrTab (c : Char) : Bool :=
  c == ' ' || c == '\t'

def isGap : Option Char → Bool
  | none => true
  | some c => isSpaceOrTab c || isBreak c

def isAllowed (c : Char) : Bool :=
  let code := c.toNat
  code == 9 || code == 10 || code == 13 || (0x20 ≤ code && code ≤ 0x7E) || code == 0x85 ||
    (0xA0 ≤ code && code ≤ 0xD7FF) || (0xE000 ≤ code && code ≤ 0xFFFD && code != 0xFEFF) ||
    0x10000 ≤ code

def isNameChar (c : Char) : Bool :=
  c.isAlphanum || c == '_' || c == '-'

namespace Cursor

def advance (c : Cursor) (n : Nat) : Cursor :=
  { c with rest := c.rest.drop n, index := c.index + n, column := c.column + n }

/-- Moves to the next line. A carriage return with a line feed is one break. -/
def nextLine (c : Cursor) : Cursor :=
  match c.rest with
  | '\r' :: '\n' :: rest => { rest, index := c.index + 2, line := c.line + 1 }
  | b :: rest => if isBreak b then { rest, index := c.index + 1, line := c.line + 1 } else c
  | [] => c

/-- Three dashes or three dots at the start of a line, with a gap after them. -/
def atDocumentMark (c : Cursor) : Bool :=
  c.column == 0 && (c.rest.take 3 == ['-', '-', '-'] || c.rest.take 3 == ['.', '.', '.']) &&
    isGap c.rest[3]?

end Cursor

abbrev Scan := StateT Cursor (Except Problem)

namespace Scan

def peek (n : Nat := 0) : Scan (Option Char) := do
  return (← get).rest[n]?

def skip (n : Nat := 1) : Scan Unit :=
  modify (·.advance n)

def skipLine : Scan Unit :=
  modify Cursor.nextLine

/-- Takes the characters of this line that the predicate holds of. -/
def takeWhile (p : Char → Bool) : Scan (List Char) :=
  modifyGet fun c =>
    let taken := c.rest.takeWhile fun x => p x && !isBreak x
    (taken, c.advance taken.length)

/-- Takes a line break if there is one. Separators of lines and paragraphs stay as they are, other
breaks are line feeds. -/
def takeBreak : Scan (List Char) :=
  modifyGet fun c =>
    match c.rest with
    | b :: _ =>
        if b == '\u2028' || b == '\u2029' then ([b], c.nextLine)
        else if isBreak b then (['\n'], c.nextLine)
        else ([], c)
    | [] => ([], c)

/-- Runs steps until one of them ends the loop. The bound is on their number. -/
def loop {α β : Type} (step : α → Scan (α ⊕ β)) : Nat → α → Scan β
  | 0, _ => throw (.expected "end")
  | bound + 1, a => do
      match ← step a with
      | .inl next => loop step bound next
      | .inr result => return result

/-- A bound for loops in which every step takes a character. -/
def bound : Scan Nat := do
  return (← get).rest.length + 2

end Scan

end NodeWeave.Yaml
