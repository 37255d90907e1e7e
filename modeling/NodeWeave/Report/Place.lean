import NodeWeave.Text.Basic

/-! Places that reports point to: in a file, or in a structured value. -/

namespace NodeWeave

/-- The way to a part of a structured value: keys and indices from the outside in. -/
abbrev DataPath := List String

inductive Place where
  | file (name : String) (line column : Nat)
  | data (path : DataPath)
  deriving DecidableEq, Repr

namespace Place

/-- The characters in front of a byte offset, unless the offset lies inside a character. An offset
beyond the end stands for the end. -/
def before? : Nat → List Char → Option (List Char)
  | 0, _ => some []
  | _ + 1, [] => some []
  | offset + 1, c :: rest =>
      if c.utf8Size ≤ offset + 1 then (before? (offset + 1 - c.utf8Size) rest).map (c :: ·)
      else none

/-- The line and the column, counted from one, of what follows these characters. Columns count
bytes. -/
def lineAndColumn (before : List Char) : Nat × Nat :=
  let lastLine := (before.reverse.takeWhile (· != '\n')).reverse
  (before.count '\n' + 1, Text.byteLength lastLine + 1)

/-- The place of a byte offset in the text of a file, unless it lies inside a character. -/
def ofOffset? (name text : String) (offset : Nat) : Option Place :=
  (before? offset text.toList).map fun before =>
    let (line, column) := lineAndColumn before
    file name line column

def pathText (path : DataPath) : String :=
  "/" ++ Text.join "/" path

def text : Place → String
  | file name line column => name ++ ":" ++ toString line ++ ":" ++ toString column
  | data path => pathText path

@[simp] theorem before?_zero (text : List Char) : before? 0 text = some [] := by
  cases text <;> rfl

end Place

end NodeWeave
