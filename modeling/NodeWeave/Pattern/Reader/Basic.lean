import NodeWeave.Pattern.Basic

/-!
Steps of reading a pattern: what is left of the text, the flags that hold, how deep the parts nest,
and characters given by their numbers.
-/

namespace NodeWeave.Pattern

structure Flags where
  ignoresCase : Bool := false
  multiLine : Bool := false
  dotMatchesBreak : Bool := false
  swapsGreed : Bool := false
  unicode : Bool := true
  returnsEndLines : Bool := false
  ignoresBlanks : Bool := false
  deriving DecidableEq, Repr

namespace Flags

def set? (flags : Flags) (name : Char) (value : Bool) : Option Flags :=
  match name with
  | 'i' => some { flags with ignoresCase := value }
  | 'm' => some { flags with multiLine := value }
  | 's' => some { flags with dotMatchesBreak := value }
  | 'U' => some { flags with swapsGreed := value }
  | 'u' => some { flags with unicode := value }
  | 'R' => some { flags with returnsEndLines := value }
  | 'x' => some { flags with ignoresBlanks := value }
  | _ => none

end Flags

/-- A part of a pattern and the number of levels that it nests. Single signs nest none. -/
structure Nested (α : Type) where
  value : α
  depth : Nat := 0

/-- How many levels parts nest that stand side by side. One alone adds none. -/
def levels : List Nat → Nat
  | [] => 0
  | [depth] => depth
  | depths => depths.foldl max 0 + 1

def maxDepth : Nat := 250

structure ReadState where
  rest : List Char
  flags : Flags := {}
  /-- The names of the groups so far. -/
  names : List String := []

/-- Steps of reading, which may find that the text is no pattern. -/
abbrev Read := StateT ReadState Option

namespace Read

def peek (n : Nat := 0) : Read (Option Char) := do
  return (← get).rest[n]?

def next (c : Char) : Read Bool := do
  return (← peek) == some c

def drop (n : Nat := 1) : Read Unit :=
  modify fun s => { s with rest := s.rest.drop n }

def take? (text : String) : Read Bool := do
  if (← get).rest.take text.length == text.toList then
    drop text.length
    return true
  else return false

/-- Without blanks and comments in front. The first argument bounds the number of steps. -/
def withoutBlanks : Nat → List Char → List Char
  | 0, text => text
  | bound + 1, text =>
      match text.dropWhile Text.isBlank with
      | '#' :: rest => withoutBlanks bound ((rest.dropWhile (· != '\n')).drop 1)
      | rest => rest

def skipBlanks : Read Unit :=
  modify fun s =>
    if s.flags.ignoresBlanks then { s with rest := withoutBlanks (s.rest.length + 1) s.rest } else s

def dropAndSkip : Read Unit := do
  drop
  skipBlanks

def atEnd : Read Bool := do
  return (← get).rest.isEmpty

def failAtEnd : Read Unit := do
  if ← atEnd then failure

def bound : Read Nat := do
  return 2 * (← get).rest.length + 8

/-- Takes characters of one kind, and drops what does not count between them. The first argument
bounds their number. -/
def takeKind (kind : Char → Bool) : Nat → Read (List Char)
  | 0 => failure
  | bound + 1 => do
      match ← peek with
      | some c =>
          if kind c then
            dropAndSkip
            return c :: (← takeKind kind bound)
          else return []
      | none => return []

/-! ### Single characters -/

def isMeta (c : Char) : Bool :=
  "\\.+*?()|[]^$#&-~".contains c || c == '\x7b' || c == '\x7d'

def isEscapable (c : Char) : Bool :=
  isMeta c || (c.toNat < 128 && !c.isAlphanum && c != '<' && c != '>')

def hexValue? (c : Char) : Option Nat :=
  if c.isDigit then some (c.toNat - '0'.toNat)
  else if 'a' ≤ c ∧ c ≤ 'f' then some (c.toNat - 'a'.toNat + 10)
  else if 'A' ≤ c ∧ c ≤ 'F' then some (c.toNat - 'A'.toNat + 10)
  else none

def charOf (code : Nat) : Read Char :=
  if code.isValidChar then return Char.ofNat code else failure

/-- A fixed number of hexadecimal digits, of which the first stands here. -/
def hexDigits : Nat → Nat → Read Nat
  | 0, code => return code
  | n + 1, code => do
      match (← peek).bind hexValue? with
      | some digit =>
          dropAndSkip
          hexDigits n (code * 16 + digit)
      | none => failure

/-- Hexadecimal digits up to a closing brace. The first argument bounds the number of steps. -/
def hexBraced : Nat → (digits : Nat) → (code : Nat) → Read Nat
  | 0, _, _ => failure
  | bound + 1, digits, code => do
      if ← next '\x7d' then
        dropAndSkip
        if digits = 0 then failure else return code
      else
        match (← peek).bind hexValue? with
        | some digit =>
            dropAndSkip
            hexBraced bound (digits + 1) (code * 16 + digit)
        | none => failure

def hexChar (digits : Nat) : Read Char := do
  dropAndSkip
  let code ←
    if ← next '\x7b' then do
      dropAndSkip
      hexBraced (← bound) 0 0
    else hexDigits digits 0
  charOf code

end Read

end NodeWeave.Pattern
