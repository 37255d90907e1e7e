import NodeWeave.Yaml.Cursor
import NodeWeave.Yaml.Scalar
import NodeWeave.Text.Basic

/-! How the text of a scalar is written: bare, between quotes, or as a block of lines. -/

namespace NodeWeave.Yaml

/-- Written bare, the text would be read as something else. -/
def isAmbiguous (text : String) : Bool :=
  isZeroPadded text.toList ||
    match ofPlain? text with
    | some (.text _) => false
    | _ => true

/-- Every character stands for itself between single quotes and in blocks. -/
def isPlainlyPrintable (c : Char) : Bool :=
  let code := c.toNat
  code == 10 || (0x20 ≤ code && code ≤ 0x7E) || (0xA0 ≤ code && code ≤ 0xFFFD && code != 0xFEFF)

/-- What about a text decides how it can be written. -/
structure TextShape where
  /-- It has characters that only double quotes can carry. -/
  special : Bool
  hasBreak : Bool
  /-- It has a space at an end, or a line break. -/
  edged : Bool
  trailingSpace : Bool
  /-- A space follows a line break. -/
  spaceAfterBreak : Bool
  /-- A line break follows a space. -/
  breakAfterSpace : Bool
  /-- It holds what ends a bare text or begins something else. -/
  indicators : Bool

/-- The character, with a gap after it or not, begins something else at the start of a text. -/
def beginsOther (c : Char) (gapAfter : Bool) : Bool :=
  "#,[]&*!|>'\"%@".toList.contains c || c == '\x7b' || c == '\x7d' || c == '\x60' ||
    (gapAfter && (c == '?' || c == ':' || c == '-'))

/-- Somewhere after the start the text holds a comment or the end of a key. -/
def hasInnerIndicator : List Char → Bool
  | a :: b :: rest =>
      (b == ':' && isGap rest.head?) || (b == '#' && isGap (some a)) ||
        hasInnerIndicator (b :: rest)
  | _ => false

def TextShape.of (text : List Char) : TextShape :=
  let pairs := text.zip (text.drop 1)
  let startsMark := text.take 3 == ['-', '-', '-'] || text.take 3 == ['.', '.', '.']
  { special := text.any fun c => !isPlainlyPrintable c
    hasBreak := text.any isBreak
    edged := text.head?.any (fun c => c == ' ' || isBreak c) ||
      text.getLast?.any (fun c => c == ' ' || isBreak c)
    trailingSpace := text.getLast? == some ' '
    spaceAfterBreak := pairs.any fun (a, b) => isBreak a && b == ' '
    breakAfterSpace := pairs.any fun (a, b) => a == ' ' && isBreak b
    indicators := startsMark || hasInnerIndicator text ||
      match text with
      | c :: rest => beginsOther c (isGap rest.head?)
      | [] => false }

inductive Writing where
  | bare
  | singleQuotes
  | doubleQuotes
  | block
  deriving DecidableEq, Repr

/-- How a text is written. Between a line's start and its colon there is no room for a block. -/
def writingOf (text : String) (isKey : Bool) : Writing :=
  let shape := TextShape.of text.toList
  let quotes :=
    if shape.special || shape.spaceAfterBreak || shape.breakAfterSpace then .doubleQuotes
    else .singleQuotes
  if isKey && shape.hasBreak then .doubleQuotes
  else if !isAmbiguous text && text.toList.contains '\n' then
    if shape.trailingSpace || shape.special || shape.breakAfterSpace then .doubleQuotes else .block
  else if isAmbiguous text || shape.edged || shape.hasBreak || shape.special ||
      shape.indicators then
    quotes
  else .bare

def hexDigits (width n : Nat) : List Char :=
  let digits := (Nat.toDigits 16 n).map Char.toUpper
  List.replicate (width - digits.length) '0' ++ digits

def escapeChar (c : Char) : List Char :=
  let code := c.toNat
  match c with
  | '\x00' => ['\\', '0']
  | '\x07' => ['\\', 'a']
  | '\x08' => ['\\', 'b']
  | '\t' => ['\\', 't']
  | '\n' => ['\\', 'n']
  | '\x0b' => ['\\', 'v']
  | '\x0c' => ['\\', 'f']
  | '\r' => ['\\', 'r']
  | '\x1b' => ['\\', 'e']
  | '"' => ['\\', '"']
  | '\\' => ['\\', '\\']
  | '\u0085' => ['\\', 'N']
  | '\u2028' => ['\\', 'L']
  | '\u2029' => ['\\', 'P']
  | _ =>
      if isPlainlyPrintable c then [c]
      else if code ≤ 0xFF then '\\' :: 'x' :: hexDigits 2 code
      else if code ≤ 0xFFFF then '\\' :: 'u' :: hexDigits 4 code
      else '\\' :: 'U' :: hexDigits 8 code

def doubleQuoted (text : String) : String :=
  String.ofList ('"' :: text.toList.flatMap escapeChar ++ ['"'])

def spaces (n : Nat) : List Char :=
  List.replicate n ' '

/-- Between single quotes a quote stands twice. Lines after a break are indented. -/
def singleQuotedChars (indent : Nat) : (afterBreak : Bool) → List Char → List Char
  | afterBreak, [] => if afterBreak then spaces indent else []
  | afterBreak, c :: rest =>
      if isBreak c then c :: singleQuotedChars indent true rest
      else
        (if afterBreak && c != ' ' then spaces indent else []) ++
          (if c = '\'' then ['\'', '\''] else [c]) ++ singleQuotedChars indent false rest

def singleQuoted (indent : Nat) (text : String) : String :=
  String.ofList ('\'' :: singleQuotedChars indent false text.toList ++ ['\''])

/-- What stands behind the bar of a block: whether it starts with a blank, and what becomes of the
line breaks at its end. -/
def blockHeader (text : List Char) : List Char :=
  let hint := if text.head?.any (fun c => c == ' ' || isBreak c) then ['2'] else []
  let chomping :=
    match text.reverse with
    | last :: rest =>
        if !isBreak last then ['-']
        else
          match rest with
          | [] => ['+']
          | before :: _ => if isBreak before then ['+'] else []
    | [] => ['-']
  hint ++ chomping

def blockChars (indent : Nat) : (afterBreak : Bool) → List Char → List Char
  | _, [] => []
  | afterBreak, c :: rest =>
      if isBreak c then c :: blockChars indent true rest
      else (if afterBreak then spaces indent else []) ++ c :: blockChars indent false rest

def blockText (indent : Nat) (text : String) : String :=
  let lines := blockChars indent true text.toList
  let close := if text.toList.getLast?.any isBreak then [] else ['\n']
  String.ofList ('|' :: blockHeader text.toList ++ '\n' :: lines ++ close)

end NodeWeave.Yaml
