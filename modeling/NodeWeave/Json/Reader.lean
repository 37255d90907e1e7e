import NodeWeave.Json.Basic

/-! Reading values of JSON from their texts. -/

namespace NodeWeave.Json

def isSpace (c : Char) : Bool :=
  c = ' ' || c = '\t' || c = '\n' || c = '\r'

def skip (text : List Char) : List Char :=
  text.dropWhile isSpace

def hexValue (c : Char) : Nat :=
  if c.isDigit then c.toNat - '0'.toNat
  else if 'a' ≤ c ∧ c ≤ 'f' then c.toNat - 'a'.toNat + 10
  else if 'A' ≤ c ∧ c ≤ 'F' then c.toNat - 'A'.toNat + 10
  else 0

def codeOf (a b c d : Char) : Nat :=
  ((hexValue a * 16 + hexValue b) * 16 + hexValue c) * 16 + hexValue d

def paired? (high low : Nat) : Option Char :=
  if 0xD800 ≤ high ∧ high < 0xDC00 ∧ 0xDC00 ≤ low ∧ low < 0xE000 then
    some (Char.ofNat (0x10000 + (high - 0xD800) * 0x400 + (low - 0xDC00)))
  else none

def unescapeChar : Char → Char
  | 'n' => '\n'
  | 't' => '\t'
  | 'r' => '\r'
  | 'b' => '\x08'
  | 'f' => '\x0c'
  | c => c

def readQuoted : List Char → Option (List Char × List Char)
  | [] => none
  | '"' :: rest => some ([], rest)
  | '\\' :: 'u' :: a :: b :: c :: d :: '\\' :: 'u' :: e :: f :: g :: h :: rest =>
      match paired? (codeOf a b c d) (codeOf e f g h) with
      | some char => (readQuoted rest).map fun (chars, rest) => (char :: chars, rest)
      | none =>
          (readQuoted ('\\' :: 'u' :: e :: f :: g :: h :: rest)).map fun (chars, rest) =>
            (Char.ofNat (codeOf a b c d) :: chars, rest)
  | '\\' :: 'u' :: a :: b :: c :: d :: rest =>
      (readQuoted rest).map fun (chars, rest) => (Char.ofNat (codeOf a b c d) :: chars, rest)
  | '\\' :: c :: rest => (readQuoted rest).map fun (chars, rest) => (unescapeChar c :: chars, rest)
  | c :: rest => (readQuoted rest).map fun (chars, rest) => (c :: chars, rest)
termination_by text => text.length

def readText (text : List Char) : Option (String × List Char) :=
  (readQuoted text).map fun (chars, rest) => (String.ofList chars, rest)

def digitsValue (digits : List Char) : Nat :=
  digits.foldl (fun n c => n * 10 + (c.toNat - '0'.toNat)) 0

def exponentValue : List Char → Int
  | _ :: '-' :: digits => -(digitsValue digits : Int)
  | _ :: '+' :: digits => digitsValue digits
  | _ :: digits => digitsValue digits
  | [] => 0

/-- A number. Whole numbers of at most 64 bits are integers, all others have a floating point. -/
def number (text : List Char) : Json :=
  let negative := text.head? == some '-'
  let digits := if negative then text.drop 1 else text
  let whole := digits.takeWhile Char.isDigit
  let rest := digits.dropWhile Char.isDigit
  let value := digitsValue whole
  if rest.isEmpty && value < Nat.pow 2 64 &&
      !(negative && (value == 0 || value > Nat.pow 2 63)) then
    .int (if negative then -(value : Int) else value)
  else
    let (fraction, rest) :=
      match rest with
      | '.' :: more => (more.takeWhile Char.isDigit, more.dropWhile Char.isDigit)
      | _ => ([], rest)
    .float (Binary64.ofDecimal negative (digitsValue (whole ++ fraction))
      (exponentValue rest - fraction.length))

def isNumberPart (c : Char) : Bool :=
  c.isDigit || c = '-' || c = '+' || c = '.' || c = 'e' || c = 'E'

mutual
def readValue : Nat → List Char → Option (Json × List Char)
  | 0, _ => none
  | fuel + 1, chars =>
      match skip chars with
      | 'n' :: 'u' :: 'l' :: 'l' :: rest => some (.null, rest)
      | 't' :: 'r' :: 'u' :: 'e' :: rest => some (.bool true, rest)
      | 'f' :: 'a' :: 'l' :: 's' :: 'e' :: rest => some (.bool false, rest)
      | '"' :: rest => (readText rest).map fun (chars, rest) => (.text chars, rest)
      | '[' :: rest =>
          match skip rest with
          | ']' :: rest => some (.list [], rest)
          | rest => (readItems fuel rest).map fun (items, rest) => (.list items, rest)
      | '\x7b' :: rest =>
          match skip rest with
          | '\x7d' :: rest => some (.object [], rest)
          | rest => (readFields fuel rest).map fun (fields, rest) => (ofFields fields, rest)
      | rest =>
          match rest.takeWhile isNumberPart with
          | [] => none
          | digits => some (number digits, rest.dropWhile isNumberPart)

def readItems : Nat → List Char → Option (List Json × List Char)
  | 0, _ => none
  | fuel + 1, chars => do
      let (item, rest) ← readValue fuel chars
      match skip rest with
      | ',' :: rest => (readItems fuel rest).map fun (items, rest) => (item :: items, rest)
      | ']' :: rest => some ([item], rest)
      | _ => none

def readFields : Nat → List Char → Option (List (String × Json) × List Char)
  | 0, _ => none
  | fuel + 1, chars => do
      let '"' :: rest := skip chars | none
      let (name, rest) ← readText rest
      let ':' :: rest := skip rest | none
      let (value, rest) ← readValue fuel rest
      match skip rest with
      | ',' :: rest =>
          (readFields fuel rest).map fun (fields, rest) => ((name, value) :: fields, rest)
      | '\x7d' :: rest => some ([(name, value)], rest)
      | _ => none
end

/-- The value that a text is. Every step takes a character, so the length of the text bounds their
number. -/
def read? (text : String) : Option Json :=
  match readValue (2 * text.length + 2) text.toList with
  | some (value, rest) => if (skip rest).isEmpty then some value else none
  | none => none

end NodeWeave.Json
