import NodeWeave.Yaml.Basic

/-! What a scalar without quotes stands for. -/

namespace NodeWeave.Yaml

def isNullText : String → Bool
  | "null" | "Null" | "NULL" | "~" => true
  | _ => false

def boolOf? : String → Option Bool
  | "true" | "True" | "TRUE" => some true
  | "false" | "False" | "FALSE" => some false
  | _ => none

def digitValue? (c : Char) : Option Nat :=
  if c.isDigit then some (c.toNat - '0'.toNat)
  else if 'a' ≤ c ∧ c ≤ 'z' then some (c.toNat - 'a'.toNat + 10)
  else if 'A' ≤ c ∧ c ≤ 'Z' then some (c.toNat - 'A'.toNat + 10)
  else none

/-- The number that digits stand for. There must be at least one. -/
def digits? (base : Nat) (text : List Char) : Option Nat :=
  if text.isEmpty then none
  else
    text.foldlM (fun n c => do
      let digit ← digitValue? c
      if digit < base then some (n * base + digit) else none) 0

/-- More than one digit, the first of them a zero. Such a text is no number. -/
def isZeroPadded (text : List Char) : Bool :=
  let digits := if text.head? = some '-' ∨ text.head? = some '+' then text.drop 1 else text
  1 < digits.length && digits.head? == some '0' && digits.all Char.isDigit

def based? : List Char → Option Nat
  | '0' :: 'x' :: digits => digits? 16 digits
  | '0' :: 'o' :: digits => digits? 8 digits
  | '0' :: 'b' :: digits => digits? 2 digits
  | _ => none

def intOf? (text : List Char) : Option Int :=
  match text with
  | '-' :: rest =>
      (based? rest <|> if isZeroPadded text then none else digits? 10 rest).map fun n => -(n : Int)
  | '+' :: rest =>
      (based? rest <|> if isZeroPadded text then none else digits? 10 rest).map Int.ofNat
  | _ => (based? text <|> if isZeroPadded text then none else digits? 10 text).map Int.ofNat

/-- The decimal that a text stands for: its digits and its power of ten. -/
def decimalOf? (text : List Char) : Option (Nat × Int) := do
  let whole := text.takeWhile Char.isDigit
  let rest := text.dropWhile Char.isDigit
  let (fraction, rest) :=
    match rest with
    | '.' :: more => (more.takeWhile Char.isDigit, more.dropWhile Char.isDigit)
    | _ => ([], rest)
  let digits ← digits? 10 (whole ++ fraction)
  let exponent ←
    match rest with
    | [] => some (0 : Int)
    | e :: '-' :: more =>
        if e = 'e' ∨ e = 'E' then (digits? 10 more).map fun n => -(n : Int) else none
    | e :: '+' :: more => if e = 'e' ∨ e = 'E' then (digits? 10 more).map Int.ofNat else none
    | e :: more => if e = 'e' ∨ e = 'E' then (digits? 10 more).map Int.ofNat else none
  return (digits, exponent - fraction.length)

/-- The number nearest to the decimal that a text names, unless it is too large. -/
def finiteOf? (negative : Bool) (text : List Char) : Option Binary64 := do
  let (digits, exponent) ← decimalOf? text
  let number := Binary64.ofDecimal negative digits exponent
  if number.isInfinite then none else some number

def isInfinityText : List Char → Bool
  | ['.', 'i', 'n', 'f'] | ['.', 'I', 'n', 'f'] | ['.', 'I', 'N', 'F'] => true
  | _ => false

def floatOf? (text : List Char) : Option Binary64 :=
  match text with
  | ['.', 'n', 'a', 'n'] | ['.', 'N', 'a', 'N'] | ['.', 'N', 'A', 'N'] => some .notANumber
  | '-' :: rest =>
      if isInfinityText rest then some (.infinity true) else finiteOf? true rest
  | '+' :: rest =>
      if isInfinityText rest then some (.infinity false) else finiteOf? false rest
  | _ => if isInfinityText text then some (.infinity false) else finiteOf? false text

/-- The integer fits in 64 bits, with or without a sign. -/
def fits (n : Int) : Bool :=
  decide (-(Nat.pow 2 63 : Int) ≤ n ∧ n < Nat.pow 2 64)

def fitsTwice (n : Int) : Bool :=
  decide (-(Nat.pow 2 127 : Int) ≤ n ∧ n < Nat.pow 2 128)

def ofFraction (text : String) : Yaml :=
  if isZeroPadded text.toList then .text text
  else
    match floatOf? text.toList with
    | some number => float number
    | none => .text text

/-- The value of a scalar without quotes. Integers of more than 64 bits have none, and those of more
than 128 bits count as floating-point numbers. -/
def ofPlain? (text : String) : Option Yaml :=
  if text.isEmpty || isNullText text then some null
  else
    match boolOf? text with
    | some b => some (bool b)
    | none =>
        match intOf? text.toList with
        | some n =>
            if fits n then some (int n) else if fitsTwice n then none else some (ofFraction text)
        | none => some (ofFraction text)

@[simp] theorem ofPlain?_null : ofPlain? "null" = some null := rfl

end NodeWeave.Yaml
