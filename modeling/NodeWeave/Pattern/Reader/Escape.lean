import NodeWeave.Pattern.Reader.Basic

/-! Escapes: single characters, sets of characters, and places in a text. -/

namespace NodeWeave.Pattern.Read

/-- The properties of characters that are known here. A pattern with another one is refused. -/
def property? (name : String) : Option CharSet :=
  let plain := String.ofList ((name.toList.filter fun c => c != '_' && c != '-' && c != ' ').map
    Char.toLower)
  match plain with
  | "any" => some .any
  | "ascii" => some .ascii
  | "l" | "letter" | "alphabetic" | "alpha" => some .letter
  | "lu" | "uppercaseletter" | "uppercase" | "upper" => some .upperLetter
  | "ll" | "lowercaseletter" | "lowercase" | "lower" => some .lowerLetter
  | "nd" | "decimalnumber" | "digit" | "n" | "number" => some .digit
  | "whitespace" | "space" => some .blank
  | _ => none

def propertyName : Read String := do
  dropAndSkip
  if ← next '\x7b' then do
    dropAndSkip
    let name := (← get).rest.takeWhile (· != '\x7d')
    drop name.length
    failAtEnd
    drop
    return String.ofList name
  else
    match ← peek with
    | some '\\' | none => failure
    | some c =>
        dropAndSkip
        return c.toString

def negatedIf (negated : Bool) (set : CharSet) : CharSet :=
  if negated then .complement set else set

def folded (s : CharSet) : Read CharSet := do
  return if (← get).flags.ignoresCase then .anyCase s else s

def perlSet? (c : Char) : Option CharSet :=
  match c with
  | 'd' | 'D' => some .digit
  | 's' | 'S' => some .blank
  | 'w' | 'W' => some .word
  | _ => none

inductive Atom where
  | char (c : Char)
  | set (s : CharSet)
  | look (l : Look)
  | dot

def words : Read CharSet := do
  return if (← get).flags.unicode then .word else .intersection .word .ascii

def boundaryName? : Read (Option String) := do
  let isPart := fun c : Char => c.isAlpha || c == '-'
  if ← next '\x7b' then
    let before ← get
    dropAndSkip
    failAtEnd
    if !(← peek).any isPart then
      set before
      return none
    else
      let name ← takeKind isPart (← bound)
      if ← next '\x7d' then
        drop
        return some (String.ofList name)
      else failure
  else return none

def escape : Read Atom := do
  drop
  match ← peek with
  | none => failure
  | some c =>
      if c.isDigit then failure
      else if c == 'x' then return .char (← hexChar 2)
      else if c == 'u' then return .char (← hexChar 4)
      else if c == 'U' then return .char (← hexChar 8)
      else if c == 'p' || c == 'P' then
        match property? (← propertyName) with
        | some s =>
            if (← get).flags.unicode then return .set (negatedIf (c == 'P') (← folded s))
            else failure
        | none => failure
      else
        drop
        match perlSet? c with
        | some s =>
            let unicode := (← get).flags.unicode
            if !unicode && c.isUpper then failure
            let s := if unicode then s else .intersection s .ascii
            return .set (negatedIf c.isUpper s)
        | none =>
            if isEscapable c then return .char c
            else
              match c with
              | 'a' => return .char '\x07'
              | 'f' => return .char '\x0c'
              | 't' => return .char '\t'
              | 'n' => return .char '\n'
              | 'r' => return .char '\r'
              | 'v' => return .char '\x0b'
              | 'A' => return .look .textStart
              | 'z' => return .look .textEnd
              | 'B' => return .look (.noWordBoundary (← words))
              | '<' => return .look (.wordStart (← words))
              | '>' => return .look (.wordEnd (← words))
              | 'b' =>
                  match ← boundaryName? with
                  | none => return .look (.wordBoundary (← words))
                  | some "start" => return .look (.wordStart (← words))
                  | some "end" => return .look (.wordEnd (← words))
                  | some "start-half" => return .look (.wordStartHalf (← words))
                  | some "end-half" => return .look (.wordEndHalf (← words))
                  | some _ => failure
              | _ => failure

end NodeWeave.Pattern.Read
