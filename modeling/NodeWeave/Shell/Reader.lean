import NodeWeave.Shell.Basic
import NodeWeave.Text.Basic

/-!
Reading scripts. Characters are taken one by one into words and signs; these are then taken one by
one into commands.
-/

namespace NodeWeave.Shell

inductive Token where
  | word (w : Word)
  /-- What ends a command. -/
  | separator (link : Link)
  /-- A redirection of a descriptor; its word follows. -/
  | redirect (descriptor : Nat) (make : Word → Target)
  /-- What no script for this shell has. -/
  | foreign

inductive Mode where
  | plain
  | escaped
  | single
  | double
  | doubleEscaped
  | comment
  | dollar (quoted : Bool)
  | name (quoted : Bool) (text : List Char)
  | brace (quoted : Bool) (text : List Char)
  | greater (descriptor : Nat)
  | ampersand
  | bar

structure Lexing where
  mode : Mode := .plain
  line : Nat := 1
  /-- The word that is being read, last part first. -/
  word : List WordPart := []
  tokens : List (Nat × Token) := []

namespace Lexing

def push (s : Lexing) (token : Token) : Lexing :=
  { s with tokens := s.tokens ++ [(s.line, token)] }

def add (s : Lexing) (part : WordPart) : Lexing :=
  { s with word := part :: s.word }

def endWord (s : Lexing) : Lexing :=
  if s.word.isEmpty then s
  else { s.push (.word s.word.reverse) with word := [] }

def separate (s : Lexing) (link : Link) : Lexing :=
  s.endWord.push (.separator link)

def number? (parts : List WordPart) : Option Nat :=
  let digits := parts.filterMap fun
    | .char c false => if c.isDigit then some c else none
    | _ => none
  if digits.isEmpty || digits.length != parts.length then none
  else some (digits.foldl (fun n c => n * 10 + (c.toNat - '0'.toNat)) 0)

/-- A word of digits right before a sign names the descriptor that is redirected. -/
def takeDescriptor (s : Lexing) (default : Nat) : Lexing × Nat :=
  match number? s.word.reverse with
  | some n => ({ s with word := [] }, n)
  | none => (s.endWord, default)

def plainStep (s : Lexing) (c : Char) : Lexing :=
  if c = '\n' then
    let s := s.separate .always
    { s with line := s.line + 1, mode := .plain }
  else if c = ' ' || c = '\t' then { s.endWord with mode := .plain }
  else if c = ';' then { s.separate .always with mode := .plain }
  else if c = '&' then { s.endWord with mode := .ampersand }
  else if c = '|' then { s.endWord with mode := .bar }
  else if c = '>' then
    let (s, n) := s.takeDescriptor 1
    { s with mode := .greater n }
  else if c = '<' then
    let (s, n) := s.takeDescriptor 0
    { s.push (.redirect n .input) with mode := .plain }
  else if c = '\\' then { s with mode := .escaped }
  else if c = '\'' then { s.add .quotes with mode := .single }
  else if c = '"' then { s.add .quotes with mode := .double }
  else if c = '$' then { s with mode := .dollar false }
  else if c = '#' && s.word.isEmpty then { s with mode := .comment }
  else if c = '(' || c = ')' || c = '\x60' then { s.push .foreign with mode := .plain }
  else { s.add (.char c false) with mode := .plain }

def doubleStep (s : Lexing) (c : Char) : Lexing :=
  if c = '"' then { s with mode := .plain }
  else if c = '\\' then { s with mode := .doubleEscaped }
  else if c = '$' then { s with mode := .dollar true }
  else if c = '\x60' then { s.push .foreign with mode := .double }
  else { s.add (.char c true) with mode := .double }

def resume (s : Lexing) (quoted : Bool) (c : Char) : Lexing :=
  if quoted then s.doubleStep c else s.plainStep c

def baseMode (quoted : Bool) : Mode :=
  if quoted then .double else .plain

def isNamePart (c : Char) : Bool :=
  c.isAlphanum || c = '_'

def isSpecial (c : Char) : Bool :=
  c.isDigit || ['$', '?', '#', '@', '*', '!'].contains c

def braced (text : List Char) : String × Cut :=
  let name :=
    match text with
    | c :: _ => if isSpecial c then [c] else text.takeWhile isNamePart
    | [] => []
  let cut :=
    match text.drop name.length with
    | '#' :: '#' :: pattern => .longestFront (String.ofList pattern)
    | '#' :: pattern => .shortestFront (String.ofList pattern)
    | '%' :: '%' :: pattern => .longestBack (String.ofList pattern)
    | '%' :: pattern => .shortestBack (String.ofList pattern)
    | ':' :: '-' :: other => .orElse (String.ofList other)
    | _ => .nothing
  (String.ofList name, cut)

def step (s : Lexing) (c : Char) : Lexing :=
  match s.mode with
  | .plain => s.plainStep c
  | .double => s.doubleStep c
  | .escaped =>
      if c = '\n' then { s with mode := .plain, line := s.line + 1 }
      else { s.add (.char c true) with mode := .plain }
  | .doubleEscaped =>
      if c = '\n' then { s with mode := .double, line := s.line + 1 }
      else if ['$', '\x60', '"', '\\'].contains c then
        { s.add (.char c true) with mode := .double }
      else { (s.add (.char '\\' true)).add (.char c true) with mode := .double }
  | .single =>
      if c = '\'' then { s with mode := .plain } else s.add (.char c true)
  | .comment => if c = '\n' then { s with mode := .plain }.plainStep c else s
  | .dollar quoted =>
      if c = '\x7b' then { s with mode := .brace quoted [] }
      else if isSpecial c then
        { s.add (.value c.toString .nothing quoted) with mode := baseMode quoted }
      else if isNamePart c then { s with mode := .name quoted [c] }
      else if c = '(' then { s.push .foreign with mode := baseMode quoted }
      else (s.add (.char '$' true)).resume quoted c
  | .name quoted text =>
      if isNamePart c then { s with mode := .name quoted (text ++ [c]) }
      else (s.add (.value (String.ofList text) .nothing quoted)).resume quoted c
  | .brace quoted text =>
      if c = '\x7d' then
        let (name, cut) := braced text
        { s.add (.value name cut quoted) with mode := baseMode quoted }
      else { s with mode := .brace quoted (text ++ [c]) }
  | .greater n =>
      if c = '>' then { s.push (.redirect n fun w => .file w true) with mode := .plain }
      else if c = '&' then { s.push (.redirect n .descriptor) with mode := .plain }
      else { s.push (.redirect n fun w => .file w false) with mode := .plain }.plainStep c
  | .ampersand =>
      if c = '&' then { s.separate .afterSuccess with mode := .plain }
      else { s.push .foreign with mode := .plain }.plainStep c
  | .bar =>
      if c = '|' then { s.separate .afterFailure with mode := .plain }
      else { s.push .foreign with mode := .plain }.plainStep c

end Lexing

def tokens (text : String) : List (Nat × Token) :=
  ((text.toList ++ ['\n']).foldl Lexing.step {}).tokens

structure Parsing where
  commands : List Command := []
  current : Command := { line := 1 }
  /-- The redirection whose word is still to come. -/
  pending : Option (Nat × (Word → Target)) := none
  isSupported : Bool := true

namespace Parsing

def assignment? (w : Word) : Option (String × Word) :=
  let front := w.takeWhile fun
    | .char c false => Lexing.isNamePart c
    | _ => false
  let name := front.filterMap fun
    | .char c _ => some c
    | _ => none
  match name, w.drop front.length with
  | first :: _, .char '=' false :: value =>
      if first.isDigit then none else some (String.ofList name, value)
  | _, _ => none

def isBlank (c : Command) : Bool :=
  c.words.isEmpty && c.assignments.isEmpty && c.redirections.isEmpty

def addWord (s : Parsing) (line : Nat) (w : Word) : Parsing :=
  let c := if isBlank s.current then { s.current with line } else s.current
  match s.pending, assignment? w with
  | some (n, make), _ =>
      { s with pending := none
               current := { c with redirections := c.redirections ++ [⟨n, make w⟩] } }
  | none, some entry =>
      if c.words.isEmpty then
        { s with current := { c with assignments := c.assignments ++ [entry] } }
      else { s with current := { c with words := c.words ++ [w] } }
  | none, none => { s with current := { c with words := c.words ++ [w] } }

def step (s : Parsing) (token : Nat × Token) : Parsing :=
  match token with
  | (line, .word w) => s.addWord line w
  | (_, .redirect n make) => { s with pending := some (n, make) }
  | (_, .foreign) => { s with isSupported := false }
  | (line, .separator link) =>
      if isBlank s.current then { s with current := { s.current with line } }
      else
        { s with commands := s.commands ++ [s.current], current := { line, link }
                 isSupported := s.isSupported && s.pending.isNone }

end Parsing

/-- The commands of a script, unless it has parts that this shell does not know. -/
def commands? (text : String) : Option (List Command) :=
  let result := (tokens text).foldl Parsing.step {}
  if result.isSupported then some result.commands else none

end NodeWeave.Shell
