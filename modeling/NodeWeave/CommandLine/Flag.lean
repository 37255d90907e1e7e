import NodeWeave.Text.Basic

/-!
Reading command lines: flags with their values, operands, and the name of a command that the rest
is for. A flag is given by its name or by a letter, its value in the same argument or in the next
one.
-/

namespace NodeWeave.CommandLine

inductive Arity where
  | none
  | one
  /-- All arguments up to the next flag, at least one. -/
  | several
  deriving DecidableEq, Repr

inductive Stop where
  | malformed
  | help
  | version
  deriving DecidableEq, Repr

structure Flag where
  name : String
  letter : Option Char := none
  arity : Arity := .none
  /-- The flag may be given more than once. -/
  repeats : Bool := false
  accepts : String → Bool := fun _ => true
  /-- Reading ends with this flag. -/
  stop : Option Stop := none

structure Form where
  flags : List Flag
  commands : List String := []
  operands : Nat := 0

inductive Word where
  /-- All arguments behind it are operands. -/
  | separator
  | named (name : String) (value : Option String)
  | letters (letters : List Char)
  | plain (text : String)
  deriving DecidableEq, Repr

def Word.ofArgument (argument : String) : Word :=
  match argument.toList with
  | ['-', '-'] => .separator
  | '-' :: '-' :: rest =>
      match Text.splitFirst? ['='] rest with
      | some (name, value) => .named (String.ofList name) (some (String.ofList value))
      | none => .named (String.ofList rest) none
  | '-' :: letter :: rest => .letters (letter :: rest)
  | _ => .plain argument

structure Given where
  /-- Flags by their names, with their values, in order. -/
  flags : List (String × List String) := []
  operands : List String := []
  deriving DecidableEq, Repr

namespace Given

def has (given : Given) (name : String) : Bool :=
  given.flags.any (·.1 = name)

def values (given : Given) (name : String) : List String :=
  (given.flags.filter (·.1 = name)).flatMap (·.2)

def give (given : Given) (flag : Flag) (values : List String) : Except Stop Given :=
  match flag.stop with
  | some stop => .error stop
  | none =>
      if (given.has flag.name && !flag.repeats) || !values.all flag.accepts
          || (flag.arity != .none && values.isEmpty) then .error .malformed
      else .ok { given with flags := given.flags ++ [(flag.name, values)] }

def close (given : Given) : Option (Flag × List String) → Except Stop Given
  | none => .ok given
  | some (flag, values) => given.give flag values

def addOperand (given : Given) (form : Form) (text : String) : Except Stop Given :=
  if given.operands.length < form.operands && text != "" then
    .ok { given with operands := given.operands ++ [text] }
  else .error .malformed

end Given

def attached : List Char → String
  | '=' :: value => String.ofList value
  | value => String.ofList value

/-- Reads letters of flags, and a value behind the last one. The flag that needs a value from the
next argument is left open. -/
def readLetters (form : Form) :
    Given → List Char → Except Stop (Given × Option (Flag × List String))
  | given, [] => .ok (given, none)
  | given, letter :: rest =>
      match form.flags.find? fun flag => flag.letter = some letter with
      | none => .error .malformed
      | some flag =>
          if flag.arity = .none then do readLetters form (← given.give flag []) rest
          else if rest.isEmpty then .ok (given, some (flag, []))
          else do return (← given.give flag [attached rest], none)

def readNamed (form : Form) (given : Given) (name : String) (value : Option String) :
    Except Stop (Given × Option (Flag × List String)) :=
  match form.flags.find? fun flag => flag.name = name with
  | none => .error .malformed
  | some flag =>
      match flag.arity, value with
      | .none, none => do return (← given.give flag [], none)
      | .none, some _ => .error .malformed
      | _, some value => do return (← given.give flag [value], none)
      | _, none => .ok (given, some (flag, []))

/-- Reads arguments up to the name of a command, which is returned with the rest. A flag may be
open: its values are being read. -/
def readArguments (form : Form) :
    Given → Option (Flag × List String) → List String →
      Except Stop (Given × Option (String × List String))
  | given, pending, [] => do return (← given.close pending, none)
  | given, pending, argument :: rest =>
      match Word.ofArgument argument, pending with
      | .separator, _ => do
          let given ← rest.foldlM (fun given text => given.addOperand form text)
            (← given.close pending)
          return (given, none)
      | .named name value, _ => do
          let (given, pending) ← readNamed form (← given.close pending) name value
          readArguments form given pending rest
      | .letters letters, _ => do
          let (given, pending) ← readLetters form (← given.close pending) letters
          readArguments form given pending rest
      | .plain text, some (flag, values) =>
          if flag.arity = .several then
            readArguments form given (some (flag, values ++ [text])) rest
          else do readArguments form (← given.give flag [text]) none rest
      | .plain text, none =>
          if form.commands.contains text then .ok (given, some (text, rest))
          else do readArguments form (← given.addOperand form text) none rest

def Form.read (form : Form) (arguments : List String) :
    Except Stop (Given × Option (String × List String)) :=
  readArguments form {} none arguments

end NodeWeave.CommandLine
