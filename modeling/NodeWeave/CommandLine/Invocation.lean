import NodeWeave.CommandLine.Flag
import NodeWeave.Report.Basic
import NodeWeave.Scope.Switches

/-! What a command line asks for. -/

namespace NodeWeave.CommandLine

structure Shared where
  /-- Option files, the most important one first. Without any, the one beside the grammar counts. -/
  chain : List String := []
  /-- Every report is printed, not only progress and errors. -/
  printsAll : Bool := false
  least : Severity := .warning
  deriving DecidableEq, Repr

inductive Command where
  /-- Prints or writes the woven grammar. -/
  | weave (grammar : String) (output : Option String) (base : Switches) (showsChanges : Bool)
  /-- Prints the tree of classes. -/
  | hierarchy (grammar : String)
  /-- Runs tasks. -/
  | generate (grammar : String) (tasks : List String) (output : String)
      (sourceRoots : List String) (base : Switches) (compiler : String)
  deriving DecidableEq, Repr

structure Invocation where
  shared : Shared
  command : Command
  deriving DecidableEq, Repr

/-! ### Flags -/

def isPath (text : String) : Bool :=
  text != ""

def base? : String → Option Switches
  | "default" => some {}
  | "full" => some .full
  | _ => none

def helpFlag : Flag := { name := "help", letter := 'h', stop := some .help }

def sharedFlags : List Flag :=
  [{ name := "config", letter := 'c', arity := .one, repeats := true, accepts := isPath },
    { name := "warn" },
    { name := "min-severity", arity := .one,
      accepts := fun name => (Severity.ofName? name).isSome },
    helpFlag]

def baseFlag : Flag :=
  { name := "compat", arity := .one, accepts := fun name => (base? name).isSome }

def outputFlag : Flag :=
  { name := "output", letter := 'o', arity := .one, accepts := isPath }

def commandFlags : String → List Flag
  | "weave" => [outputFlag, baseFlag, { name := "diff" }]
  | "gen" =>
      [{ name := "tasks", letter := 't', arity := .several, repeats := true }, outputFlag,
        { name := "source-root", arity := .one, repeats := true, accepts := isPath }, baseFlag,
        { name := "sequential" }, { name := "javacc", arity := .one, accepts := isPath }]
  | _ => []

def commandNames : List String :=
  ["weave", "hierarchy", "gen"]

def outerForm : Form where
  flags := { name := "version", letter := 'V', stop := some .version } :: sharedFlags
  commands := "help" :: commandNames

def commandForm (name : String) : Form where
  flags := commandFlags name ++ sharedFlags
  operands := 1

/-! ### Invocations -/

/-- The flags of all commands. What stands behind the command counts more. -/
def Shared.ofGiven (outer inner : Given) : Shared :=
  let values := fun name => if inner.has name then inner.values name else outer.values name
  { chain := values "config"
    printsAll := inner.has "warn" || outer.has "warn"
    least := ((values "min-severity").head?.bind Severity.ofName?).getD .warning }

def Command.ofGiven (name grammar : String) (given : Given) : Command :=
  let one := fun name => (given.values name).head?
  let base := ((one "compat").bind base?).getD {}
  match name with
  | "weave" => .weave grammar (one "output") base (given.has "diff")
  | "gen" =>
      .generate grammar (if given.has "tasks" then given.values "tasks" else ["gen:*"])
        ((one "output").getD "target/generated-sources/jjtx") (given.values "source-root") base
        ((one "javacc").getD "javacc")
  | _ => .hierarchy grammar

def asksForHelp : List String → Bool
  | [] => true
  | [name] => name ∈ "help" :: commandNames
  | [first, name] => first = "help" ∧ name ∈ "help" :: commandNames
  | _ => false

/-- What a command line asks for, unless it is malformed or asks for a text only. -/
def Invocation.ofArguments (arguments : List String) : Except Stop Invocation := do
  match ← outerForm.read arguments with
  | (_, none) => throw .malformed
  | (_, some ("help", rest)) => throw (if asksForHelp rest then .help else .malformed)
  | (outer, some (name, rest)) =>
      let (inner, _) ← (commandForm name).read rest
      match inner.operands with
      | [grammar] =>
          return { shared := .ofGiven outer inner, command := .ofGiven name grammar inner }
      | _ => throw .malformed

end NodeWeave.CommandLine
