import NodeWeave.CommandLine.Invocation
import NodeWeave.Hierarchy.View
import NodeWeave.Project.Run
import NodeWeave.Report.Collector
import NodeWeave.Text.Changes

/-!
Running commands. A run fails if a fault ends it or if an error was reported; what is printed of the
reports is decided by the flags.
-/

namespace NodeWeave.CommandLine

/-- What a command comes to, beside its reports. -/
structure Outcome where
  output : String := ""
  fault : Option Fault := none
  deriving DecidableEq, Repr

namespace Shared

def chainFor (shared : Shared) (grammar : String) : Work (List String) :=
  if shared.chain.isEmpty then Settings.defaultChain grammar else return shared.chain

def load (shared : Shared) (grammar : String) (base : Switches) (output : String) :
    Work (Except Fault Project) := do
  Project.loadWith (← shared.chainFor grammar) grammar base output

def collector (shared : Shared) : Collector where
  kind := .printing (if shared.printsAll then .full else .aggregate)
  least := shared.least

end Shared

namespace Command

def runWeave (shared : Shared) (grammar : String) (output : Option String) (base : Switches)
    (showsChanges : Bool) : Work Outcome := do
  match ← shared.load grammar base "." with
  | .error fault => return { fault := some fault }
  | .ok project =>
      let shown := if showsChanges then Text.changes project.text project.woven else ""
      match output with
      | none => return { output := if showsChanges then shown else project.woven }
      | some path =>
          match ← Work.writeFile path project.woven with
          | .ok () => return { output := shown }
          | .error fault => return { output := shown, fault := some fault }

def runHierarchy (shared : Shared) (grammar : String) : Work Outcome := do
  match ← shared.load grammar {} "." with
  | .error fault => return { fault := some fault }
  | .ok project => return { output := (← Work.ofReported project.tree).render }

/-- Runs tasks of a project. The settings are printed if a task asks for them. -/
def runTasks (shared : Shared) (project : Project) (tasks : List Task) : Work Outcome := do
  let state ← project.run tasks
  let output ←
    match state.dump with
    | none => pure ""
    | some dump =>
        pure (Settings.annotated dump (← shared.chainFor project.grammarPath) project.grammarPath)
  unless state.failed.isEmpty do
    Work.report [.normal ("Failed tasks: " ++ Text.join ", " (state.failed.map Task.name))]
  return { output }

def runGenerate (shared : Shared) (grammar : String) (names : List String) (output : String)
    (sourceRoots : List String) (base : Switches) (compiler : String) : Work Outcome := do
  match Task.plan names with
  | .error problem => return { fault := some problem.fault }
  | .ok tasks =>
      match ← shared.load grammar base output with
      | .error fault => return { fault := some fault }
      | .ok project =>
          runTasks shared { project with sourceRoots, compiler := .ofProgram compiler } tasks

def work (shared : Shared) : Command → Work Outcome
  | weave grammar output base showsChanges => runWeave shared grammar output base showsChanges
  | hierarchy grammar => runHierarchy shared grammar
  | generate grammar tasks output sourceRoots base compiler =>
      runGenerate shared grammar tasks output sourceRoots base compiler

end Command

def Invocation.work (invocation : Invocation) : Work Outcome :=
  invocation.command.work invocation.shared

structure Finished where
  /-- Zero for a run without errors. -/
  status : Nat
  output : String
  /-- What is printed of the reports. -/
  printed : List String
  fault : Option Fault
  deriving DecidableEq, Repr

/-- The status of a run that ends with a fault or not, and after these reports. -/
def exitStatus (fault : Option Fault) (collector : Collector) : Nat :=
  if fault.isSome || collector.max.isError then 1 else 0

def Invocation.finish (invocation : Invocation) (outcome : Outcome) (reports : List Report) :
    Finished :=
  let collector := (invocation.shared.collector.takeAll reports).conclude
  { status := exitStatus outcome.fault collector
    output := outcome.output
    printed := collector.printed
    fault := outcome.fault }

/-! ### Texts -/

def versionText : String :=
  "jjtx 0.1.0\n"

def helpText : String :=
  "Weaves JJTree node scopes into JavaCC grammars and generates node classes.

Usage: jjtx [OPTIONS] <COMMAND>

Commands:
  weave      Weave node scopes into a grammar and print or write the result
  hierarchy  Resolve and print the node type hierarchy
  gen        Run generation tasks
  help       Print this message

Options:
  -c, --config <CONFIG>              Option files, highest precedence first
      --warn                         Print every diagnostic instead of a summary
      --min-severity <MIN_SEVERITY>  Lowest severity shown [default: warning]
  -h, --help                         Print help
  -V, --version                      Print version
"

def Stop.text : Stop → String
  | malformed => ""
  | help => helpText
  | version => versionText

def Stop.status : Stop → Nat
  | malformed => 2
  | help | version => 0

end NodeWeave.CommandLine
