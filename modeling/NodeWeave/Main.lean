import NodeWeave.CommandLine.Run

/-!
The program: it answers the requests of a command from the file system, prints what the command
comes to, and ends with its status. Requests to run tools are refused.
-/

namespace NodeWeave.CommandLine

def fileProblem : IO.Error → FileProblem
  | .noFileOrDirectory .. => .notFound
  | .permissionDenied .. => .denied
  | .alreadyExists .. => .alreadyThere
  | .inappropriateType _ 21 _ => .isADirectory
  | .inappropriateType .. => .notADirectory
  | .userError _ => .notText
  | problem => .other problem.toString

def attempt {α : Type} (action : IO α) : IO (Except FileProblem α) := do
  try return .ok (← action)
  catch problem => return .error (fileProblem problem)

def kindAt (path : String) : IO (Option FileKind) := do
  match ← attempt (System.mkFilePath [path]).metadata with
  | .error _ => return none
  | .ok found => return some (match found.type with
      | .dir => .directory
      | _ => .file)

def refusal : FileProblem :=
  .other "programs are not started"

def perform {α : Type} : Work α → IO (α × List Report)
  | .done value => return (value, [])
  | .tell reports next => do
      let (value, more) ← perform next
      return (value, reports ++ more)
  | .read path next => do perform (next (← attempt (IO.FS.readFile path)))
  | .write path text next => do perform (next (← attempt (IO.FS.writeFile path text)))
  | .makeDirectories path next => do perform (next (← attempt (IO.FS.createDirAll path)))
  | .inspect path next => do perform (next (← kindAt path))
  | .runTool _ _ next => perform (next (.error refusal))

def Finished.print (finished : Finished) : IO Unit := do
  IO.print finished.output
  for line in finished.printed do
    IO.eprintln line
  match finished.fault with
  | none => return
  | some fault =>
      IO.eprintln (fault.code ++ ": " ++ fault.message)
      for help in fault.help do
        IO.eprintln ("help: " ++ help)

end NodeWeave.CommandLine

open NodeWeave.CommandLine in
def main (arguments : List String) : IO UInt32 := do
  match Invocation.ofArguments arguments with
  | .error stop =>
      if stop = .malformed then IO.eprint helpText else IO.print stop.text
      return stop.status.toUInt32
  | .ok invocation =>
      let (outcome, reports) ← perform invocation.work
      let finished := invocation.finish outcome reports
      finished.print
      return finished.status.toUInt32
