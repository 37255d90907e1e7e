import NodeWeave.Files.Work
import NodeWeave.Text.Blank

/-!
Parser generators are outside tools. What one produces is shared out: a file that stands in one of
the other source roots stays there, a file that the output has is kept, and all others are copied.
-/

namespace NodeWeave

/-- What turns a woven grammar into source files, which are given in the order of a walk. -/
structure Compiler where
  name : String
  compile : (grammar : String) → Work (Except Fault (List (Route × String)))

namespace Compiler

/-- What a tool said before it failed: what it wrote as errors, then what it wrote as output. -/
def details (run : ToolRun) : String :=
  Text.join "\n" ([Text.trim run.errors, Text.trim run.output].filter fun text => text != "")

def failure (program : String) (run : ToolRun) : Fault :=
  let fault : Fault := { cause := .toolExit program run.status, phase := "javacc" }
  let details := details run
  if details.isEmpty then fault else fault.withHelp details

/-- What the run of a tool produced, unless it failed. -/
def ofRun (program : String) : Except FileProblem ToolRun → Except Fault (List (Route × String))
  | .error problem =>
      .error { cause := .toolNotRun program problem.message, phase := "javacc" }
  | .ok run => if run.status = some 0 then .ok run.produced else .error (failure program run)

def ofProgram (program : String) : Compiler where
  name := "javacc"
  compile grammar := .runTool program grammar fun answer => .done (ofRun program answer)

/-- What became of produced files, by their paths in the output. -/
structure Shares where
  copied : List String := []
  /-- Left out since another source root has them. -/
  shadowed : List String := []
  /-- Left out since the output has them. -/
  kept : List String := []
  deriving DecidableEq, Repr

def isSource (route : Route) : Bool :=
  Path.extension? (route.getLast?.getD "") == some "java"

def shareAll (output : String) (sourceRoots : List String) :
    List (Route × String) → Work (Except Fault Shares)
  | [] => return .ok {}
  | (route, text) :: rest => do
      let relative := Text.join "/" route
      let inRoot := fun root => Work.isFile (Path.join root relative)
      match ← Work.findFirst? inRoot sourceRoots with
      | some root =>
          Work.report
            [.make .classNotGenerated
              (relative ++ " was not copied because it exists in " ++ root)]
          return (← shareAll output sourceRoots rest).map fun shares =>
            { shares with shadowed := relative :: shares.shadowed }
      | none =>
          let target := Path.join output relative
          if ← Work.isThere target then
            Work.report [.debug (target ++ " already exists, not overwritten")]
            return (← shareAll output sourceRoots rest).map fun shares =>
              { shares with kept := relative :: shares.kept }
          else
            match ← Work.writeWithParents target text with
            | .error fault => return .error fault
            | .ok () =>
                return (← shareAll output sourceRoots rest).map fun shares =>
                  { shares with copied := relative :: shares.copied }

def run (compiler : Compiler) (grammar output : String) (sourceRoots : List String) :
    Work (Except Fault Shares) := do
  match ← compiler.compile grammar with
  | .error fault => return .error fault
  | .ok produced =>
      match ← shareAll output sourceRoots (produced.filter fun (route, _) => isSource route) with
      | .error fault => return .error fault
      | .ok shares =>
          Work.report
            [.normal (compiler.name ++ " produced " ++ toString shares.copied.length ++
              " files in " ++ output)]
          return .ok shares

end Compiler

end NodeWeave
