import NodeWeave.Files.Work
import NodeWeave.Settings.Reader

/-! Chains of option files, from the most to the least important one. -/

namespace NodeWeave.Settings

/-- How the names of option files end that stand beside a grammar. The first one found counts. -/
def fileEndings : List String :=
  ["jjtopts.yaml", "jjtopts.yml", "jjtopts.json"]

def defaultChain (grammar : String) : Work (List String) :=
  match Path.stem? grammar with
  | none => return []
  | some stem => do
      let directory := (Path.parent? grammar).getD ""
      let candidates := fileEndings.map fun ending => Path.join directory (stem ++ "." ++ ending)
      return (← Work.findFirst? Work.isFile candidates).toList

def loadFile (path : String) : Work (Except Fault Settings) := do
  return (← Work.readFile path).bind (Settings.read path)

/-- The settings of files that are loaded one after the other, completed on the way. -/
def loadOnto : List String → Settings → Work (Except Fault Settings)
  | [], settings => return .ok settings
  | path :: rest, settings => do
      match ← loadFile path with
      | .error fault => return .error fault
      | .ok first => loadOnto rest (first.complete settings)

/-- The settings of a chain. The least important file is read first. -/
def loadChain (chain : List String) : Work (Except Fault Settings) :=
  loadOnto chain.reverse {}

end NodeWeave.Settings
