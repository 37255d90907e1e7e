import NodeWeave.Files.Work
import NodeWeave.Shell.Run

/-!
Tools that are shell scripts among the files. A tool is given a new directory, and whatever it
leaves there is what it produced.
-/

namespace NodeWeave.Shell

def scratch : Route :=
  ["tmp", "nodeweave"]

def scratchPath : String :=
  "/" ++ Text.join "/" scratch

def interpreters : List String :=
  ["/bin/sh", "/bin/bash", "/bin/dash", "/usr/bin/env sh", "/usr/bin/env bash", "/usr/bin/sh",
    "/usr/bin/bash", "/bin/sh -e", "/bin/sh -u", "/bin/sh -eu"]

def script (text : String) : Except FileProblem String :=
  match Text.after? ['#', '!'] text.toList with
  | none => .error .notRunnable
  | some rest =>
      let interpreter := Text.trim (String.ofList (rest.takeWhile (· != '\n')))
      if interpreters.contains interpreter then .ok text else .error .notFound

/-- The script of a program. Programs without a slash in their names are known commands. -/
def programText (files : Files) (program : String) : Except FileProblem String := do
  if !program.toList.contains '/' then
    let known := ["true", "false", "echo", "printf", "cat", "cp", "mkdir", "touch", "test"]
    if known.contains program then return program ++ " \"$1\" \"$2\"" else throw .notFound
  else
    let route ← files.route program
    match files.entryAt? route with
    | none => throw .notFound
    | some .directory => throw .denied
    | some (.file _ false) => throw .denied
    | some (.file text true) => script text

def tool (program grammar : String) (files : Files) : Files × Except FileProblem ToolRun :=
  match programText files program with
  | .error problem => (files, .error problem)
  | .ok text =>
      let prepared := (files.put ["tmp"] .directory).put scratch .directory
      let arguments := [program, "-OUTPUT_DIRECTORY=" ++ scratchPath, grammar]
      let state := runScript text arguments prepared
      (state.files.removeBelow scratch,
        .ok
          { status := state.result.map Int.ofNat
            output := state.output
            errors := state.errors
            produced := Files.inWalkOrder (state.files.textsBelow scratch) })

end NodeWeave.Shell
