import NodeWeave.Project.Jobs
import NodeWeave.Settings.Printer
import NodeWeave.Task.Basic

/-!
Running tasks one after the other. A task that fails is reported; the tasks that depend on it are
skipped, and all others still run. The type hierarchy is resolved once, when a task first needs it.
-/

namespace NodeWeave

structure RunState where
  count : GenerationCount := {}
  /-- The tasks that failed or were skipped, in order. -/
  failed : List Task := []
  /-- The settings as an option file, once they were asked for. -/
  dump : Option String := none
  /-- What templates see of the grammar, once it was needed. -/
  view : Option Json := none

namespace RunState

def succeeded (state : RunState) : Bool :=
  state.failed.isEmpty && state.count.failed == 0

def blocks (state : RunState) (task : Task) : Bool :=
  task.dependencies.any state.failed.contains

def addCount (state : RunState) (count : GenerationCount) : RunState :=
  { state with count := state.count.add count }

end RunState

namespace Project

/-- What templates see of the grammar. It is remembered. -/
def needView (p : Project) (state : RunState) : Work (RunState × Json) :=
  match state.view with
  | some view => return (state, view)
  | none => do
      let view ← Work.ofReported p.view
      return ({ state with view := some view }, view)

def writeWoven (p : Project) : Work (Except Fault Unit) := do
  match ← Work.writeWithParents p.wovenPath p.woven with
  | .error fault => return .error fault
  | .ok () =>
      Work.report [.normal ("Woven grammar written to " ++ p.wovenPath)]
      return .ok ()

def generateNodes (p : Project) (view : Json) : Work GenerationCount := do
  match p.settings.nodeFiles.getD [] with
  | [] =>
      Work.report [.debug "No node templates configured"]
      return {}
  | specs =>
      let jobs ← Work.ofReported (p.allNodeJobs view 0 specs)
      Generation.runAll p.place jobs

def generateVisitors (p : Project) (view : Json) : Work GenerationCount := do
  let visitors ← Work.ofReported (enabledVisitors p.settings.visitors)
  let jobs ← Work.ofReported (p.fileJobs view "visitor" visitors)
  Generation.runAll p.place jobs

def generateSupport (p : Project) (view : Json) : Work (Except Fault GenerationCount) := do
  match p.settings.supportFiles Template.Support.files p.grammarPath with
  | .error fault => return .error fault
  | .ok files =>
      let jobs ← Work.ofReported (p.fileJobs view "support file" files)
      return .ok (← Generation.runAll p.place jobs)

def perform (p : Project) (task : Task) (state : RunState) :
    Work (RunState × Except Fault Unit) := do
  match task with
  | .settings => return ({ state with dump := some p.settings.write }, .ok ())
  | .grammar => return (state, ← p.writeWoven)
  | .support =>
      let (state, view) ← p.needView state
      match ← p.generateSupport view with
      | .ok count => return (state.addCount count, .ok ())
      | .error fault => return (state, .error fault)
  | .nodes =>
      let (state, view) ← p.needView state
      return (state.addCount (← p.generateNodes view), .ok ())
  | .visitors =>
      let (state, view) ← p.needView state
      return (state.addCount (← p.generateVisitors view), .ok ())
  | .parser =>
      let result ← p.compiler.run p.wovenPath p.output p.sourceRoots
      return (state, result.map fun _ => ())

/-- Does one task, or skips it where a task it depends on failed. -/
def step (p : Project) (state : RunState) (task : Task) : Work RunState := do
  if state.blocks task then
    Work.report
      [.nonFatal ("Task " ++ task.name ++ " skipped because a task it depends on failed")]
    return { state with failed := state.failed ++ [task] }
  else
    Work.report [.debug ("Running task " ++ task.name)]
    let (state, result) ← p.perform task state
    match result with
    | .ok () => return state
    | .error fault =>
        Work.report [.ofFault ("Task " ++ task.name ++ " failed") fault]
        return { state with failed := state.failed ++ [task] }

def runFrom (p : Project) : RunState → List Task → Work RunState
  | state, [] => return state
  | state, task :: rest => do runFrom p (← p.step state task) rest

def run (p : Project) (tasks : List Task) : Work RunState :=
  p.runFrom {} tasks

end Project

end NodeWeave
