import NodeWeave.Files.Basic
import NodeWeave.Report.Basic

/-!
Work that uses files and tools and makes reports. It is a tree of requests: each carries what is
done with every answer. A run gives the answers, here from files that are given as a value.
-/

namespace NodeWeave

inductive FileKind where
  | file
  | directory
  deriving DecidableEq, Repr

structure ToolRun where
  /-- Without a status, a signal ended the tool. -/
  status : Option Int
  output : String
  errors : String
  /-- The files in the directory that was made for the tool, in the order of a walk. -/
  produced : List (Route × String)
  deriving Repr

inductive Work (α : Type) where
  | done (value : α)
  | tell (reports : List Report) (next : Work α)
  | read (path : String) (next : Except FileProblem String → Work α)
  | write (path text : String) (next : Except FileProblem Unit → Work α)
  /-- Makes a directory and those around it. -/
  | makeDirectories (path : String) (next : Except FileProblem Unit → Work α)
  | inspect (path : String) (next : Option FileKind → Work α)
  /-- Runs a tool on a grammar, with a new directory to write to. -/
  | runTool (program grammar : String) (next : Except FileProblem ToolRun → Work α)

abbrev Toolbox := (program grammar : String) → Files → Files × Except FileProblem ToolRun

def Toolbox.nothing : Toolbox :=
  fun _ _ files => (files, .error .notFound)

namespace Work

variable {α β : Type}

protected def bind : Work α → (α → Work β) → Work β
  | done value, f => f value
  | tell reports next, f => tell reports (next.bind f)
  | read path next, f => read path fun answer => (next answer).bind f
  | write path text next, f => write path text fun answer => (next answer).bind f
  | makeDirectories path next, f => makeDirectories path fun answer => (next answer).bind f
  | inspect path next, f => inspect path fun answer => (next answer).bind f
  | runTool program grammar next, f => runTool program grammar fun answer => (next answer).bind f

instance : Monad Work where
  pure := done
  bind := Work.bind

/-- The value of work with the files and the reports that it leaves. -/
structure Ran (α : Type) where
  value : α
  files : Files
  reports : List Report

def kindOf : FileEntry → FileKind
  | .file .. => .file
  | .directory => .directory

def run (tools : Toolbox) : Work α → Files → Ran α
  | done value, files => ⟨value, files, []⟩
  | tell reports next, files =>
      let ran := next.run tools files
      { ran with reports := reports ++ ran.reports }
  | read path next, files => (next (files.read path)).run tools files
  | write path text next, files =>
      match files.write path text with
      | .ok files => (next (.ok ())).run tools files
      | .error problem => (next (.error problem)).run tools files
  | makeDirectories path next, files =>
      let (files, result) := files.makeDirectories path
      (next result).run tools files
  | inspect path next, files => (next ((files.find? path).map kindOf)).run tools files
  | runTool program grammar next, files =>
      let (files, result) := tools program grammar files
      (next result).run tools files

/-! ### Single requests -/

def report (reports : List Report) : Work Unit :=
  tell reports (done ())

def ofReported (result : Reported α) : Work α :=
  tell result.reports (done result.value)

def isFile (path : String) : Work Bool :=
  inspect path fun kind => done (kind == some .file)

def isThere (path : String) : Work Bool :=
  inspect path fun kind => done kind.isSome

def readFile (path : String) : Work (Except Fault String) :=
  read path fun
    | .ok text => done (.ok text)
    | .error problem => done (.error (.io path problem.message))

def writeFile (path text : String) : Work (Except Fault Unit) :=
  write path text fun
    | .ok () => done (.ok ())
    | .error problem => done (.error (.io path problem.message))

def makeParents (path : String) : Work (Except Fault Unit) :=
  match Path.parent? path with
  | none => done (.ok ())
  | some parent =>
      makeDirectories parent fun
        | .ok () => done (.ok ())
        | .error problem => done (.error (.io parent problem.message))

def writeWithParents (path text : String) : Work (Except Fault Unit) := do
  match ← makeParents path with
  | .error fault => return .error fault
  | .ok () => writeFile path text

def findFirst? (condition : String → Work Bool) : List String → Work (Option String)
  | [] => return none
  | path :: rest => do
      if ← condition path then return some path
      else findFirst? condition rest

/-! ### Laws of runs -/

@[simp] theorem pure_eq (value : α) : (pure value : Work α) = done value := rfl

@[simp] theorem bind_eq (work : Work α) (f : α → Work β) : (work >>= f) = work.bind f := rfl

@[simp] theorem run_done (tools : Toolbox) (value : α) (files : Files) :
    (done value).run tools files = ⟨value, files, []⟩ := rfl

/-- Running one work after the other is running the second on what the first leaves. -/
theorem run_bind (tools : Toolbox) (work : Work α) (f : α → Work β) (files : Files) :
    (work.bind f).run tools files =
      (let first := work.run tools files
       let second := (f first.value).run tools first.files
       ⟨second.value, second.files, first.reports ++ second.reports⟩) := by
  induction work generalizing files with
  | done value => rfl
  | tell reports next ih => simp [Work.bind, run, ih]
  | read path next ih => simp [Work.bind, run, ih]
  | write path text next ih =>
      simp only [Work.bind, run]
      split <;> simp [ih]
  | makeDirectories path next ih => simp [Work.bind, run, ih]
  | inspect path next ih => simp [Work.bind, run, ih]
  | runTool program grammar next ih => simp [Work.bind, run, ih]

end Work

end NodeWeave
