import NodeWeave.Generation.ClassName
import NodeWeave.Generation.Source
import NodeWeave.Hierarchy.View
import NodeWeave.Template.Render

/-!
Generating classes from templates. A class that stands in one of the other source roots is not
generated. A class that cannot be generated does not keep the others from it.
-/

namespace NodeWeave

structure GenerationPlace where
  output : String
  /-- Where classes may stand that are written by hand. -/
  sourceRoots : List String
  /-- Where paths of template files start. -/
  templates : String
  deriving DecidableEq, Repr

structure ClassJob where
  description : String
  source : TemplateSource
  /-- The template of the qualified name of the class. -/
  className : String
  context : Json
  deriving Repr

structure ClassResult where
  /-- False where the class stands in another source root. -/
  isGenerated : Bool
  name : String
  path : String
  deriving DecidableEq, Repr

/-- How many classes were generated, left to other source roots, and not generated because of a
fault. -/
structure GenerationCount where
  generated : Nat := 0
  aborted : Nat := 0
  failed : Nat := 0
  deriving DecidableEq, Repr

namespace GenerationCount

def add (a b : GenerationCount) : GenerationCount where
  generated := a.generated + b.generated
  aborted := a.aborted + b.aborted
  failed := a.failed + b.failed

def total (count : GenerationCount) : Nat :=
  count.generated + count.aborted + count.failed

def ofResults (results : List (Except Fault ClassResult)) : GenerationCount where
  generated := results.countP fun
    | .ok result => result.isGenerated
    | .error _ => false
  aborted := results.countP fun
    | .ok result => !result.isGenerated
    | .error _ => false
  failed := results.countP fun
    | .ok _ => false
    | .error _ => true

theorem total_ofResults (results : List (Except Fault ClassResult)) :
    (ofResults results).total = results.length := by
  induction results with
  | nil => rfl
  | cons result rest ih =>
      simp only [total, ofResults] at ih
      cases result with
      | error fault =>
          simp only [total, ofResults, List.countP_cons, List.length_cons]
          simp
          omega
      | ok result =>
          obtain ⟨isGenerated, name, path⟩ := result
          simp only [total, ofResults, List.countP_cons, List.length_cons]
          cases isGenerated <;> simp <;> omega

end GenerationCount

namespace ClassJob

def name (job : ClassJob) : Except Fault String :=
  match Template.render job.className job.context with
  | .error problem => .error (Template.fault job.className problem)
  | .ok rendered =>
      let name := ClassName.clean rendered
      if ClassName.isQualified name then .ok name
      else
        .error
          { cause := .template job.className ("'" ++ name ++ "' is not a qualified class name")
            phase := "template" }

/-- The values for the template: those of the job, and the name of the class. -/
def values (job : ClassJob) (name : String) : Json :=
  let fields :=
    match job.context with
    | .object fields => fields
    | _ => []
  .object
    (Index.insert "qualifiedName" (.text name)
      (Index.insert "simpleName" (.text (JavaName.simple name))
        (Index.insert "package" (.text (JavaName.package name)) fields)))

def body (job : ClassJob) (template name : String) : Except Fault String :=
  match Template.render template (job.values name) with
  | .ok text => .ok text
  | .error problem => .error (Template.fault job.source.description problem)

def generate (job : ClassJob) (place : GenerationPlace) (name : String) :
    Work (Except Fault ClassResult) := do
  match ← job.source.load place.templates with
  | .error fault => return .error fault
  | .ok template =>
      match job.body template name with
      | .error fault => return .error fault
      | .ok text =>
          let path := Path.join place.output (ClassName.sourcePath name)
          match ← Work.writeWithParents path text with
          | .error fault => return .error fault
          | .ok () =>
              Work.report
                [.make .classGenerated ("Generated " ++ name ++ " (" ++ job.description ++ ")")]
              return .ok ⟨true, name, path⟩

/-- Generates the class, unless one of its name stands in another source root. -/
def execute (job : ClassJob) (place : GenerationPlace) : Work (Except Fault ClassResult) := do
  match job.name with
  | .error fault => return .error fault
  | .ok name =>
      let path := ClassName.sourcePath name
      match ← Work.findFirst? (fun root => Work.isFile (Path.join root path)) place.sourceRoots with
      | some root =>
          Work.report
            [.make .classNotGenerated
              ("Class " ++ name ++ " was not generated because it exists in " ++ root)]
          return .ok ⟨false, name, Path.join root path⟩
      | none => job.generate place name

end ClassJob

namespace Generation

def executeAll (place : GenerationPlace) :
    List ClassJob → Work (List (ClassJob × Except Fault ClassResult))
  | [] => return []
  | job :: rest => do
      let result ← job.execute place
      return (job, result) :: (← executeAll place rest)

def failures (results : List (ClassJob × Except Fault ClassResult)) : List Report :=
  results.filterMap fun
    | (job, .error fault) => some (.ofFault ("Could not generate " ++ job.description) fault)
    | (_, .ok _) => none

def summary (place : GenerationPlace) (count : GenerationCount) : List Report :=
  (if count.generated = 0 then []
    else [.normal ("Generated " ++ toString count.generated ++ " classes in " ++ place.output)]) ++
  (if count.aborted = 0 then []
    else [.normal (toString count.aborted ++
      " classes were not generated because found in other source roots")]) ++
  if count.failed = 0 then []
  else [.normal (toString count.failed ++ " classes were not generated because of an error")]

def runAll (place : GenerationPlace) (jobs : List ClassJob) : Work GenerationCount := do
  let results ← executeAll place jobs
  let count := GenerationCount.ofResults (results.map (·.2))
  Work.report (failures results ++ summary place count)
  return count

end Generation

end NodeWeave
