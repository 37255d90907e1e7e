import NodeWeave.Project.Basic

/-! The classes that the settings of a project ask for. -/

namespace NodeWeave.Project

def localContext (spec : FileSpec) : Json :=
  ((spec.context.bind Settings.fieldsToJson?).map Json.ofFields).getD (.object [])

/-- The values for the template of one class. The subject is a node or the name of a file. -/
def jobContext (p : Project) (view : Json) (subject : String × Json) (spec : FileSpec) : Json :=
  .ofFields
    [("grammar", view), ("global", p.settings.contextJson), subject,
      ("context", localContext spec)]

/-- The template of class names for nodes, where none is given. -/
def nodeClassName : String :=
  "\x7b\x7bnode.class.qualifiedName\x7d\x7d"

def nodesOf (view : Json) : List Json :=
  match view.field? "typeHierarchy" with
  | some (.list nodes) => nodes
  | _ => []

def classOf (node : Json) : String :=
  match (node.field? "class").bind (Json.field? "qualifiedName") with
  | some (.text name) => name
  | _ => ""

def nodeJobs (p : Project) (view : Json) (spec : FileSpec) (source : TemplateSource) :
    List ClassJob :=
  (nodesOf view).map fun node =>
    { description := "node " ++ classOf node
      source
      className := spec.className.getD nodeClassName
      context := p.jobContext view ("node", node) spec }

def incomplete (message : String) : Report :=
  .make .incompleteVisitorSpec message

/-- The classes of nodes. Specifications without a template are reported; they are counted from
zero. -/
def allNodeJobs (p : Project) (view : Json) : Nat → List FileSpec → Reported (List ClassJob)
  | _, [] => return []
  | index, spec :: rest =>
      match TemplateSource.ofFields? spec.template spec.templateFile with
      | none => do
          Reported.tell
            [incomplete ("Node template #" ++ toString index ++ " has no template")]
          allNodeJobs p view (index + 1) rest
      | some source => do
          return p.nodeJobs view spec source ++ (← allNodeJobs p view (index + 1) rest)

def capitalized (text : String) : String :=
  match text.toList with
  | [] => ""
  | first :: rest => String.ofList (Text.upperChar first ++ rest)

/-- The classes of files by their names. Incomplete specifications are reported. -/
def fileJobs (p : Project) (view : Json) (kind : String) :
    List (String × FileSpec) → Reported (List ClassJob)
  | [] => return []
  | (id, spec) :: rest =>
      match TemplateSource.ofFields? spec.template spec.templateFile, spec.className with
      | some source, some className => do
          let job : ClassJob :=
            { description := kind ++ " " ++ id, source, className
              context := p.jobContext view ("id", .text id) spec }
          return job :: (← fileJobs p view kind rest)
      | _, _ => do
          Reported.tell
            [incomplete (capitalized kind ++ " " ++ id ++
              " needs a template and a genClassName, it is skipped")]
          fileJobs p view kind rest

/-- The visitors that are not switched off. The others are reported. -/
def enabledVisitors : Index FileSpec → Reported (Index FileSpec)
  | [] => return []
  | (id, spec) :: rest =>
      if spec.isEnabled then do return (id, spec) :: (← enabledVisitors rest)
      else do
        Reported.tell [.debug ("Visitor " ++ id ++ " is disabled")]
        enabledVisitors rest

end NodeWeave.Project
