import NodeWeave.Files.Work

/-! Where the text of a template comes from. -/

namespace NodeWeave

inductive TemplateSource where
  | inline (text : String)
  /-- A file, by a path relative to the directory of the grammar. -/
  | file (path : String)
  deriving DecidableEq, Repr

namespace TemplateSource

def ofFields? (template templateFile : Option String) : Option TemplateSource :=
  match template, templateFile with
  | some text, _ => some (inline text)
  | none, some path => some (file path)
  | none, none => none

def load (directory : String) : TemplateSource → Work (Except Fault String)
  | inline text => .done (.ok text)
  | file path => Work.readFile (Path.join directory path)

def description : TemplateSource → String
  | inline _ => "<inline template>"
  | file path => path

end TemplateSource

end NodeWeave
