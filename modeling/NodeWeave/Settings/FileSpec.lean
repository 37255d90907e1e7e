import NodeWeave.Index
import NodeWeave.Yaml.Reader

/-! What option files say about one generated file. -/

namespace NodeWeave

/-- A template and the class it produces. Whatever is left open may come from elsewhere. -/
structure FileSpec where
  /-- False switches the generation off. -/
  execute : Option Bool := none
  /-- The text of a template, which wins over a file. -/
  template : Option String := none
  templateFile : Option String := none
  /-- The template of the qualified name of the class. -/
  className : Option String := none
  context : Option Yaml.Entries := none
  deriving Repr, Inhabited

namespace FileSpec

def hasTemplate (spec : FileSpec) : Bool :=
  spec.template.isSome || spec.templateFile.isSome

/-- Fills what a specification leaves open from another one. A template and a file of a template
come from the same specification. -/
def complete (spec parent : FileSpec) : FileSpec :=
  let source := if spec.hasTemplate then spec else parent
  { execute := spec.execute <|> parent.execute
    template := source.template
    templateFile := source.templateFile
    className := spec.className <|> parent.className
    context := Yaml.merge? spec.context parent.context }

def isEnabled (spec : FileSpec) : Bool :=
  spec.execute != some false

def fieldNames : List String :=
  ["execute", "template", "templateFile", "genClassName", "context"]

def ofNode (d : Yaml.Document) (depth : Nat) (node : Yaml.Node) : Yaml.Decode FileSpec := do
  let fields ← d.fieldsOf fieldNames node
  let field {α : Type} (name : String) (read : Yaml.Node → Yaml.Decode α) :
      Yaml.Decode (Option α) :=
    match fields.lookup name with
    | some n => d.optional read n
    | none => pure none
  return {
    execute := ← field "execute" d.boolValue
    template := ← field "template" d.textOf
    templateFile := ← field "templateFile" d.textOf
    className := ← field "genClassName" d.textOf
    context := ← field "context" (d.entriesValue (depth - 1)) }

/-- Reads a specification from a value. Null is the empty specification. -/
def ofYaml (value : Yaml) : Except Yaml.Problem FileSpec := do
  let fields ← Yaml.toFields value
  return {
    execute := ← Yaml.optionalField fields "execute" Yaml.toBool
    template := ← Yaml.optionalField fields "template" Yaml.toText
    templateFile := ← Yaml.optionalField fields "templateFile" Yaml.toText
    className := ← Yaml.optionalField fields "genClassName" Yaml.toText
    context := ← Yaml.optionalField fields "context" Yaml.toEntries }

def toYaml (spec : FileSpec) : Yaml :=
  let field := fun (name : String) (value : Option Yaml) =>
    (value.map fun v => (Yaml.text name, v)).toList
  .map (field "execute" (spec.execute.map .bool) ++ field "template" (spec.template.map .text) ++
    field "templateFile" (spec.templateFile.map .text) ++
    field "genClassName" (spec.className.map .text) ++ field "context" (spec.context.map .map))

@[simp] theorem complete_empty (spec : FileSpec) : spec.complete {} = spec := by
  obtain ⟨execute, template, templateFile, className, context⟩ := spec
  cases execute <;> cases template <;> cases templateFile <;> cases className <;>
    simp [complete, hasTemplate]

end FileSpec

end NodeWeave
