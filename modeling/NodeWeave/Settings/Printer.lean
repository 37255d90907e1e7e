import NodeWeave.Settings.Basic
import NodeWeave.Yaml.Printer

/-! Writing settings as an option file. What is not given is left out. -/

namespace NodeWeave.Settings

def toYaml (s : Settings) : Yaml :=
  let field := fun (name : String) (value : Option Yaml) =>
    (value.map fun v => (Yaml.text name, v)).toList
  let visitors := s.visitors.map fun (name, spec) => (Yaml.text name, spec.toYaml)
  let nodeFiles := s.nodeFiles.map fun specs =>
    Yaml.map [(.text "templates", .list (specs.map FileSpec.toYaml))]
  .map (field "nodePrefix" (s.nodePrefix.map .text) ++
    field "nodePackage" (s.nodePackage.map .text) ++ field "typeHierarchy" s.hierarchy ++
    field "javaccGen" (s.generation.map .map) ++ field "templateContext" (s.context.map .map) ++
    (if visitors.isEmpty then [] else [(Yaml.text "visitors", .map visitors)]) ++
    field "nodeGen" nodeFiles)

def write (s : Settings) : String :=
  Yaml.writeMap [(.text "jjtx", s.toYaml)]

/-- The text of an option file with a heading that names the files it comes from. -/
def annotated (text : String) (chain : List String) (grammar : String) : String :=
  "# Fully resolved jjtx configuration\n# Config file chain: " ++
    Text.join " -> " (chain ++ [grammar]) ++ "\n" ++ text

end NodeWeave.Settings
