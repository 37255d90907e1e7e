import NodeWeave.Fault
import NodeWeave.Json.Basic
import NodeWeave.Scope.Switches
import NodeWeave.Settings.FileSpec
import NodeWeave.Grammar.NodeOptions

/-!
Settings: what a chain of option files says. The files of a chain are given from the most to the
least important, and every file is completed by the ones after it.
-/

namespace NodeWeave

structure Settings where
  nodePrefix : Option String := none
  nodePackage : Option String := none
  /-- The type hierarchy as it is written. -/
  hierarchy : Option Yaml := none
  /-- How parsers are generated: switches, and the files that support them. -/
  generation : Option Yaml.Entries := none
  /-- What all templates can refer to. -/
  context : Option Yaml.Entries := none
  visitors : Index FileSpec := []
  /-- The files generated for every node. -/
  nodeFiles : Option (List FileSpec) := none
  deriving Repr, Inhabited

namespace Settings

/-- Completes specifications by those of a less important file. -/
def completeVisitors (visitors parent : Index FileSpec) : Index FileSpec :=
  visitors.foldl (fun merged (name, spec) =>
    let completed :=
      match merged.lookup name with
      | some inherited => spec.complete inherited
      | none => spec
    Index.insert name completed merged) parent

/-- Completes the settings by less important ones. The hierarchy and the files of nodes are taken
whole. -/
def complete (s parent : Settings) : Settings :=
  { nodePrefix := s.nodePrefix <|> parent.nodePrefix
    nodePackage := s.nodePackage <|> parent.nodePackage
    hierarchy := s.hierarchy <|> parent.hierarchy
    generation := Yaml.merge? s.generation parent.generation
    context := Yaml.merge? s.context parent.context
    visitors := completeVisitors s.visitors parent.visitors
    nodeFiles := s.nodeFiles <|> parent.nodeFiles }

def ofChain (chain : List Settings) : Settings :=
  chain.foldr complete {}

@[simp] theorem ofChain_nil : ofChain [] = {} := rfl

@[simp] theorem ofChain_cons (s : Settings) (chain : List Settings) :
    ofChain (s :: chain) = s.complete (ofChain chain) := rfl

/-! ### Views -/

def switchNames : List String :=
  ["dontCloseBeforeLastParserAction", "fixJjtThisConditionScope", "setTokensBeforeHooks",
    "descriptiveVariableNames", "implementNodeConstants"]

def switchEntries (switches : Switches) : Yaml.Entries :=
  (switchNames.zip [switches.closesAfterLastAction, switches.resolvesInCondition,
    switches.tokensBeforeHooks, switches.descriptiveNames, switches.implementsConstants]).map
    fun (name, value) => (.text name, .bool value)

/-- Reads switches from the fields of a map. Those that are missing have their defaults. -/
def switchesOf (fields : List (String × Yaml)) : Except Yaml.Problem Switches := do
  let switch := fun (name : String) (default : Bool) =>
    match fields.lookup name with
    | some value => Yaml.toBool value
    | none => .ok default
  let base : Switches := {}
  return {
    closesAfterLastAction :=
      ← switch "dontCloseBeforeLastParserAction" base.closesAfterLastAction
    resolvesInCondition := ← switch "fixJjtThisConditionScope" base.resolvesInCondition
    tokensBeforeHooks := ← switch "setTokensBeforeHooks" base.tokensBeforeHooks
    descriptiveNames := ← switch "descriptiveVariableNames" base.descriptiveNames
    implementsConstants := ← switch "implementNodeConstants" base.implementsConstants }

/-- The switches, which the settings may set otherwise than the base. The file names where the
settings come from. -/
def switches (s : Settings) (base : Switches) (file : String) : Except Fault Switches :=
  match s.generation with
  | none => .ok base
  | some overrides =>
      let read : Except Yaml.Problem Switches := do
        switchesOf (← Yaml.toFields (.map (Yaml.merge overrides (switchEntries base))))
      match read with
      | .ok switches => .ok switches
      | .error problem => .error (.config file ("invalid javaccGen: " ++ problem.message))

def describedSupport (s : Settings) (file : String) : Except Fault (Index FileSpec) :=
  match s.generation.bind (Yaml.find? (.text "supportFiles")) with
  | none | some .null => .ok []
  | some value =>
      let read : Except Yaml.Problem (List (String × FileSpec)) := do
        let fields ← Yaml.toFields value
        fields.mapM fun (name, value) => return (name, ← FileSpec.ofYaml value)
      match read with
      | .ok specs => .ok (Index.ofList specs)
      | .error problem =>
          .error (.config file ("invalid javaccGen.supportFiles: " ++ problem.message))

/-- The support files: the built-in ones, as far as the settings do not say otherwise, and those
that the settings add. -/
def supportFiles (s : Settings) (builtin : Index FileSpec) (file : String) :
    Except Fault (Index FileSpec) := do
  let described ← s.describedSupport file
  return (completeVisitors described builtin).filter (·.2.isEnabled)

def nodeOptions (s : Settings) (g : Grammar) : Grammar.NodeOptions :=
  (Grammar.NodeOptions.ofGrammar g).withOverrides s.nodePrefix s.nodePackage

/-! ### Values of JSON -/

def fieldName? : Yaml → Option String
  | .text s => some s
  | .int n => some (toString n)
  | .bool b => some (if b then "true" else "false")
  | .float x =>
      if x.isNaN || x.isInfinite then none else some (Json.floatStyle.write x)
  | _ => none

mutual
/-- A value of JSON. Numbers that are not finite become null. -/
def toJson? : Yaml → Option Json
  | .null => some .null
  | .bool b => some (.bool b)
  | .int n => some (.int n)
  | .float x => some (if x.isNaN || x.isInfinite then .null else .float x)
  | .text s => some (.text s)
  | .list items => (itemsToJson? items).map .list
  | .map entries => (fieldsToJson? entries).map Json.ofFields
  | .tagged tag value => (toJson? value).map fun j => Json.ofFields [(tag, j)]

def itemsToJson? : List Yaml → Option (List Json)
  | [] => some []
  | item :: rest => do return (← toJson? item) :: (← itemsToJson? rest)

def fieldsToJson? : List (Yaml × Yaml) → Option (List (String × Json))
  | [] => some []
  | (key, value) :: rest => do
      return (← fieldName? key, ← toJson? value) :: (← fieldsToJson? rest)
end

/-- What all templates can refer to. Keys that no field can have make it empty. -/
def contextJson (s : Settings) : Json :=
  ((s.context.bind fieldsToJson?).map Json.ofFields).getD (.object [])

end Settings

end NodeWeave
