import NodeWeave.Proofs.Project.Identification
import NodeWeave.Proofs.Template.Rendering
import NodeWeave.Proofs.Template.Support

/-!
The texts of the built-in support files. Main statement: wherever the templates see the view of a
project they are rendered, and that of the interface gives the constants of the declared nodes and
nothing else.
-/

namespace NodeWeave

/-! ### The interface of constants -/

/-- An interface with constants, and with names that are listed by their values. -/
structure ConstantsInterface where
  package : String
  /-- The name in its comment. -/
  origin : String
  name : String
  constants : List (String × Nat)
  names : List String

namespace ConstantsInterface

def declaration (constant : String × Nat) : String :=
  "  int " ++ constant.1 ++ " = " ++ toString constant.2 ++ ";\n"

def element (name : String) : String :=
  "    \"" ++ name ++ "\",\n"

def text (i : ConstantsInterface) : String :=
  (if i.package = "" then "" else "package " ++ i.package ++ ";") ++
    "\n\n/* Generated by jjtx from " ++ i.origin ++ ". Do not edit. */\npublic interface " ++
    i.name ++ " \x7b\n" ++ String.join (i.constants.map declaration) ++
    "\n  String[] jjtNodeName = \x7b\n" ++ String.join (i.names.map element) ++ "  \x7d;\n\x7d\n"

/-- What is written into the text stays in its place: in the comment, as an identifier, or between
quotes. -/
structure IsSound (i : ConstantsInterface) : Prop where
  origin : '/' ∉ i.origin.toList
  name : Grammar.isIdentifier i.name.toList = true
  constants : ∀ constant ∈ i.constants, Grammar.isIdentifier constant.1.toList = true
  names : ∀ name ∈ i.names, Grammar.isDotted name.toList = true

end ConstantsInterface

namespace Project

open Hierarchy Template

/-- The interface with the constants of the declared nodes, counted from zero. -/
def constantsInterface (p : Project) : ConstantsInterface where
  package := p.options.parserPackage
  origin := p.name
  name := p.options.constantsName
  constants := p.declared.rawNames.zipIdx.map fun (raw, value) => (Grammar.nodeConstant raw, value)
  names := p.declared.rawNames

/-! ### What the templates see -/

theorem exists_entryAt_root (p : Project) :
    ∃ entry, p.tree.value.entryAt? p.tree.value.root = some entry := by
  have reached : p.tree.value.root ∈ p.tree.value.attached := by
    rw [TypeTree.attached, TypeTree.subtree]
    cases p.tree.value.nodes.length <;> simp [TypeTree.below]
  rw [p.isCompact_tree.attached_eq, List.mem_range] at reached
  exact ⟨_, by rw [TypeTree.entryAt?, TypeTree.node?, List.getElem?_eq_getElem reached]; rfl⟩

theorem field?_classView (name : String) :
    (classView name).field? "qualifiedName" = some (.text name) := by
  simp [classView, Json.field?_ofFields, List.lookup_cons]

section

variable {p : Project} {context : Json} (seen : context.field? "grammar" = some p.view.value)

include seen

theorem value?_grammar (path : String) (rest : List String)
    (cut : Text.splitChar '.' path = "grammar" :: rest) :
    value? [context] path = rest.foldlM step? p.view.value :=
  value?_of_cut cut (by decide) (by simp [seen])

theorem value?_stateClass :
    value? [context] "grammar.treeState.qualifiedName" = some (.text p.options.stateClass) := by
  have state : p.view.value.field? "treeState" = some (classView p.options.stateClass) := by
    simp [view_value, grammarView, Json.field?_ofFields, List.lookup_cons]
  rw [value?_grammar seen _ ["treeState", "qualifiedName"] (by decide)]
  simp [step?_of_field? state, step?_of_field? (field?_classView _)]

theorem value?_parserClass :
    value? [context] "grammar.parser.qualifiedName" = some (.text p.options.parserClass) := by
  have parser : p.view.value.field? "parser" = some (classView p.options.parserClass) := by
    simp [view_value, grammarView, Json.field?_ofFields, List.lookup_cons]
  rw [value?_grammar seen _ ["parser", "qualifiedName"] (by decide)]
  simp [step?_of_field? parser, step?_of_field? (field?_classView _)]

theorem exists_value?_root :
    ∃ name, value? [context] "grammar.rootNode.class.qualifiedName" = some (.text name) := by
  obtain ⟨entry, found⟩ := p.exists_entryAt_root
  have same : p.view.value = grammarView p.name p.options p.declared p.tree.value := view_value p
  have root : p.view.value.field? "rootNode" =
      some (TypeTree.referenceView p.options.nodePrefix entry) := by
    simp [same, grammarView, Json.field?_ofFields, List.lookup_cons, found]
  have classIn : (TypeTree.referenceView p.options.nodePrefix entry).field? "class" =
      some (classView entry.name) := by
    simp [TypeTree.referenceView, Json.field?_ofFields]
  rw [value?_grammar seen _ ["rootNode", "class", "qualifiedName"] (by decide)]
  exact ⟨entry.name, by
    simp [step?_of_field? root, step?_of_field? classIn, step?_of_field? (field?_classView _)]⟩

theorem value?_name : value? [context] "grammar.name" = some (.text p.name) := by
  have named : p.view.value.field? "name" = some (.text p.name) := by
    simp [view_value, grammarView, Json.field?_ofFields, List.lookup_cons]
  rw [value?_grammar seen _ ["name"] (by decide)]
  simp [step?_of_field? named]

theorem value?_constants :
    value? [context] "grammar.nodeConstants" = some (.list (constantViews p.declared)) := by
  have listed : p.view.value.field? "nodeConstants" =
      some (.list (constantViews p.declared)) := by
    simp [view_value, grammarView, Json.field?_ofFields]
  rw [value?_grammar seen _ ["nodeConstants"] (by decide)]
  simp [step?_of_field? listed]

end

theorem value?_top {context value : Json} (name : String) (cut : Text.splitChar '.' name = [name])
    (named : name ≠ "this") (found : context.field? name = some value) (scopes : List Json) :
    value? (context :: scopes) name = some value := by
  have first : (context :: scopes).findSome? (Json.field? name) = some value := by simp [found]
  rw [value?_of_cut cut named first]
  rfl

/-! ### Lists of constants -/

def constantView (raw : String) (value : Nat) : Json :=
  .ofFields
    [("name", .text raw), ("constant", .text (Grammar.nodeConstant raw)), ("value", .int value)]

theorem constantViews_eq (d : Declared) : constantViews d =
    d.rawNames.zipIdx.map fun (raw, value) => constantView raw value := rfl

section

variable (raw : String) (value : Nat) (scopes : List Json)

theorem value?_constantView :
    value? (constantView raw value :: scopes) "name" = some (.text raw) ∧
      value? (constantView raw value :: scopes) "constant" =
        some (.text (Grammar.nodeConstant raw)) ∧
      value? (constantView raw value :: scopes) "value" = some (.int value) := by
  refine ⟨value?_top _ (by decide) (by decide) ?_ _,
    value?_top _ (by decide) (by decide) ?_ _,
    value?_top _ (by decide) (by decide) ?_ _⟩
  all_goals simp [constantView, Json.field?_ofFields, List.lookup_cons]

def declarationParts : List Part :=
  [.text "  int ", .value "constant", .text " = ", .value "value", Support.lines [";", ""]]

def elementParts : List Part :=
  [.text "    \"", .value "name", Support.lines ["\",", ""]]

theorem areFilled_declarationParts :
    AreFilled (constantView raw value :: scopes) declarationParts := by
  obtain ⟨-, constant, number⟩ := value?_constantView raw value scopes
  simp [declarationParts, AreFilled, Part.IsFilled, Support.lines, constant, number]

theorem textOf_declarationParts : textOf (constantView raw value :: scopes) declarationParts =
    ConstantsInterface.declaration (Grammar.nodeConstant raw, value) := by
  obtain ⟨-, constant, number⟩ := value?_constantView raw value scopes
  simp [declarationParts, textOf, Part.textIn, Support.lines, constant, number, Template.shown,
    Text.join, Json.compact, ConstantsInterface.declaration, String.append_assoc]
  rfl

theorem areFilled_elementParts : AreFilled (constantView raw value :: scopes) elementParts := by
  obtain ⟨name, -, -⟩ := value?_constantView raw value scopes
  simp [elementParts, AreFilled, Part.IsFilled, Support.lines, name]

theorem textOf_elementParts : textOf (constantView raw value :: scopes) elementParts =
    ConstantsInterface.element raw := by
  obtain ⟨name, -, -⟩ := value?_constantView raw value scopes
  simp [elementParts, textOf, Part.textIn, Support.lines, name, Template.shown, Text.join,
    ConstantsInterface.element, String.append_assoc]

end

/-! ### The built-in templates in a context -/

theorem textIn_packageStatement {context : Json} {package : String}
    (packageIs : context.field? "package" = some (.text package)) :
    (Part.block .whenTrue "package" [.text "package ", .value "package", .text ";"]).textIn
      [context] = if package = "" then "" else "package " ++ package ++ ";" := by
  have found := value?_top "package" (by decide) (by decide) packageIs []
  by_cases none : package = "" <;>
    simp [Part.textIn, textOf, found, Template.isTrue, none, Template.shown, String.append_assoc]

theorem textIn_declarations {p : Project} {context : Json}
    (seen : context.field? "grammar" = some p.view.value) :
    (Part.block .each "grammar.nodeConstants" declarationParts).textIn [context] =
      String.join (p.constantsInterface.constants.map ConstantsInterface.declaration) := by
  have each : ∀ item ∈ p.declared.rawNames.zipIdx,
      textOf [constantView item.1 item.2, context] declarationParts =
        ConstantsInterface.declaration (Grammar.nodeConstant item.1, item.2) :=
    fun item _ => textOf_declarationParts item.1 item.2 [context]
  rw [Part.textIn, value?_constants seen, constantViews_eq, constantsInterface]
  simp only [List.map_map]
  exact congrArg String.join (List.map_congr_left each)

theorem textIn_elements {p : Project} {context : Json}
    (seen : context.field? "grammar" = some p.view.value) :
    (Part.block .each "grammar.nodeConstants" elementParts).textIn [context] =
      String.join (p.constantsInterface.names.map ConstantsInterface.element) := by
  have each : ∀ item ∈ p.declared.rawNames.zipIdx,
      textOf [constantView item.1 item.2, context] elementParts =
        ConstantsInterface.element item.1 :=
    fun item _ => textOf_elementParts item.1 item.2 [context]
  have names : p.declared.rawNames.zipIdx.map Prod.fst = p.constantsInterface.names :=
    List.zipIdx_map_fst 0 _
  rw [Part.textIn, value?_constants seen, constantViews_eq, ← names]
  simp only [List.map_map]
  exact congrArg String.join (List.map_congr_left each)

section

variable {p : Project} {context : Json} {package simple : String}
  (seen : context.field? "grammar" = some p.view.value)
  (packageIs : context.field? "package" = some (.text package))
  (simpleIs : context.field? "simpleName" = some (.text simple))

include seen packageIs simpleIs

theorem areFilled_constantsInterface : AreFilled [context] Support.constantsInterface := by
  have packageAt := value?_top "package" (by decide) (by decide) packageIs []
  have simpleAt := value?_top "simpleName" (by decide) (by decide) simpleIs []
  have each : ∀ parts, (∀ raw value, AreFilled [constantView raw value, context] parts) →
      ∀ item ∈ constantViews p.declared, AreFilled [item, context] parts := by
    intro parts filled item mem
    rw [constantViews_eq, List.mem_map] at mem
    obtain ⟨⟨raw, value⟩, -, rfl⟩ := mem
    exact filled raw value
  have declarations := each declarationParts fun raw value =>
    areFilled_declarationParts raw value [context]
  have elements := each elementParts fun raw value => areFilled_elementParts raw value [context]
  simpa [Support.constantsInterface, Support.lines, AreFilled, Part.IsFilled, packageAt, simpleAt,
    value?_name seen, value?_constants seen, declarationParts, elementParts]
    using And.intro declarations elements

theorem areFilled_stackClass : AreFilled [context] Support.stackClass := by
  have packageAt := value?_top "package" (by decide) (by decide) packageIs []
  have simpleAt := value?_top "simpleName" (by decide) (by decide) simpleIs []
  obtain ⟨root, rootAt⟩ := exists_value?_root seen
  simp [Support.stackClass, Support.rootClass, Support.lines, AreFilled, Part.IsFilled, packageAt,
    simpleAt, rootAt, value?_name seen]

theorem textOf_constantsInterface (same : package = p.options.parserPackage)
    (called : simple = p.options.constantsName) :
    textOf [context] Support.constantsInterface = p.constantsInterface.text := by
  have simpleAt := value?_top "simpleName" (by decide) (by decide) simpleIs []
  have statement := textIn_packageStatement packageIs
  have declarations := textIn_declarations seen
  have elements := textIn_elements seen
  rw [declarationParts] at declarations
  rw [elementParts] at elements
  rw [Support.constantsInterface]
  simp only [textOf, statement, declarations, elements]
  simp only [Part.textIn, simpleAt, value?_name seen, Support.lines]
  simp [Template.shown, Text.join, ConstantsInterface.text, constantsInterface, same, called,
    String.append_assoc]

end

end Project

end NodeWeave
