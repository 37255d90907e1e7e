import NodeWeave.Hierarchy.Resolve
import NodeWeave.Json.Basic

/-! What templates and readers see of a resolved hierarchy. -/

namespace NodeWeave.Hierarchy

def classView (name : String) : Json :=
  .ofFields
    [("qualifiedName", .text name),
      ("simpleName", .text (JavaName.simple name)),
      ("package", .text (JavaName.package name))]

namespace TypeTree

/-- The name of a node: for nodes of the grammar the class name without the common beginning, for
others the simple class name. -/
def shortName (nodePrefix : String) (entry : Entry) : String :=
  let simple := JavaName.simple entry.name
  if entry.specificity.isGrammarDerived then
    match Text.after? nodePrefix.toList simple.toList with
    | some rest => String.ofList rest
    | none => simple
  else simple

def referenceView (nodePrefix : String) (entry : Entry) : Json :=
  .ofFields [("name", .text (shortName nodePrefix entry)), ("class", classView entry.name)]

def nodeView (tree : TypeTree) (nodePrefix : String) (id : Nat) (node : TypeNode) : Json :=
  let reference := referenceView nodePrefix
  .ofFields
    [("name", .text (shortName nodePrefix node.entry)),
      ("class", classView node.entry.name),
      ("superNode", ((node.parent.bind tree.entryAt?).map reference).getD .null),
      ("subNodes", .list (node.children.filterMap fun child =>
        (tree.entryAt? child).map reference)),
      ("external", .bool node.entry.external),
      ("isRoot", .bool (id == tree.root))]

def views (tree : TypeTree) (nodePrefix : String) : List Json :=
  tree.attached.filterMap fun id => (tree.node? id).map (tree.nodeView nodePrefix id)

/-- The rows of a tree: how deep a node stands, and what is known of it. -/
def rows (tree : TypeTree) : List (Nat × Entry) :=
  tree.attached.filterMap fun id =>
    (tree.entryAt? id).map fun entry => ((tree.ancestors id).length, entry)

/-- One node a line, deeper ones further right. -/
def render (tree : TypeTree) : String :=
  Text.join "" (tree.rows.map fun (depth, entry) =>
    String.ofList (List.replicate (2 * depth) ' ') ++ entry.name ++
      (if entry.external then " (external)" else "") ++ "\n")

end TypeTree

/-- The constants that identify the nodes, counted from zero in order of declaration. -/
def constantViews (d : Declared) : List Json :=
  d.rawNames.zipIdx.map fun (raw, value) =>
    .ofFields
      [("name", .text raw),
        ("constant", .text (Grammar.nodeConstant raw)),
        ("value", .int value)]

def grammarView (name : String) (options : Grammar.NodeOptions) (d : Declared) (tree : TypeTree) :
    Json :=
  .ofFields
    [("name", .text name),
      ("parser", classView options.parserClass),
      ("treeState", classView options.stateClass),
      ("nodePrefix", .text options.nodePrefix),
      ("nodePackage", .text options.nodePackage),
      ("rootNode",
        ((tree.entryAt? tree.root).map (TypeTree.referenceView options.nodePrefix)).getD .null),
      ("typeHierarchy", .list (tree.views options.nodePrefix)),
      ("nodeConstants", .list (constantViews d))]

end NodeWeave.Hierarchy
