import NodeWeave.Hierarchy.Declared
import NodeWeave.Hierarchy.TypeTree

/-! Declared nodes that a tree lacks are put below its root. -/

namespace NodeWeave.Hierarchy.TypeTree

/-- The declarations whose classes are not there yet; the first one of a class counts. -/
def missing (d : Declared) : (present : List String) → List Declaration → List Declaration
  | _, [] => []
  | present, declaration :: rest =>
      let name := d.qualifiedName declaration.raw
      if present.contains name then missing d present rest
      else declaration :: missing d (name :: present) rest

def names (tree : TypeTree) : List String :=
  tree.attached.map tree.nameOf

def orphan (d : Declared) (declaration : Declaration) : Outline :=
  .node { name := d.qualifiedName declaration.raw, place := declaration.place } []

def adopt (d : Declared) (tree : TypeTree) (orphans : List Declaration) : TypeTree :=
  orphans.foldl (fun tree declaration => tree.addChild tree.root (orphan d declaration)) tree

def adoptMissing (d : Declared) (tree : TypeTree) : Reported TypeTree :=
  match missing d tree.names d.declarations with
  | [] => return tree
  | orphans => do
      Reported.tell
        [.make .uncoveredNode
            (toString orphans.length ++ " nodes are not mentioned in the type hierarchy: " ++
              Text.join ", " (orphans.map Declaration.raw))
            (orphans.map Declaration.place),
          { category := .uncoveredNode, severity := .fine, places := []
            message := "They will be adopted by the root (" ++ tree.nameOf tree.root ++ ")" }]
      return adopt d tree orphans

end NodeWeave.Hierarchy.TypeTree
