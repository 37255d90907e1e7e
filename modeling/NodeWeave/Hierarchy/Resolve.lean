import NodeWeave.Hierarchy.Adoption
import NodeWeave.Hierarchy.Duplicates
import NodeWeave.Hierarchy.Shorthand

/-!
Hierarchies are written and then resolved: names stand for classes, each class stands once in the
tree, and all declared nodes stand in it.
-/

namespace NodeWeave

open Hierarchy in
inductive Hierarchy where
  | written (outline : Outline)
  | resolved (tree : TypeTree)

namespace Hierarchy

def Outline.resolve (d : Declared) (outline : Outline) : Reported TypeTree := do
  let expanded ← outline.expandRoot d
  let distinct ← (TypeTree.ofOutline expanded).removeDuplicates
  let complete ← distinct.adoptMissing d
  return complete.compact

inductive ResolveProblem where
  | alreadyResolved
  deriving DecidableEq, Repr

def ResolveProblem.message : ResolveProblem → String
  | alreadyResolved => "type hierarchy is already processed"

def tree : Hierarchy → TypeTree
  | written outline => .ofOutline outline
  | resolved tree => tree

def isResolved : Hierarchy → Bool
  | written _ => false
  | resolved _ => true

def resolve (d : Declared) : Hierarchy → Except ResolveProblem (Reported Hierarchy)
  | written outline =>
      let result := outline.resolve d
      .ok { value := resolved result.value, reports := result.reports }
  | resolved _ => .error .alreadyResolved

@[simp] theorem resolve_resolved (d : Declared) (tree : TypeTree) :
    (resolved tree).resolve d = .error .alreadyResolved := rfl

end Hierarchy

end NodeWeave
