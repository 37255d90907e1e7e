import NodeWeave.Project.Basic
import NodeWeave.Proofs.Files.Outcomes

/-! What is said while a hierarchy is resolved, and only then. -/

namespace NodeWeave

def Category.isOfHierarchy : Category → Bool
  | unmatchedHierarchyRegex | exactNodeNotInGrammar | regexShouldBeLeaf | uncoveredNode
  | multipleHierarchyRoots | noHierarchyRoots | wrongType | invalidRegex | duplicateMatch => true
  | classNotGenerated | classGenerated | incompleteVisitorSpec | normalExecMessage | debug
  | nonFatal | fatalError => false

def Report.isOfHierarchy (report : Report) : Bool :=
  report.category.isOfHierarchy

def Reported.IsOnHierarchy {α : Type} (result : Reported α) : Prop :=
  result.TellsOnly fun report => report.isOfHierarchy = true

namespace Hierarchy

open Reported

namespace Outline

theorem isOnHierarchy_entryOfName (name : String) (path : DataPath) :
    (entryOfName name path).IsOnHierarchy := by
  unfold entryOfName
  dsimp only
  split
  · exact .bind (.tell rfl) (.pure _)
  · exact .pure _

theorem isOnHierarchy_leafOfName (name : String) (path : DataPath) :
    (leafOfName name path).IsOnHierarchy :=
  .bind (isOnHierarchy_entryOfName name path) (.pure _)

mutual
theorem isOnHierarchy_ofValue (path : DataPath) : ∀ value : Yaml,
    (ofValue path value).IsOnHierarchy
  | .text name => isOnHierarchy_leafOfName name path
  | .map [] => .bind (.tell rfl) (.pure _)
  | .map [root] => isOnHierarchy_ofRoot path root
  | .map (_ :: _ :: _) => .bind (.tell rfl) (.pure _)
  | .null | .bool _ | .int _ | .float _ | .list _ | .tagged _ _ => .bind (.tell rfl) (.pure _)
termination_by value => sizeOf value

theorem isOnHierarchy_ofRoot (path : DataPath) : ∀ root : Yaml × Yaml,
    (ofRoot path root).IsOnHierarchy
  | (.text name, below) => by
      refine .bind (isOnHierarchy_entryOfName name _) ?_
      split
      · exact .pure _
      · exact .bind (isOnHierarchy_ofBelow _ below) (.pure _)
  | (.null, _) | (.bool _, _) | (.int _, _) | (.float _, _) | (.list _, _) | (.map _, _)
  | (.tagged _ _, _) => .bind (.tell rfl) (.pure _)
termination_by root => sizeOf root

theorem isOnHierarchy_ofBelow (path : DataPath) : ∀ below : Yaml,
    (ofBelow path below).IsOnHierarchy
  | .text name => .bind (isOnHierarchy_leafOfName name path) (.pure _)
  | .list items => .bind (isOnHierarchy_ofItems path 0 items) (.pure _)
  | .null | .bool _ | .int _ | .float _ | .map _ | .tagged _ _ => .bind (.tell rfl) (.pure _)
termination_by below => sizeOf below

theorem isOnHierarchy_ofItems (path : DataPath) (index : Nat) : ∀ items : List Yaml,
    (ofItems path index items).IsOnHierarchy
  | [] => .pure _
  | item :: rest =>
      .bind (isOnHierarchy_ofValue _ item)
        (.bind (isOnHierarchy_ofItems path (index + 1) rest) (.pure _))
termination_by items => sizeOf items
end

theorem isOnHierarchy_ofYaml (value : Option Yaml) : (ofYaml value).IsOnHierarchy := by
  refine .bind ?_ (.pure _)
  unfold written?
  split
  · exact .pure _
  · exact .pure _
  · exact isOnHierarchy_ofValue dataPath _

variable (d : Declared)

theorem isOnHierarchy_expandEntry (entry : Entry) (specificity : Specificity) :
    (expandEntry d entry specificity).IsOnHierarchy := by
  unfold expandEntry IsOnHierarchy Reported.TellsOnly
  dsimp only
  split
  · exact List.forall_mem_singleton.mpr rfl
  · exact List.forall_mem_nil _

mutual
theorem isOnHierarchy_expand (compile : Matcher) : ∀ outline : Outline,
    (expand compile d outline).IsOnHierarchy
  | node entry children => by
      unfold expand
      split
      · split
        · exact .bind (.tell rfl) (.pure _)
        · split
          · exact .bind (.tell rfl) (.pure _)
          · exact .pure _
          · exact .bind (.tell rfl) (.bind (isOnHierarchy_expandAll compile _) (.pure _))
          · exact .bind (.tell rfl) (.pure _)
      · exact .bind (isOnHierarchy_expandEntry d entry _)
          (.bind (isOnHierarchy_expandAll compile children) (.pure _))

theorem isOnHierarchy_expandAll (compile : Matcher) : ∀ outlines : List Outline,
    (expandAll compile d outlines).IsOnHierarchy
  | [] => .pure _
  | outline :: rest => by
      rw [expandAll]
      exact .bind (isOnHierarchy_expand compile outline)
        (.bind (isOnHierarchy_expandAll compile rest) (.pure _))
end

theorem isOnHierarchy_expandRoot (outline : Outline) : (expandRoot d outline).IsOnHierarchy := by
  cases outline with
  | node entry children =>
      exact .bind (isOnHierarchy_expandEntry d entry .root)
        (.bind (isOnHierarchy_expandAll d _ children) (.pure _))

end Outline

namespace TypeTree

theorem isOnHierarchy_keepOne (tree : TypeTree) (group : List Nat) :
    (tree.keepOne group).IsOnHierarchy := by
  cases group with
  | nil => exact .pure _
  | cons first others => exact .bind (.tell rfl) (.pure _)

theorem isOnHierarchy_removeGroups (rounds : Nat) (tree : TypeTree) :
    (removeGroups rounds tree).IsOnHierarchy := by
  induction rounds generalizing tree with
  | zero => exact .pure _
  | succ rounds ih =>
      rw [removeGroups]
      split
      · exact .pure _
      · exact .bind (isOnHierarchy_keepOne tree _) (ih _)

theorem isOnHierarchy_adoptMissing (d : Declared) (tree : TypeTree) :
    (adoptMissing d tree).IsOnHierarchy := by
  unfold adoptMissing
  split
  · exact .pure _
  · refine .bind ?_ (.pure _)
    exact List.forall_mem_cons.mpr ⟨rfl, List.forall_mem_singleton.mpr rfl⟩

end TypeTree

theorem Outline.isOnHierarchy_resolve (d : Declared) (outline : Outline) :
    (outline.resolve d).IsOnHierarchy :=
  .bind (isOnHierarchy_expandRoot d outline)
    (.bind (TypeTree.isOnHierarchy_removeGroups _ _)
      (.bind (TypeTree.isOnHierarchy_adoptMissing d _) (.pure _)))

end Hierarchy

theorem Project.isOnHierarchy_view (p : Project) : p.view.IsOnHierarchy :=
  .bind (.bind (Hierarchy.Outline.isOnHierarchy_ofYaml _)
    (Hierarchy.Outline.isOnHierarchy_resolve _ _)) (.pure _)

end NodeWeave
