import NodeWeave.Hierarchy.TypeTree

/-!
Several nodes of a tree may stand for one class. The most specific of them is kept, the first one
of equally specific ones. A node around the kept one is replaced by it, so that the kept one stands
where the outermost of them stood and what is left below the others stays in the tree.
-/

namespace NodeWeave.Hierarchy.TypeTree

/-- The nodes with one name, for the first name that several nodes in the tree have. -/
def firstGroup? (tree : TypeTree) : Option (List Nat) :=
  let ids := tree.attached
  (ids.map fun id => ids.filter fun other => tree.nameOf other == tree.nameOf id).find?
    fun group => 1 < group.length

def specificityOf (tree : TypeTree) (id : Nat) : Specificity :=
  ((tree.entryAt? id).map Entry.specificity).getD .unknown

def placesOf (tree : TypeTree) (ids : List Nat) : List Place :=
  ids.filterMap fun id => (tree.entryAt? id).map Entry.place

def mostSpecific (tree : TypeTree) (first : Nat) (others : List Nat) : Nat :=
  others.foldl
    (fun kept id => if tree.specificityOf kept < tree.specificityOf id then id else kept) first

def discard (kept : Nat) (tree : TypeTree) (id : Nat) : TypeTree :=
  if (tree.ancestors kept).contains id then tree.takePlaceOf kept id else tree.detach id

def duplicateReport (tree : TypeTree) (kept : Nat) (discarded : List Nat) : Report :=
  .make .duplicateMatch
    ("Duplicate entries for " ++ tree.nameOf kept ++ ", keeping the one at " ++
      ((tree.placesOf [kept]).map Place.text).headD "")
    (tree.placesOf discarded)

/-- Resolves one group. Inner nodes go first, so that outer ones still stand around the kept
one. -/
def keepOne (tree : TypeTree) (group : List Nat) : Reported TypeTree :=
  match group with
  | [] => return tree
  | first :: others => do
      let kept := tree.mostSpecific first others
      let discarded := group.filter (· != kept)
      Reported.tell [tree.duplicateReport kept discarded]
      return discarded.reverse.foldl (discard kept) tree

/-- Resolves groups as long as there are any; every round takes a node out. -/
def removeGroups : Nat → TypeTree → Reported TypeTree
  | 0, tree => return tree
  | rounds + 1, tree =>
      match tree.firstGroup? with
      | none => return tree
      | some group => do removeGroups rounds (← tree.keepOne group)

def removeDuplicates (tree : TypeTree) : Reported TypeTree :=
  removeGroups tree.nodes.length tree

theorem removeGroups_of_none {tree : TypeTree} (distinct : tree.firstGroup? = none) (rounds : Nat) :
    removeGroups rounds tree = pure tree := by
  cases rounds with
  | zero => rfl
  | succ rounds => simp [removeGroups, distinct]

end NodeWeave.Hierarchy.TypeTree
