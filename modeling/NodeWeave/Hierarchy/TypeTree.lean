import NodeWeave.Hierarchy.Outline

/-!
Trees of node classes whose nodes are numbered and know their parents and children. A node that was
taken out keeps its number but is no longer reached from the root.
-/

namespace NodeWeave.Hierarchy

structure TypeNode where
  entry : Entry
  parent : Option Nat
  children : List Nat
  deriving DecidableEq, Repr

structure TypeTree where
  nodes : List TypeNode
  root : Nat
  deriving DecidableEq, Repr

namespace TypeTree

def node? (tree : TypeTree) (id : Nat) : Option TypeNode :=
  tree.nodes[id]?

def entryAt? (tree : TypeTree) (id : Nat) : Option Entry :=
  (tree.node? id).map TypeNode.entry

def parent? (tree : TypeTree) (id : Nat) : Option Nat :=
  (tree.node? id).bind TypeNode.parent

def children (tree : TypeTree) (id : Nat) : List Nat :=
  ((tree.node? id).map TypeNode.children).getD []

def nameOf (tree : TypeTree) (id : Nat) : String :=
  ((tree.entryAt? id).map Entry.name).getD ""

/-! ### Building -/

def numbers (next : Nat) : List Outline → List Nat
  | [] => []
  | outline :: rest => next :: numbers (next + outline.size) rest

mutual
/-- The nodes of an outline that are numbered from here on, a node before those below it. -/
def layOut (parent : Option Nat) (next : Nat) : Outline → List TypeNode
  | .node entry children =>
      { entry, parent, children := numbers (next + 1) children } ::
        layOutAll (some next) (next + 1) children

def layOutAll (parent : Option Nat) (next : Nat) : List Outline → List TypeNode
  | [] => []
  | outline :: rest => layOut parent next outline ++ layOutAll parent (next + outline.size) rest
end

def ofOutline (outline : Outline) : TypeTree where
  nodes := layOut none 0 outline
  root := 0

def modify (tree : TypeTree) (id : Nat) (change : TypeNode → TypeNode) : TypeTree :=
  { tree with nodes := tree.nodes.modify id change }

def addChild (tree : TypeTree) (parent : Nat) (outline : Outline) : TypeTree :=
  let next := tree.nodes.length
  let grown := tree.modify parent fun n => { n with children := n.children ++ [next] }
  { grown with nodes := grown.nodes ++ layOut (some parent) next outline }

def detach (tree : TypeTree) (id : Nat) : TypeTree :=
  match tree.parent? id with
  | none => tree
  | some parent =>
      (tree.modify id fun n => { n with parent := none }).modify parent fun n =>
        { n with children := n.children.filter (· != id) }

/-- Gives the place of a node to another one: its parent lists the other one instead, or the other
one becomes the root. -/
def giveUpPlace (tree : TypeTree) (replaced kept : Nat) : TypeTree :=
  match tree.parent? replaced with
  | some parent =>
      (tree.modify replaced fun n => { n with parent := none }).modify parent fun n =>
        { n with children := n.children.map fun c => if c = replaced then kept else c }
  | none => if tree.root = replaced then { tree with root := kept } else tree

/-- Hands all children of a node to another one, behind those it has. -/
def handOver (tree : TypeTree) (giver taker : Nat) : TypeTree :=
  let orphans := tree.children giver
  let emptied := tree.modify giver fun n => { n with children := [] }
  let adopted := orphans.foldl
    (fun tree child => tree.modify child fun n => { n with parent := some taker }) emptied
  adopted.modify taker fun n => { n with children := n.children ++ orphans }

/-- Moves a node to the place of another one, and gives it what is left below that one. -/
def takePlaceOf (tree : TypeTree) (kept replaced : Nat) : TypeTree :=
  let tree := tree.detach kept
  let parent := tree.parent? replaced
  let placed := (tree.giveUpPlace replaced kept).modify kept fun n => { n with parent }
  placed.handOver replaced kept

/-! ### Looking -/

mutual
/-- A node and all below it, down to a depth. A node stands before those below it. -/
def below (tree : TypeTree) : Nat → Nat → List Nat
  | 0, id => [id]
  | depth + 1, id => id :: belowAll tree depth (tree.children id)

def belowAll (tree : TypeTree) (depth : Nat) : List Nat → List Nat
  | [] => []
  | id :: rest => below tree depth id ++ belowAll tree depth rest
end

/-- A node and all below it. No chain of nodes is longer than their number. -/
def subtree (tree : TypeTree) (id : Nat) : List Nat :=
  tree.below tree.nodes.length id

def attached (tree : TypeTree) : List Nat :=
  tree.subtree tree.root

def find? (tree : TypeTree) (name : String) : Option Nat :=
  tree.attached.find? fun id => tree.nameOf id == name

def ancestorsUpTo (tree : TypeTree) : Nat → Nat → List Nat
  | 0, _ => []
  | count + 1, id =>
      match tree.parent? id with
      | none => []
      | some parent => parent :: ancestorsUpTo tree count parent

def ancestors (tree : TypeTree) (id : Nat) : List Nat :=
  tree.ancestorsUpTo tree.nodes.length id

mutual
def outlineTo (tree : TypeTree) : Nat → Nat → List Outline
  | 0, id => ((tree.entryAt? id).map fun entry => Outline.node entry []).toList
  | depth + 1, id =>
      ((tree.entryAt? id).map fun entry =>
        Outline.node entry (outlinesTo tree depth (tree.children id))).toList

def outlinesTo (tree : TypeTree) (depth : Nat) : List Nat → List Outline
  | [] => []
  | id :: rest => outlineTo tree depth id ++ outlinesTo tree depth rest
end

/-- The tree with the nodes that are reached from the root alone, numbered anew. -/
def compact (tree : TypeTree) : TypeTree :=
  match tree.outlineTo tree.nodes.length tree.root with
  | outline :: _ => ofOutline outline
  | [] => tree

/-! ### Laws of building and changing -/

@[simp] theorem length_numbers (next : Nat) (outlines : List Outline) :
    (numbers next outlines).length = outlines.length := by
  induction outlines generalizing next with
  | nil => rfl
  | cons outline rest ih => simp [numbers, ih]

mutual
theorem map_entry_layOut (parent : Option Nat) (next : Nat) (outline : Outline) :
    (layOut parent next outline).map TypeNode.entry = outline.entries := by
  cases outline with
  | node entry children =>
      rw [layOut, List.map_cons, Outline.entries, map_entry_layOutAll]

theorem map_entry_layOutAll (parent : Option Nat) (next : Nat) (outlines : List Outline) :
    (layOutAll parent next outlines).map TypeNode.entry = Outline.entriesAll outlines := by
  cases outlines with
  | nil => rfl
  | cons outline rest =>
      rw [layOutAll, List.map_append, Outline.entriesAll, map_entry_layOut, map_entry_layOutAll]
end

@[simp] theorem length_layOut (parent : Option Nat) (next : Nat) (outline : Outline) :
    (layOut parent next outline).length = outline.size := by
  rw [← Outline.length_entries, ← map_entry_layOut parent next outline, List.length_map]

@[simp] theorem length_nodes_modify (tree : TypeTree) (id : Nat) (change : TypeNode → TypeNode) :
    (tree.modify id change).nodes.length = tree.nodes.length := by
  simp [modify]

@[simp] theorem root_modify (tree : TypeTree) (id : Nat) (change : TypeNode → TypeNode) :
    (tree.modify id change).root = tree.root := rfl

theorem node?_modify_self (tree : TypeTree) (id : Nat) (change : TypeNode → TypeNode) :
    (tree.modify id change).node? id = (tree.node? id).map change := by
  simp [modify, node?]

theorem node?_modify_of_ne (tree : TypeTree) {id other : Nat} (ne : other ≠ id)
    (change : TypeNode → TypeNode) : (tree.modify id change).node? other = tree.node? other := by
  simp [modify, node?, Ne.symm ne]

end TypeTree

end NodeWeave.Hierarchy
