import NodeWeave.Proofs.Hierarchy.Adoption
import NodeWeave.Proofs.Hierarchy.Discarding
import NodeWeave.Proofs.Hierarchy.Looking

/-!
Trees stay trees. A tree is told by the two kinds of links between its nodes, which are changed one
at a time. Main statements: what is built is a tree, adding, taking out and moving nodes leaves a
tree, and a node that takes the place of one above it stands there with what is left below that one.
-/

namespace NodeWeave.Hierarchy.TypeTree

open Shape

variable {tree changed : TypeTree} {shape : Shape} {id kept replaced : Nat}

/-- The root has no parent, any other node that is reached is listed once by its parent and by no
other node that is reached, and climbing from it leads to the root. As the root has no parent, it is
not listed by a node that is reached: going down would never end. -/
structure IsTree (tree : TypeTree) : Prop where
  root_lt : tree.root < tree.nodes.length
  parent?_root : tree.parent? tree.root = none
  listed_once : ∀ {id : Nat}, tree.Reaches id → id ≠ tree.root →
    ∃ parent, tree.parent? id = some parent ∧ (tree.children parent).count id = 1
  listed_by_parent : ∀ {holder id : Nat}, tree.Reaches holder → id ∈ tree.children holder →
    tree.parent? id = some holder
  climbs : ∀ {id : Nat}, tree.Reaches id → ∃ steps, tree.climb steps id = some tree.root

theorem isTree_iff : tree.IsTree ↔ tree.IsWellFormed := by
  constructor
  · intro stands
    refine ⟨stands.root_lt, stands.parent?_root, stands.listed_by_parent, ?_⟩
    intro parent reached
    refine List.nodup_iff_count_le_one.mpr fun child => ?_
    by_cases listed : child ∈ tree.children parent
    · have placed := stands.listed_by_parent reached listed
      have below : child ≠ tree.root := by
        rintro rfl
        cases stands.parent?_root.symm.trans placed
      obtain ⟨_, same, once⟩ := stands.listed_once (.child reached listed) below
      cases placed.symm.trans same
      exact Nat.le_of_eq once
    · rw [List.count_eq_zero_of_not_mem listed]
      exact Nat.zero_le 1
  · intro ok
    refine ⟨ok.root_lt, ok.parent?_root, ?_, ok.parent?_child, ok.exists_climb⟩
    intro id reached below
    cases reached with
    | root => exact absurd rfl below
    | child reached listed =>
        exact ⟨_, ok.parent?_child reached listed,
          List.count_eq_one_of_mem (ok.nodup_children reached) listed⟩

theorem isTree_iff_hasShape : tree.IsTree ↔ ∃ shape, tree.HasShape shape :=
  isTree_iff.trans isWellFormed_iff

theorem IsTree.climbs_up (stands : tree.IsTree) (reached : tree.Reaches id) : tree.Climbs id := by
  obtain ⟨_, has⟩ := isTree_iff_hasShape.mp stands
  exact has.climbs (has.mem_ids_iff_reaches.mpr reached)

theorem IsTree.goesDown (stands : tree.IsTree) (reached : tree.Reaches id) :
    tree.GoesDown id := by
  obtain ⟨_, has⟩ := isTree_iff_hasShape.mp stands
  exact has.goesDown (has.mem_ids_iff_reaches.mpr reached)

theorem isTree_ofOutline (outline : Outline) : (ofOutline outline).IsTree :=
  isTree_iff_hasShape.mpr ⟨_, hasShape_ofOutline outline⟩

/-! ### Changes -/

/-- A tree is changed at nodes that are reached: one is added below another one, one is taken out
with all below it, or one takes the place of one above it. -/
inductive Changes (tree : TypeTree) : TypeTree → Prop where
  | addChild {parent : Nat} (reached : tree.Reaches parent) (outline : Outline) :
      Changes tree (tree.addChild parent outline)
  | detach {id : Nat} (reached : tree.Reaches id) (below : id ≠ tree.root) :
      Changes tree (tree.detach id)
  | takePlaceOf {kept replaced : Nat} (reached : tree.Reaches kept)
      (above : replaced ∈ tree.ancestors kept) : Changes tree (tree.takePlaceOf kept replaced)

theorem exists_climb_of_mem_ancestorsUpTo {count : Nat}
    (above : replaced ∈ tree.ancestorsUpTo count kept) :
    ∃ steps, tree.climb (steps + 1) kept = some replaced := by
  induction count generalizing kept with
  | zero => cases above
  | succ count ih =>
      rw [ancestorsUpTo] at above
      split at above
      · cases above
      · next parent placed =>
          rcases List.mem_cons.mp above with rfl | further
          · exact ⟨0, by simp [climb, placed]⟩
          · obtain ⟨steps, up⟩ := ih further
            exact ⟨steps + 1, by rw [climb, placed]; exact up⟩

theorem IsWellFormed.closer (ok : tree.IsWellFormed) (above : replaced ∈ tree.ancestors kept)
    {near far : Nat} (up : tree.climb near replaced = some tree.root)
    (other : tree.climb far kept = some tree.root) : near < far := by
  obtain ⟨steps, between⟩ := exists_climb_of_mem_ancestorsUpTo above
  have := ok.steps_unique (climb_add between up) other
  omega

theorem IsWellFormed.ne_of_mem_ancestors (ok : tree.IsWellFormed) (reached : tree.Reaches kept)
    (above : replaced ∈ tree.ancestors kept) : kept ≠ replaced := by
  rintro rfl
  obtain ⟨steps, up⟩ := ok.exists_climb reached
  exact Nat.lt_irrefl _ (ok.closer above up up)

theorem IsWellFormed.reaches_parent (ok : tree.IsWellFormed) {parent : Nat}
    (reached : tree.Reaches id) (placed : tree.parent? id = some parent) :
    tree.Reaches parent := by
  cases reached with
  | root => cases ok.parent?_root.symm.trans placed
  | child reachedHolder listed =>
      cases placed.symm.trans (ok.parent?_child reachedHolder listed)
      exact reachedHolder

theorem IsWellFormed.exists_climb_parent (ok : tree.IsWellFormed) {parent : Nat}
    (reached : tree.Reaches id) (placed : tree.parent? id = some parent) :
    ∃ steps, tree.climb steps parent = some tree.root ∧
      ∀ {other : Nat}, tree.parent? other = some parent →
        tree.climb (steps + 1) other = some tree.root := by
  obtain ⟨steps, up⟩ := ok.exists_climb (ok.reaches_parent reached placed)
  refine ⟨steps, up, fun same => ?_⟩
  rw [climb, same]
  exact up

theorem IsWellFormed.parent?_ne_self (ok : tree.IsWellFormed) (reached : tree.Reaches id) :
    tree.parent? id ≠ some id := by
  intro placed
  obtain ⟨steps, up, below⟩ := ok.exists_climb_parent reached placed
  have := ok.steps_unique up (below placed)
  omega

theorem HasShape.reaches_of_mem_ancestors (has : tree.HasShape shape) (reached : tree.Reaches kept)
    (above : replaced ∈ tree.ancestors kept) : tree.Reaches replaced := by
  rw [← has.mem_ids_iff_reaches] at reached ⊢
  exact ((has.mem_ancestors_iff reached).mp above).mem_ids.1

theorem HasShape.parent?_ne_of_mem_ancestors (has : tree.HasShape shape)
    (reached : tree.Reaches kept) (above : replaced ∈ tree.ancestors kept) :
    tree.parent? replaced ≠ some kept := by
  intro placed
  obtain ⟨steps, up, below⟩ :=
    has.isWellFormed.exists_climb_parent (has.reaches_of_mem_ancestors reached above) placed
  have := has.isWellFormed.closer above (below placed) up
  omega

theorem HasShape.parent?_ne_parent (has : tree.HasShape shape) (reached : tree.Reaches kept)
    (above : replaced ∈ tree.ancestors kept) {parent : Nat}
    (placed : tree.parent? replaced = some parent) : tree.parent? kept ≠ some parent := by
  intro same
  obtain ⟨steps, up, below⟩ := has.isWellFormed.exists_climb_parent reached same
  exact Nat.lt_irrefl _ (has.isWellFormed.closer above (below placed) (below same))

theorem HasShape.discards_takePlaceOf (has : tree.HasShape shape) (reached : tree.Reaches kept)
    (above : replaced ∈ tree.ancestors kept) :
    ∃ changed, (tree.takePlaceOf kept replaced).HasShape changed ∧
      Discards kept replaced shape changed := by
  have moved : discard kept tree replaced = tree.takePlaceOf kept replaced := by
    rw [discard, if_pos (List.contains_iff_mem.mpr above)]
  have ne := has.isWellFormed.ne_of_mem_ancestors reached above
  rw [← moved]
  exact has.discards (has.mem_ids_iff_reaches.mpr reached)
    (has.mem_ids_iff_reaches.mpr (has.reaches_of_mem_ancestors reached above)) ne.symm

theorem IsTree.changes (stands : tree.IsTree) (changes : tree.Changes changed) :
    changed.IsTree := by
  obtain ⟨shape, has⟩ := isTree_iff_hasShape.mp stands
  refine isTree_iff_hasShape.mpr ?_
  cases changes with
  | addChild reached outline =>
      obtain ⟨frames, ⟨_, children⟩, rfl, apart⟩ :=
        exists_plug_of_mem shape (has.mem_ids_iff_reaches.mpr reached)
      obtain ⟨grown, _, hasGrown⟩ := has.addChild_plug apart outline
      exact ⟨grown, hasGrown⟩
  | detach reached below =>
      obtain ⟨frames, sub, rfl, apart⟩ :=
        exists_plug_of_mem shape (has.mem_ids_iff_reaches.mpr reached)
      cases frames with
      | nil =>
          cases apart
          exact absurd has.root_eq.symm below
      | cons frame outer =>
          obtain ⟨rest, _, hasRest, _⟩ := has.detach apart
          exact ⟨rest, hasRest⟩
  | takePlaceOf reached above =>
      obtain ⟨moved, hasMoved, _⟩ := has.discards_takePlaceOf reached above
      exact ⟨moved, hasMoved⟩

/-- What is built and then changed any number of times is a tree. -/
theorem isTree_of_changes {outline : Outline}
    (run : Relation.ReflTransGen Changes (ofOutline outline) tree) : tree.IsTree := by
  induction run with
  | refl => exact isTree_ofOutline outline
  | tail _ change ih => exact ih.changes change

/-! ### The links of changed trees -/

section Links

variable {at_ giver taker : Nat} {parent : Option Nat}

theorem children_modify_parent :
    (tree.modify id fun n => { n with parent := parent }).children at_ = tree.children at_ := by
  rw [children, children, node?_modify]
  split
  · cases tree.node? at_ <;> rfl
  · rfl

theorem children_modify (change : List Nat → List Nat)
    (inside : (tree.entryAt? id).isSome ∨ change [] = []) :
    (tree.modify id fun n => { n with children := change n.children }).children at_ =
      if at_ = id then change (tree.children at_) else tree.children at_ := by
  rw [children, children, node?_modify]
  split
  · next same =>
      subst same
      rw [entryAt?] at inside
      cases found : tree.node? at_ <;> simp_all
  · rfl

theorem parent?_modify_children {change : List Nat → List Nat} :
    (tree.modify id fun n => { n with children := change n.children }).parent? at_ =
      tree.parent? at_ := by
  rw [parent?, parent?, node?_modify]
  split
  · cases tree.node? at_ <;> rfl
  · rfl

theorem children_detach :
    (tree.detach id).children at_ =
      if tree.parent? id = some at_ then (tree.children at_).filter (· != id)
      else tree.children at_ := by
  unfold detach
  split
  · next alone => simp [alone]
  · next parent placed =>
      rw [children_modify (List.filter (· != id)) (.inr rfl), children_modify_parent, placed]
      simp [eq_comm]

theorem parent?_detach (ne : at_ ≠ id) : (tree.detach id).parent? at_ = tree.parent? at_ := by
  unfold detach
  split
  · rfl
  · rw [parent?_modify_children, parent?, node?_modify_of_ne _ ne, parent?]

theorem children_giveUpPlace :
    (tree.giveUpPlace replaced kept).children at_ =
      if tree.parent? replaced = some at_ then
        (tree.children at_).map fun c => if c = replaced then kept else c
      else tree.children at_ := by
  unfold giveUpPlace
  split
  · next parent placed =>
      rw [children_modify (List.map fun c => if c = replaced then kept else c)
        (.inr rfl),
        children_modify_parent, placed]
      simp [eq_comm]
  · next alone =>
      simp only [alone, reduceCtorEq, if_false]
      split <;> rfl

theorem children_adoptAll (orphans : List Nat) :
    (tree.adoptAll taker orphans).children at_ = tree.children at_ := by
  rw [children, children, node?_adoptAll]
  split
  · cases tree.node? at_ <;> rfl
  · rfl

/-- Handing over empties the list of the giver into the list of the taker. -/
theorem children_handOver (inside : (tree.entryAt? taker).isSome) (ne : taker ≠ giver) :
    (tree.handOver giver taker).children at_ =
      if at_ = taker then tree.children taker ++ tree.children giver
      else if at_ = giver then [] else tree.children at_ := by
  have kept : ((tree.modify giver fun n => { n with children := [] }).adoptAll taker
      (tree.children giver)).entryAt? taker = tree.entryAt? taker := by
    refine SameEntries.adoptAll (.modify (.refl tree) ?_) _ _ taker
    exact fun _ => rfl
  rw [handOver_eq, children_modify (· ++ tree.children giver) (.inl (kept ▸ inside)),
    children_adoptAll, children_modify (fun _ => []) (.inr rfl)]
  grind

theorem children_takePlaceOf (inside : (tree.entryAt? kept).isSome) (ne : kept ≠ replaced)
    (notOwn : tree.parent? replaced ≠ some replaced)
    (notKept : tree.parent? replaced ≠ some kept) :
    (tree.takePlaceOf kept replaced).children at_ =
      if at_ = kept then (tree.detach kept).children kept ++ (tree.detach kept).children replaced
      else if at_ = replaced then []
      else if tree.parent? replaced = some at_ then
        ((tree.detach kept).children at_).map fun c => if c = replaced then kept else c
      else (tree.detach kept).children at_ := by
  have there : (((tree.detach kept).giveUpPlace replaced kept).modify kept fun n =>
      { n with parent := (tree.detach kept).parent? replaced }).entryAt? kept =
        tree.entryAt? kept := by
    refine SameEntries.modify
      ((tree.sameEntries_detach kept).trans (sameEntries_giveUpPlace _ replaced kept)) ?_ kept
    exact fun _ => rfl
  rw [takePlaceOf, children_handOver (by rw [there]; exact inside) ne]
  simp only [children_modify_parent, children_giveUpPlace, parent?_detach ne.symm, if_neg notOwn,
    if_neg notKept]

theorem parent?_takePlaceOf (inside : (tree.entryAt? kept).isSome) (ne : kept ≠ replaced)
    (notOwn : tree.parent? replaced ≠ some replaced)
    (notListed : kept ∉ (tree.detach kept).children replaced) :
    (tree.takePlaceOf kept replaced).parent? kept = tree.parent? replaced := by
  have there : ((tree.detach kept).giveUpPlace replaced kept).entryAt? kept = tree.entryAt? kept :=
    (tree.sameEntries_detach kept).trans (sameEntries_giveUpPlace _ replaced kept) kept
  obtain ⟨node, found⟩ : ∃ node, ((tree.detach kept).giveUpPlace replaced kept).node? kept =
      some node := by
    rw [← there, entryAt?, Option.isSome_map] at inside
    exact Option.isSome_iff_exists.mp inside
  rw [takePlaceOf, parent?, node?_handOver_taker ne, node?_modify_self, found]
  · exact parent?_detach ne.symm
  · rw [children_modify_parent, children_giveUpPlace, parent?_detach ne.symm, if_neg notOwn]
    exact notListed

theorem root_takePlaceOf (ne : kept ≠ replaced) :
    (tree.takePlaceOf kept replaced).root =
      if tree.parent? replaced = none ∧ tree.root = replaced then kept else tree.root := by
  rw [takePlaceOf, root_handOver, root_modify, root_giveUpPlace, parent?_detach ne.symm,
    HasShape.root_detach]

end Links

/-! ### Taking the place of a node -/

/-- A node stands in the place of another one, or is the root instead of it, and has its own
children and then what is left of those of the other one. All else is reached and listed as before,
and the former place of the node is gone. -/
structure TakesPlace (tree : TypeTree) (kept replaced : Nat) (moved : TypeTree) : Prop where
  reaches_iff : ∀ {id : Nat}, moved.Reaches id ↔ tree.Reaches id ∧ id ≠ replaced
  children_kept : moved.children kept =
    tree.children kept ++ (tree.children replaced).filter (· != kept)
  parent?_kept : moved.parent? kept = tree.parent? replaced
  children_above : ∀ {parent : Nat}, tree.parent? replaced = some parent →
    moved.children parent = (tree.children parent).map fun c => if c = replaced then kept else c
  root_eq : moved.root = if tree.root = replaced then kept else tree.root
  children_elsewhere : ∀ {id : Nat}, tree.Reaches id → id ≠ kept → id ≠ replaced →
    tree.parent? replaced ≠ some id → moved.children id = (tree.children id).filter (· != kept)
  entries : tree.SameEntries moved

theorem IsWellFormed.children_detach (ok : tree.IsWellFormed) (reached : tree.Reaches id) :
    (tree.detach kept).children id = (tree.children id).filter (· != kept) := by
  rw [TypeTree.children_detach]
  split
  · rfl
  · next away =>
      refine (List.filter_eq_self.mpr fun child listed => bne_iff_ne.mpr ?_).symm
      rintro rfl
      exact away (ok.parent?_child reached listed)

theorem IsTree.takesPlace (stands : tree.IsTree) (reached : tree.Reaches kept)
    (above : replaced ∈ tree.ancestors kept) :
    tree.TakesPlace kept replaced (tree.takePlaceOf kept replaced) := by
  have ok := isTree_iff.mp stands
  obtain ⟨shape, has⟩ := isTree_iff_hasShape.mp stands
  have reachedReplaced := has.reaches_of_mem_ancestors reached above
  have ne := ok.ne_of_mem_ancestors reached above
  have notOwn := ok.parent?_ne_self reachedReplaced
  have notKept := has.parent?_ne_of_mem_ancestors reached above
  have inside : (tree.entryAt? kept).isSome := by
    obtain ⟨steps, up⟩ := ok.exists_climb reached
    simp [entryAt?, node?, ok.lt_length up]
  have listed {id : Nat} := @children_takePlaceOf tree kept replaced id inside ne notOwn notKept
  have left {id : Nat} := @IsWellFormed.children_detach tree id kept ok
  have unlisted : ∀ {id : Nat}, tree.Reaches id → tree.parent? kept ≠ some id →
      (tree.children id).filter (· != kept) = tree.children id := by
    intro id reachedId away
    rw [← left reachedId, TypeTree.children_detach, if_neg away]
  refine ⟨?_, ?_, ?_, ?_, ?_, ?_, tree.sameEntries_takePlaceOf kept replaced⟩
  · intro id
    obtain ⟨changed, hasChanged, discards⟩ := has.discards_takePlaceOf reached above
    have standsAbove :=
      (has.mem_ancestors_iff (has.mem_ids_iff_reaches.mpr reached)).mp above
    rw [← hasChanged.mem_ids_iff_reaches, discards.mem_iff has.nodup, has.mem_ids_iff_reaches]
    tauto
  · rw [listed, if_pos rfl, left reached, left reachedReplaced,
      unlisted reached (ok.parent?_ne_self reached)]
  · refine parent?_takePlaceOf inside ne notOwn ?_
    rw [left reachedReplaced]
    simp
  · intro parent placed
    have reachedParent := ok.reaches_parent reachedReplaced placed
    have neKept : parent ≠ kept := fun same => notKept (same ▸ placed)
    have neReplaced : parent ≠ replaced := fun same => notOwn (same ▸ placed)
    rw [listed, if_neg neKept, if_neg neReplaced, if_pos placed, left reachedParent,
      unlisted reachedParent (has.parent?_ne_parent reached above placed)]
  · rw [root_takePlaceOf ne]
    by_cases same : tree.root = replaced
    · have alone : tree.parent? replaced = none := same ▸ ok.parent?_root
      simp [same, alone]
    · simp [same]
  · intro id reachedId neKept neReplaced notAbove
    rw [listed, if_neg neKept, if_neg neReplaced, if_neg notAbove, left reachedId]

/-! ### All laws of trees -/

/-- What is built is a tree, and each change of a tree leaves a tree. Climbing and going down end in
a tree, and a node that takes the place of an ancestor stands there. -/
theorem trees_stay_trees :
    (∀ outline, (ofOutline outline).IsTree) ∧
      (∀ {tree changed : TypeTree}, tree.IsTree → tree.Changes changed → changed.IsTree) ∧
      (∀ {tree : TypeTree} {id : Nat}, tree.IsTree → tree.Reaches id →
        tree.Climbs id ∧ tree.GoesDown id) ∧
      ∀ {tree : TypeTree} {kept replaced : Nat}, tree.IsTree → tree.Reaches kept →
        replaced ∈ tree.ancestors kept →
          tree.TakesPlace kept replaced (tree.takePlaceOf kept replaced) :=
  ⟨isTree_ofOutline, IsTree.changes,
    fun stands reached => ⟨stands.climbs_up reached, stands.goesDown reached⟩,
    IsTree.takesPlace⟩

/-- A root above a node with one below it, and above another node. -/
def twoLevels : TypeTree :=
  let named (name : String) := Outline.node { name, place := .data Outline.dataPath }
  ofOutline (named "Node" [named "Expr" [named "Sum" []], named "Stmt" []])

/-- The lowest node becomes the root, above the two that are left. -/
theorem lowest_takes_place_of_root :
    twoLevels.TakesPlace 2 0 (twoLevels.takePlaceOf 2 0) ∧ (twoLevels.takePlaceOf 2 0).IsTree ∧
      (twoLevels.takePlaceOf 2 0).GoesDown 2 ∧
        (twoLevels.takePlaceOf 2 0).subtree 2 = [2, 1, 3] := by
  have stands : twoLevels.IsTree := trees_stay_trees.1 _
  have reached : twoLevels.Reaches 2 :=
    @Reaches.child _ 1 2 (@Reaches.child _ 0 1 .root (by decide)) (by decide)
  have above : 0 ∈ twoLevels.ancestors 2 := by decide
  have moved := trees_stay_trees.2.1 stands (.takePlaceOf reached above)
  have down := (trees_stay_trees.2.2.1 moved .root).2
  refine ⟨trees_stay_trees.2.2.2 stands reached above, moved, down, ?_⟩
  exact (down.unstacks_iff.mp (.take (.take (.take .done)))).symm

end NodeWeave.Hierarchy.TypeTree
