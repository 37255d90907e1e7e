import NodeWeave.Proofs.Hierarchy.Discarding

/-!
A tree with more leaves below the root, behind all that stands there. Main statements: what gives up
nodes of the tree does the same with and without the leaves, and leaves are given up alone.
-/

namespace NodeWeave.Hierarchy

open Shape

/-- The same node with more children behind those it has. -/
def TypeNode.withLeaves (node : TypeNode) (leaves : List Nat) : TypeNode :=
  { node with children := node.children ++ leaves }

namespace TypeTree

/-- The other tree is this one with leaves below the root, behind all that stands there. Their
numbers are those of no node of this tree. -/
structure HungWith (tree : TypeTree) (leaves : List Nat) (other : TypeTree) : Prop where
  root_eq : other.root = tree.root
  node?_root : other.node? tree.root = (tree.node? tree.root).map (·.withLeaves leaves)
  node?_eq : ∀ id, id < tree.nodes.length → id ≠ tree.root → other.node? id = tree.node? id
  leaf : ∀ id ∈ leaves, tree.nodes.length ≤ id ∧
    ∃ entry, other.node? id = some ⟨entry, some tree.root, []⟩
  nodup : leaves.Nodup

variable {tree other : TypeTree} {leaves : List Nat} {shape : Shape} {id kept replaced : Nat}

theorem SameEntries.length_eq (same : tree.SameEntries other) :
    other.nodes.length = tree.nodes.length := by
  have entries : other.nodes.map TypeNode.entry = tree.nodes.map TypeNode.entry :=
    List.ext_getElem? fun id => by simpa [entryAt?, node?] using same id
  simpa using congrArg List.length entries

theorem HasShape.parent?_ne_self (has : tree.HasShape shape) (mem : id ∈ shape.ids) :
    tree.parent? id ≠ some id := by
  obtain ⟨frames, sub, rfl, apart⟩ := exists_plug_of_mem shape mem
  rw [(has.realizes_plug apart).2.1.parent?]
  cases frames with
  | nil => exact nofun
  | cons frame outer =>
      have nodup := has.nodup_plug apart
      have first : frame.id ∈ Shape.leading (frame :: outer) := id_mem_leading List.mem_cons_self
      have top := sub.top_mem_ids
      intro same
      grind [Shape.above, idsAll_cons]

namespace HungWith

theorem not_mem (hung : tree.HungWith leaves other) (inside : id < tree.nodes.length) :
    id ∉ leaves := fun listed => Nat.not_lt.mpr (hung.leaf id listed).1 inside

theorem entryAt?_eq (hung : tree.HungWith leaves other) (inside : id < tree.nodes.length) :
    other.entryAt? id = tree.entryAt? id := by
  rw [entryAt?, entryAt?]
  by_cases root : id = tree.root
  · rw [root, hung.node?_root, Option.map_map]
    rfl
  · rw [hung.node?_eq id inside root]

theorem parent?_eq (hung : tree.HungWith leaves other) (inside : id < tree.nodes.length) :
    other.parent? id = tree.parent? id := by
  rw [parent?, parent?]
  by_cases root : id = tree.root
  · rw [root, hung.node?_root, Option.bind_map]
    rfl
  · rw [hung.node?_eq id inside root]

theorem children_eq (hung : tree.HungWith leaves other) (inside : id < tree.nodes.length)
    (noRoot : id ≠ tree.root) : other.children id = tree.children id := by
  rw [children, children, hung.node?_eq id inside noRoot]

/-- A change of a node is the same with the leaves, if at the root it has nothing to do with the
children that are added. -/
theorem modify (hung : tree.HungWith leaves other) (inside : id < tree.nodes.length)
    {change : TypeNode → TypeNode} (commutes : id = tree.root → ∀ node,
      change (node.withLeaves leaves) = (change node).withLeaves leaves) :
    (tree.modify id change).HungWith leaves (other.modify id change) := by
  refine ⟨hung.root_eq, ?_, ?_, ?_, hung.nodup⟩
  · rw [root_modify, node?_modify, node?_modify, hung.node?_root]
    split
    · next root =>
        rw [Option.map_map, Option.map_map]
        exact congrArg (Option.map · _) (funext (commutes root.symm))
    · rfl
  · intro at_ within noRoot
    rw [length_nodes_modify] at within
    rw [node?_modify, node?_modify, hung.node?_eq at_ within noRoot]
  · intro leaf listed
    obtain ⟨outside, entry, found⟩ := hung.leaf leaf listed
    have ne : leaf ≠ id := by omega
    exact ⟨by rwa [length_nodes_modify], entry, by rwa [node?_modify_of_ne _ ne]⟩

/-! ### Shape -/

theorem idsAll_leaves (leaves : List Nat) : idsAll (leaves.map (Shape.node · [])) = leaves := by
  induction leaves with
  | nil => rfl
  | cons leaf rest ih => rw [List.map_cons, idsAll_cons, ih, ids_node, idsAll_nil]; rfl

theorem not_aboveAll_leaves {upper lower : Nat} (leaves : List Nat) :
    ¬ AboveAll upper lower (leaves.map (Shape.node · [])) := by
  induction leaves with
  | nil => exact aboveAll_nil
  | cons leaf rest ih =>
      rw [List.map_cons, AboveAll, above_node]
      simpa using ih

theorem hasShape {top : Nat} {below : List Shape} (hung : tree.HungWith leaves other)
    (has : tree.HasShape (.node top below)) :
    other.HasShape (.node top (below ++ leaves.map (Shape.node · []))) := by
  have root : tree.root = top := has.root_eq
  have inside : ∀ number ∈ top :: idsAll below, number < tree.nodes.length := fun number mem =>
    has.realizes.lt_length mem
  obtain ⟨⟨⟨entry, found⟩, realized⟩, _, nodup⟩ := has
  refine ⟨⟨⟨entry, ?_⟩, realizesAll_append.mpr ⟨realized.congr ?_, ?_⟩⟩, ?_, ?_⟩
  · rw [← root, hung.node?_root, root, found]
    simp [TypeNode.withLeaves, Function.comp_def]
  · intro number mem
    refine hung.node?_eq number (inside number (List.mem_cons_of_mem _ mem)) ?_
    rintro rfl
    exact (List.nodup_cons.mp nodup).1 (root ▸ mem)
  · have hanging := hung.leaf
    rw [root] at hanging
    clear hung
    induction leaves with
    | nil => trivial
    | cons leaf rest ih =>
        exact ⟨⟨(hanging leaf List.mem_cons_self).2, trivial⟩,
          ih fun id listed => hanging id (List.mem_cons_of_mem _ listed)⟩
  · rw [hung.root_eq, root, top_node]
  · rw [ids_node, idsAll_append, idsAll_leaves, ← List.cons_append, List.nodup_append]
    refine ⟨nodup, hung.nodup, ?_⟩
    rintro number mem leaf listed rfl
    exact hung.not_mem (inside number mem) listed

theorem attached_eq (hung : tree.HungWith leaves other) (has : tree.HasShape shape) :
    other.attached = tree.attached ++ leaves := by
  cases shape with
  | node top below =>
      rw [(hung.hasShape has).attached_eq, has.attached_eq, ids_node, ids_node, idsAll_append,
        idsAll_leaves, List.cons_append]

theorem mem_ancestors_iff (hung : tree.HungWith leaves other) (has : tree.HasShape shape)
    (mem : kept ∈ shape.ids) : id ∈ other.ancestors kept ↔ id ∈ tree.ancestors kept := by
  have noLeaf := hung.not_mem (has.realizes.lt_length mem)
  cases shape with
  | node top below =>
      have memHung : kept ∈ (Shape.node top (below ++ leaves.map (Shape.node · []))).ids := by
        rw [ids_node, idsAll_append, ← List.cons_append]
        exact List.mem_append_left _ mem
      rw [(hung.hasShape has).mem_ancestors_iff memHung, has.mem_ancestors_iff mem, above_node,
        above_node, aboveAll_append, or_iff_left (not_aboveAll_leaves leaves), idsAll_append,
        idsAll_leaves, List.mem_append, or_iff_left noLeaf]

theorem not_mem_ancestors (hung : tree.HungWith leaves other) (has : tree.HasShape shape)
    (listed : id ∈ leaves) (attached : kept ∈ other.attached) : id ∉ other.ancestors kept := by
  have outside := (hung.leaf id listed).1
  cases shape with
  | node top below =>
      have hasHung := hung.hasShape has
      rw [hasHung.attached_eq] at attached
      rw [hasHung.mem_ancestors_iff attached, above_node, aboveAll_append,
        or_iff_left (not_aboveAll_leaves leaves)]
      rintro (⟨rfl, _⟩ | above)
      · exact absurd (has.realizes.lt_length List.mem_cons_self) (Nat.not_lt.mpr outside)
      · exact absurd (has.realizes.lt_length (List.mem_cons_of_mem _ above.mem_ids.1))
          (Nat.not_lt.mpr outside)

/-! ### Giving up nodes of the tree -/

theorem detach (hung : tree.HungWith leaves other) (has : tree.HasShape shape)
    (mem : id ∈ shape.ids) (noRoot : id ≠ tree.root) :
    (tree.detach id).HungWith leaves (other.detach id) := by
  have inside := has.realizes.lt_length mem
  cases placed : tree.parent? id with
  | none => exact absurd ((has.parent?_eq_none_iff mem).mp placed) noRoot
  | some parent =>
      have parentInside := has.realizes.lt_length (has.parent?_iff.mp ⟨mem, placed⟩).1
      rw [detach_of_parent placed, detach_of_parent ((hung.parent?_eq inside).trans placed)]
      refine (hung.modify inside fun root => absurd root noRoot).modify
        (by rwa [length_nodes_modify]) fun _ node => ?_
      have unlisted : leaves.filter (· != id) = leaves := List.filter_eq_self.mpr fun leaf listed =>
        bne_iff_ne.mpr fun same => hung.not_mem inside (same ▸ listed)
      simp [TypeNode.withLeaves, unlisted]

theorem giveUpPlace (hung : tree.HungWith leaves other) (has : tree.HasShape shape)
    (mem : replaced ∈ shape.ids) (noRoot : replaced ≠ tree.root) (kept : Nat) :
    (tree.giveUpPlace replaced kept).HungWith leaves (other.giveUpPlace replaced kept) := by
  have inside := has.realizes.lt_length mem
  cases placed : tree.parent? replaced with
  | none => exact absurd ((has.parent?_eq_none_iff mem).mp placed) noRoot
  | some parent =>
      have parentInside := has.realizes.lt_length (has.parent?_iff.mp ⟨mem, placed⟩).1
      rw [TypeTree.giveUpPlace, TypeTree.giveUpPlace, hung.parent?_eq inside, placed]
      refine (hung.modify inside fun root => absurd root noRoot).modify
        (by rwa [length_nodes_modify]) fun _ node => ?_
      have unlisted : leaves.map (fun c => if c = replaced then kept else c) = leaves := by
        refine (List.map_congr_left fun leaf listed => if_neg ?_).trans leaves.map_id
        exact fun same => hung.not_mem inside (same ▸ listed)
      simp [TypeNode.withLeaves, unlisted]

theorem adoptAll (hung : tree.HungWith leaves other) (taker : Nat) {orphans : List Nat}
    (inside : ∀ orphan ∈ orphans, orphan < tree.nodes.length) :
    (tree.adoptAll taker orphans).HungWith leaves (other.adoptAll taker orphans) := by
  induction orphans generalizing tree other with
  | nil => exact hung
  | cons orphan rest ih =>
      refine ih (hung.modify (inside orphan List.mem_cons_self) fun _ _ => rfl) ?_
      intro id listed
      rw [length_nodes_modify]
      exact inside id (List.mem_cons_of_mem _ listed)

theorem handOver {giver taker : Nat} (hung : tree.HungWith leaves other)
    (giverInside : giver < tree.nodes.length) (takerInside : taker < tree.nodes.length)
    (giverNoRoot : giver ≠ tree.root) (takerNoRoot : taker ≠ tree.root)
    (inside : ∀ orphan ∈ tree.children giver, orphan < tree.nodes.length) :
    (tree.handOver giver taker).HungWith leaves (other.handOver giver taker) := by
  rw [handOver_eq, handOver_eq, hung.children_eq giverInside giverNoRoot]
  have emptied : (tree.modify giver fun n => { n with children := [] }).HungWith leaves
      (other.modify giver fun n => { n with children := [] }) :=
    hung.modify giverInside fun root => absurd root giverNoRoot
  have unchanged : tree.SameEntries (tree.modify giver fun n => { n with children := [] }) :=
    .modify (.refl tree) fun _ => rfl
  have adopted := emptied.adoptAll taker fun orphan listed =>
    unchanged.length_eq ▸ inside orphan listed
  refine adopted.modify ?_ fun root => absurd (root.trans (root_adoptAll taker _)) takerNoRoot
  rwa [(unchanged.adoptAll taker (tree.children giver)).length_eq]

/-- A node that stands alone takes the place of one below the root. -/
theorem replace (hung : tree.HungWith leaves other) (has : tree.HasShape shape)
    (mem : replaced ∈ shape.ids) (noRoot : replaced ≠ tree.root)
    (keptInside : kept < tree.nodes.length) (alone : kept ∉ shape.ids) :
    (((tree.giveUpPlace replaced kept).modify kept fun n =>
        { n with parent := tree.parent? replaced }).handOver replaced kept).HungWith leaves
      (((other.giveUpPlace replaced kept).modify kept fun n =>
        { n with parent := other.parent? replaced }).handOver replaced kept) := by
  have inside := has.realizes.lt_length mem
  have length := (sameEntries_giveUpPlace tree replaced kept).length_eq
  have root : (tree.giveUpPlace replaced kept).root = tree.root := by
    rw [root_giveUpPlace, if_neg fun both => noRoot both.2.symm]
  have keptNoRoot : kept ≠ tree.root := by
    rintro rfl
    exact alone (has.root_eq ▸ shape.top_mem_ids)
  have placed : ((tree.giveUpPlace replaced kept).modify kept fun n =>
        { n with parent := tree.parent? replaced }).HungWith leaves
      ((other.giveUpPlace replaced kept).modify kept fun n =>
        { n with parent := tree.parent? replaced }) :=
    (hung.giveUpPlace has mem noRoot kept).modify (by rwa [length]) fun _ _ => rfl
  rw [hung.parent?_eq inside]
  refine placed.handOver (by simpa [length]) (by simpa [length]) ?_ ?_ ?_
  · rwa [root_modify, root]
  · rwa [root_modify, root]
  · intro orphan listed
    have ne : replaced ≠ kept := fun same => alone (same ▸ mem)
    have same : ((tree.giveUpPlace replaced kept).modify kept fun n =>
        { n with parent := tree.parent? replaced }).children replaced = tree.children replaced := by
      rw [children, node?_modify_of_ne _ ne]
      exact children_giveUpPlace_self (has.parent?_ne_self mem)
    rw [same] at listed
    rw [length_nodes_modify, length]
    exact has.realizes.lt_length (has.parent?_iff.mpr ⟨mem, listed⟩).1

theorem takePlaceOf (hung : tree.HungWith leaves other) (has : tree.HasShape shape)
    (mem : kept ∈ shape.ids) (above : replaced ∈ tree.ancestors kept)
    (noRoot : replaced ≠ tree.root) :
    (tree.takePlaceOf kept replaced).HungWith leaves (other.takePlaceOf kept replaced) := by
  obtain ⟨frames, sub, rfl, apart⟩ := exists_plug_of_mem shape mem
  rw [has.ancestors_eq apart] at above
  cases frames with
  | nil => cases above
  | cons frame outer =>
      have keptNoRoot : sub.top ≠ tree.root := by
        intro root
        have placed := (has.parent?_eq_none_iff mem).mpr root
        rw [(has.realizes_plug apart).2.1.parent?] at placed
        cases placed
      obtain ⟨rest, left, hasRest, _⟩ := has.detach apart
      have ids := idsAll_plug (frame :: outer) []
      rw [left, idsAll_cons, idsAll_nil, List.append_nil, List.append_nil] at ids
      have nodup := has.nodup_plug apart
      refine (hung.detach has mem keptNoRoot).replace hasRest ?_ ?_ ?_ ?_
      · obtain ⟨around, listed, rfl⟩ := List.mem_map.mp above
        rw [ids]
        exact List.mem_append_left _ (id_mem_leading listed)
      · rwa [HasShape.root_detach]
      · rw [(tree.sameEntries_detach sub.top).length_eq]
        exact has.realizes.lt_length mem
      · have top := sub.top_mem_ids
        grind [idsAll_cons]

/-- Nodes below the root are given up in the same way with the leaves. -/
theorem discard (hung : tree.HungWith leaves other) (has : tree.HasShape shape)
    (keptMem : kept ∈ shape.ids) (mem : id ∈ shape.ids) (noRoot : id ≠ tree.root) :
    (discard kept tree id).HungWith leaves (discard kept other id) := by
  have same : id ∈ other.ancestors kept ↔ id ∈ tree.ancestors kept :=
    hung.mem_ancestors_iff has keptMem
  rw [TypeTree.discard, TypeTree.discard]
  by_cases above : id ∈ tree.ancestors kept
  · rw [if_pos (List.contains_iff_mem.mpr above),
      if_pos (List.contains_iff_mem.mpr (same.mpr above))]
    exact hung.takePlaceOf has keptMem above noRoot
  · rw [if_neg fun listed => above (List.contains_iff_mem.mp listed),
      if_neg fun listed => above (same.mp (List.contains_iff_mem.mp listed))]
    exact hung.detach has mem noRoot

theorem discardAll {discarded : List Nat} (hung : tree.HungWith leaves other)
    (has : tree.HasShape shape) (ready : AreDiscardable kept discarded shape)
    (noTop : shape.top ∉ discarded) :
    (discarded.foldl (TypeTree.discard kept) tree).HungWith leaves
      (discarded.foldl (TypeTree.discard kept) other) := by
  induction discarded generalizing tree other shape with
  | nil => exact hung
  | cons id rest ih =>
      rw [List.mem_cons, not_or] at noTop
      obtain ⟨next, hasNext, first⟩ := has.discards ready.kept_mem ready.head.1 ready.head.2
      have root : id ≠ tree.root := by
        rw [has.root_eq]
        exact Ne.symm noTop.1
      refine ih (hung.discard has ready.kept_mem ready.head.1 root) hasNext
        (ready.tail has.nodup first) ?_
      rw [first.top_eq (Ne.symm noTop.1)]
      exact noTop.2

/-! ### Giving up leaves -/

theorem discard_leaf (hung : tree.HungWith leaves other) (has : tree.HasShape shape)
    (attached : kept ∈ other.attached) (listed : id ∈ leaves) :
    tree.HungWith (leaves.filter (· != id)) (TypeTree.discard kept other id) := by
  obtain ⟨outside, entry, found⟩ := hung.leaf id listed
  have rootInside : tree.root < tree.nodes.length := by
    rw [has.root_eq]
    exact has.realizes.lt_length shape.top_mem_ids
  have placed : other.parent? id = some tree.root := by simp [parent?, found]
  rw [TypeTree.discard, if_neg fun above => hung.not_mem_ancestors has listed attached
    (List.contains_iff_mem.mp above), detach_of_parent placed]
  refine ⟨hung.root_eq, ?_, ?_, ?_, hung.nodup.filter _⟩
  · have ne : tree.root ≠ id := by omega
    rw [node?_modify_self, node?_modify_of_ne _ ne, hung.node?_root]
    have unlisted : (tree.children tree.root).filter (· != id) = tree.children tree.root := by
      refine List.filter_eq_self.mpr fun child listed => bne_iff_ne.mpr fun same => ?_
      have mem := has.parent?_iff.mpr ⟨has.root_eq ▸ shape.top_mem_ids, listed⟩
      have := has.realizes.lt_length mem.1
      omega
    cases root : tree.node? tree.root with
    | none => rfl
    | some node =>
        rw [children, root] at unlisted
        simpa [TypeNode.withLeaves] using unlisted
  · intro at_ inside noRoot
    have ne : at_ ≠ id := by omega
    rw [node?_modify_of_ne _ noRoot, node?_modify_of_ne _ ne, hung.node?_eq at_ inside noRoot]
  · intro leaf left
    obtain ⟨stays, ne⟩ := List.mem_filter.mp left
    have noRoot : leaf ≠ tree.root := fun same => hung.not_mem rootInside (same ▸ stays)
    rw [node?_modify_of_ne _ noRoot, node?_modify_of_ne _ (bne_iff_ne.mp ne)]
    exact hung.leaf leaf stays

theorem discardAll_leaves {discarded : List Nat} (hung : tree.HungWith leaves other)
    (has : tree.HasShape shape) (attached : kept ∈ other.attached) (noKept : kept ∉ discarded)
    (nodup : discarded.Nodup) (listed : discarded ⊆ leaves) :
    ∃ left, left.Sublist leaves ∧
      tree.HungWith left (discarded.foldl (TypeTree.discard kept) other) := by
  induction discarded generalizing other leaves with
  | nil => exact ⟨leaves, .refl _, hung⟩
  | cons id rest ih =>
      rw [List.mem_cons, not_or] at noKept
      obtain ⟨unlisted, nodupRest⟩ := List.nodup_cons.mp nodup
      have next := hung.discard_leaf has attached (listed List.mem_cons_self)
      obtain ⟨left, part, final⟩ := ih next (by
        rw [next.attached_eq has]
        rw [hung.attached_eq has, List.mem_append] at attached
        rw [List.mem_append, List.mem_filter, bne_iff_ne]
        exact attached.imp_right fun leaf => ⟨leaf, noKept.1⟩) noKept.2 nodupRest (by
        intro leaf later
        rw [List.mem_filter, bne_iff_ne]
        exact ⟨listed (List.mem_cons_of_mem _ later), fun same => unlisted (same ▸ later)⟩)
      exact ⟨left, part.trans List.filter_sublist, final⟩

end HungWith

end TypeTree

end NodeWeave.Hierarchy
