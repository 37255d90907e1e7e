import NodeWeave.Proofs.Hierarchy.Distinct

/-! Orphans follow all other nodes, below the root, and compacting keeps all that is reached. -/

namespace NodeWeave.Hierarchy

open Shape

namespace TypeTree

variable {tree : TypeTree} {shape : Shape}

/-! ### Adding nodes -/

theorem nodes_addChild (tree : TypeTree) (parent : Nat) (outline : Outline) :
    (tree.addChild parent outline).nodes =
      tree.nodes.modify parent
          (fun n => { n with children := n.children ++ [tree.nodes.length] }) ++
        layOut (some parent) tree.nodes.length outline := rfl

theorem map_modify_of_keeps {β : Type} (field : TypeNode → β) {change : TypeNode → TypeNode}
    (keeps : ∀ node, field (change node) = field node) (nodes : List TypeNode) (id : Nat) :
    (nodes.modify id change).map field = nodes.map field := by
  apply List.ext_getElem?
  intro at_
  rw [List.getElem?_map, List.getElem?_map, List.getElem?_modify]
  cases nodes[at_]? with
  | none => rfl
  | some node =>
      by_cases same : id = at_ <;> simp [same, keeps]

theorem node?_addChild_of_ne (tree : TypeTree) (outline : Outline) {parent number : Nat}
    (inside : number < tree.nodes.length) (ne : number ≠ parent) :
    (tree.addChild parent outline).node? number = tree.node? number := by
  rw [node?, nodes_addChild, List.getElem?_append_left (by simpa using inside)]
  simp [node?, ne.symm]

/-- An outline that is added below a node stands behind its other children. -/
theorem HasShape.addChild_plug {frames : List Frame} {id : Nat} {children : List Shape}
    (has : tree.HasShape shape) (apart : plug frames [.node id children] = [shape])
    (outline : Outline) :
    ∃ grown, plug frames [.node id (children ++ [outline.shape tree.nodes.length])] = [grown] ∧
      (tree.addChild id outline).HasShape grown := by
  have ids := idsAll_plug frames [.node id children]
  have nodup := has.nodup_plug apart
  simp only [apart, idsAll_cons, idsAll_nil, ids_node, List.append_nil] at ids nodup
  have bounded : ∀ number ∈ leading frames ++ id :: idsAll children ++ trailing frames,
      number < tree.nodes.length := fun number mem =>
    has.realizes.lt_length (ids ▸ mem)
  obtain ⟨around, ⟨⟨entry, found⟩, below⟩, _⟩ := has.realizes_plug apart
  have elsewhere : ∀ number ∈ leading frames ++ id :: idsAll children ++ trailing frames,
      number ≠ id → (tree.addChild id outline).node? number = tree.node? number :=
    fun number mem => tree.node?_addChild_of_ne outline (bounded number mem)
  have listing : ∃ entry, (tree.addChild id outline).node? id =
      some ⟨entry, above frames,
        (children ++ [outline.shape tree.nodes.length]).map Shape.top⟩ := by
    refine ⟨entry, ?_⟩
    have inside := bounded id (by simp)
    rw [node?] at found
    rw [node?, nodes_addChild, List.getElem?_append_left (by simpa using inside),
      List.getElem?_modify, found]
    simp [Outline.top_shape]
  have added : (tree.addChild id outline).Realizes (some id) (outline.shape tree.nodes.length) := by
    have laid := @realizes_layOut (tree.addChild id outline) (some id) outline
      (tree.nodes.modify id fun n => { n with children := n.children ++ [tree.nodes.length] }) []
    rw [List.length_modify] at laid
    exact laid (by rw [nodes_addChild, List.append_nil])
  obtain ⟨grown, put⟩ := exists_plug_eq_singleton frames
    (.node id (children ++ [outline.shape tree.nodes.length]))
  have realized : (tree.addChild id outline).RealizesAll none [grown] := by
    rw [← put, realizesAll_plug]
    refine ⟨around.congr fun number mem => elsewhere number ?_ ?_, ⟨listing,
      realizesAll_append.mpr ⟨below.congr fun number mem => elsewhere number ?_ ?_,
        added, trivial⟩⟩, trivial⟩ <;> grind
  refine ⟨grown, put, realized.1, ?_, ?_⟩
  · have root : (tree.addChild id outline).root = tree.root := rfl
    rw [root, has.root_eq]
    cases frames with
    | nil =>
        cases apart
        cases put
        rfl
    | cons frame outer => exact top_eq_of_plug apart put
  · have grownIds := idsAll_plug frames [.node id (children ++ [outline.shape tree.nodes.length])]
    simp only [put, idsAll_cons, idsAll_nil, ids_node, List.append_nil, idsAll_append,
      Outline.ids_shape] at grownIds
    have perm : (leading frames ++ id :: idsAll children ++ trailing frames ++
        List.range' tree.nodes.length outline.size).Perm grown.ids := by
      refine List.perm_iff_count.mpr fun number => ?_
      simp only [grownIds, List.count_append, List.count_cons]
      omega
    refine perm.nodup_iff.mp (List.nodup_append.mpr ⟨nodup, List.nodup_range', ?_⟩)
    intro old memOld new memNew same
    have := bounded old memOld
    have := List.mem_range'_1.mp memNew
    omega

/-- An outline that is added below the root stands behind all nodes. -/
theorem HasShape.addChild {id : Nat} {children : List Shape}
    (has : tree.HasShape (.node id children)) (outline : Outline) :
    (tree.addChild id outline).HasShape
      (.node id (children ++ [outline.shape tree.nodes.length])) := by
  obtain ⟨_, ⟨⟩, grown⟩ := @HasShape.addChild_plug tree _ [] id children has rfl outline
  exact grown

theorem map_addChild {β : Type} (field : TypeNode → β)
    (keeps : ∀ node children, field { node with children } = field node) (tree : TypeTree)
    (parent : Nat) (outline : Outline) :
    (tree.addChild parent outline).nodes.map field =
      tree.nodes.map field ++ (layOut (some parent) tree.nodes.length outline).map field := by
  rw [nodes_addChild, List.map_append, map_modify_of_keeps field fun node => keeps node _]

def orphanEntry (d : Declared) (declaration : Declaration) : Entry :=
  { name := d.qualifiedName declaration.raw
    place := declaration.place
    specificity := .unknown
    external := false }

theorem layOut_orphan (parent : Option Nat) (next : Nat) (d : Declared)
    (declaration : Declaration) :
    layOut parent next (orphan d declaration) = [⟨orphanEntry d declaration, parent, []⟩] := by
  simp [orphan, layOut, layOutAll, numbers, orphanEntry]

/-- All orphans stand below the root, behind what stood there. -/
theorem HasShape.adopt (d : Declared) (has : tree.HasShape shape) (orphans : List Declaration) :
    (TypeTree.adopt d tree orphans).nodes.map TypeNode.entry =
        tree.nodes.map TypeNode.entry ++ orphans.map (orphanEntry d) ∧
      (TypeTree.adopt d tree orphans).nodes.map TypeNode.parent =
        tree.nodes.map TypeNode.parent ++ orphans.map (fun _ => some shape.top) ∧
      ∃ grown, (TypeTree.adopt d tree orphans).HasShape grown ∧
        grown.ids = shape.ids ++ List.range' tree.nodes.length orphans.length := by
  induction orphans generalizing tree shape with
  | nil => simpa [TypeTree.adopt] using ⟨shape, has, rfl⟩
  | cons declaration rest ih =>
      cases shape with
      | node id children =>
          have grown := has.addChild (orphan d declaration)
          have entries := tree.map_addChild TypeNode.entry (fun _ _ => rfl) id
            (orphan d declaration)
          have parents := tree.map_addChild TypeNode.parent (fun _ _ => rfl) id
            (orphan d declaration)
          rw [layOut_orphan] at entries parents
          have more : (tree.addChild id (orphan d declaration)).nodes.length =
              tree.nodes.length + 1 := by
            simpa using congrArg List.length entries
          have unfolded : TypeTree.adopt d tree (declaration :: rest) =
              TypeTree.adopt d (tree.addChild id (orphan d declaration)) rest := by
            rw [TypeTree.adopt, List.foldl_cons, has.root_eq]
            rfl
          obtain ⟨entriesRest, parentsRest, final, hasFinal, ids⟩ := ih grown
          rw [unfolded, entriesRest, parentsRest, entries, parents]
          refine ⟨by simp, by simp, final, hasFinal, ?_⟩
          rw [ids, more, List.length_cons, List.range'_succ]
          simp [Outline.ids_shape, orphan, Outline.size, Outline.sizeAll]

theorem entryAt?_eq_getElem? (tree : TypeTree) (id : Nat) :
    tree.entryAt? id = (tree.nodes.map TypeNode.entry)[id]? := by
  rw [entryAt?, node?, List.getElem?_map]

theorem parent?_eq_getElem? (tree : TypeTree) (id : Nat) :
    tree.parent? id = (tree.nodes.map TypeNode.parent)[id]?.join := by
  rw [parent?, node?, List.getElem?_map]
  cases tree.nodes[id]? <;> rfl

theorem map_getElem?_append {β : Type} (front back : List β) :
    (List.range' front.length back.length).map (fun id => (front ++ back)[id]?) =
      back.map some := by
  apply List.ext_getElem
  · simp
  · intro at_ inside _
    simp [List.getElem?_append_right]

theorem HasShape.entryAt?_adopt_of_mem (has : tree.HasShape shape) (d : Declared)
    (orphans : List Declaration) (id : Nat) (mem : id ∈ shape.ids) :
    (TypeTree.adopt d tree orphans).entryAt? id = tree.entryAt? id := by
  have inside := has.realizes.lt_length mem
  rw [entryAt?_eq_getElem?, (has.adopt d orphans).1,
    List.getElem?_append_left (by simpa using inside), ← entryAt?_eq_getElem?]

theorem HasShape.parent?_adopt_of_mem (has : tree.HasShape shape) (d : Declared)
    (orphans : List Declaration) (id : Nat) (mem : id ∈ shape.ids) :
    (TypeTree.adopt d tree orphans).parent? id = tree.parent? id := by
  have inside := has.realizes.lt_length mem
  rw [parent?_eq_getElem?, (has.adopt d orphans).2.1,
    List.getElem?_append_left (by simpa using inside), ← parent?_eq_getElem?]

theorem HasShape.map_entryAt?_adopt (has : tree.HasShape shape) (d : Declared)
    (orphans : List Declaration) :
    (List.range' tree.nodes.length orphans.length).map (TypeTree.adopt d tree orphans).entryAt? =
      (orphans.map (orphanEntry d)).map some := by
  have column := map_getElem?_append (tree.nodes.map TypeNode.entry) (orphans.map (orphanEntry d))
  rw [← (has.adopt d orphans).1, List.length_map, List.length_map] at column
  rw [← column]
  exact List.map_congr_left fun id _ => entryAt?_eq_getElem? _ id

theorem HasShape.map_parent?_adopt (has : tree.HasShape shape) (d : Declared)
    (orphans : List Declaration) :
    (List.range' tree.nodes.length orphans.length).map (TypeTree.adopt d tree orphans).parent? =
      orphans.map fun _ => some shape.top := by
  have column := map_getElem?_append (tree.nodes.map TypeNode.parent)
    (orphans.map fun _ => some shape.top)
  rw [← (has.adopt d orphans).2.1, List.length_map, List.length_map] at column
  have joined := congrArg (List.map Option.join) column
  rw [List.map_map, List.map_map, List.map_map] at joined
  refine (List.map_congr_left fun id _ => ?_).trans joined
  exact parent?_eq_getElem? _ id

theorem adoptMissing_value (d : Declared) (tree : TypeTree) :
    (tree.adoptMissing d).value = adopt d tree (missing d tree.names d.declarations) := by
  rw [adoptMissing]
  split
  · next none => rw [none, adopt, List.foldl_nil, Reported.pure_value]
  · rfl

/-! ### Compacting -/

mutual
/-- The outline of a shape lists the entries in its order, and laid out anew, each node is below
the same one as before. -/
theorem Realizes.outlineTo_eq {parent : Option Nat} {shape : Shape}
    (realized : tree.Realizes parent shape) {depth : Nat} (deep : shape.height ≤ depth) :
    ∃ outline, tree.outlineTo depth shape.top = [outline] ∧
      outline.size = shape.ids.length ∧
      outline.entries.map some = shape.ids.map tree.entryAt? ∧
      ∀ (number : Nat → Nat) (next : Nat),
        shape.ids.map number = List.range' next shape.ids.length →
          (layOut (parent.map number) next outline).map TypeNode.parent =
            shape.ids.map fun id => (tree.parent? id).map number := by
  cases shape with
  | node id children =>
      have listed := realized.children
      have placed := realized.parent?
      obtain ⟨⟨entry, found⟩, inside⟩ := realized
      rw [top_node] at listed placed ⊢
      rw [height] at deep
      have entry_eq : tree.entryAt? id = some entry := by
        simp [entryAt?, found]
      obtain ⟨outlines, shown, size, entries, parents⟩ :=
        inside.outlinesTo_eq (Nat.le_trans deep (Nat.le_add_of_sub_le (Nat.le_refl (depth - 1))))
      refine ⟨.node entry outlines, ?_, ?_, ?_, ?_⟩
      · cases depth with
        | zero =>
            have leaf : children = [] := by
              cases children with
              | nil => rfl
              | cons child rest =>
                  rw [heightAll] at deep
                  omega
            subst leaf
            rw [← shown, outlineTo, entry_eq]
            simp [outlinesTo]
        | succ depth =>
            rw [outlineTo, entry_eq, listed]
            exact congrArg (fun below => [Outline.node entry below]) shown
      · rw [Outline.size, size, ids_node, List.length_cons, Nat.add_comm]
      · rw [Outline.entries, List.map_cons, entries, ids_node, List.map_cons, entry_eq]
      · intro number next numbered
        rw [ids_node, List.length_cons, List.range'_succ, List.map_cons] at numbered
        obtain ⟨first, others⟩ := List.cons.inj numbered
        rw [layOut, List.map_cons, ids_node, List.map_cons, placed, ← parents number _ others,
          ← first]
        rfl

theorem RealizesAll.outlinesTo_eq {parent : Option Nat} {shapes : List Shape}
    (realized : tree.RealizesAll parent shapes) {depth : Nat}
    (deep : heightAll shapes ≤ depth + 1) :
    ∃ outlines, tree.outlinesTo depth (shapes.map Shape.top) = outlines ∧
      Outline.sizeAll outlines = (idsAll shapes).length ∧
      (Outline.entriesAll outlines).map some = (idsAll shapes).map tree.entryAt? ∧
      ∀ (number : Nat → Nat) (next : Nat),
        (idsAll shapes).map number = List.range' next (idsAll shapes).length →
          (layOutAll (parent.map number) next outlines).map TypeNode.parent =
            (idsAll shapes).map fun id => (tree.parent? id).map number := by
  cases shapes with
  | nil => exact ⟨[], by simp [outlinesTo], rfl, rfl, fun _ _ _ => rfl⟩
  | cons shape rest =>
      rw [heightAll] at deep
      have deepFirst : shape.height ≤ depth := by omega
      have deepRest : heightAll rest ≤ depth + 1 := by omega
      obtain ⟨outline, first, size, entries, parents⟩ := realized.1.outlineTo_eq deepFirst
      obtain ⟨outlines, others, sizeAll, entriesAll, parentsAll⟩ :=
        realized.2.outlinesTo_eq deepRest
      refine ⟨outline :: outlines, ?_, ?_, ?_, ?_⟩
      · rw [List.map_cons, outlinesTo, first, others]
        rfl
      · rw [Outline.sizeAll, size, sizeAll, idsAll_cons, List.length_append]
      · rw [Outline.entriesAll, List.map_append, entries, entriesAll, idsAll_cons,
          List.map_append]
      · intro number next numbered
        rw [idsAll_cons, List.length_append, List.map_append, ← List.range'_append_1] at numbered
        obtain ⟨numberedFirst, numberedRest⟩ := List.append_inj numbered (by simp)
        rw [layOutAll, List.map_append, idsAll_cons, List.map_append,
          parents number next numberedFirst, size, parentsAll number _ numberedRest]
end

theorem map_idxOf_of_nodup {ids : List Nat} (nodup : ids.Nodup) :
    ids.map ids.idxOf = List.range' 0 ids.length := by
  apply List.ext_getElem
  · simp
  · intro at_ inside _
    simp [nodup.idxOf_getElem]

/-- Compacting keeps the entries of all nodes that are reached, in their order, and their parents,
and numbers them by their places. -/
theorem HasShape.compact_eq (has : tree.HasShape shape) :
    ∃ outline, tree.compact = ofOutline outline ∧ outline.size = shape.ids.length ∧
      tree.compact.nodes.map (some ∘ TypeNode.entry) = shape.ids.map tree.entryAt? ∧
      tree.compact.nodes.map TypeNode.parent =
        shape.ids.map fun id => (tree.parent? id).map shape.ids.idxOf := by
  have deep : shape.height ≤ tree.nodes.length := by
    have := shape.height_lt_length_ids
    have := has.length_ids_le
    omega
  obtain ⟨outline, shown, size, entries, parents⟩ := has.realizes.outlineTo_eq deep
  have compact_eq : tree.compact = ofOutline outline := by
    rw [compact, has.root_eq, shown]
  refine ⟨outline, compact_eq, size, ?_, ?_⟩
  · rw [compact_eq, ← List.map_map, ofOutline, map_entry_layOut, entries]
  · rw [compact_eq, ofOutline]
    exact parents shape.ids.idxOf 0 (map_idxOf_of_nodup has.nodup)

end TypeTree

end NodeWeave.Hierarchy
