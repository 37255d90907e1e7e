import NodeWeave.Hierarchy.Resolve
import NodeWeave.Proofs.Hierarchy.Adoption

/-!
What resolving makes of any written hierarchy: one tree in which each class stands once, all
declared classes stand, and nothing that duplicate removal left has moved.
-/

namespace NodeWeave.Hierarchy

open Shape

/-! ### Declared classes are not external -/

def Entry.Faithful (d : Declared) (entry : Entry) : Prop :=
  ∀ raw, d.declares raw = true → entry.name = d.qualifiedName raw → entry.external = false

theorem Declared.declaresClass_of_declares {d : Declared} {raw : String}
    (declared : d.declares raw = true) : d.declaresClass (d.qualifiedName raw) = true := by
  rw [declaresClass, List.any_eq_true]
  exact ⟨raw, mem_rawNames.mpr declared, beq_self_eq_true _⟩

namespace Outline

theorem faithful_classEntry (d : Declared) (entry : Entry) (specificity : Specificity) :
    (classEntry d entry specificity).Faithful d := by
  intro raw declared named
  simp only [classEntry] at named ⊢
  rw [named, Declared.declaresClass_of_declares declared, Bool.or_true, Bool.not_true]

theorem faithful_of_not_external {d : Declared} {entry : Entry} (known : entry.external = false) :
    entry.Faithful d :=
  fun _ _ _ => known

theorem entriesAll_append (outlines others : List Outline) :
    entriesAll (outlines ++ others) = entriesAll outlines ++ entriesAll others := by
  induction outlines with
  | nil => rfl
  | cons outline rest ih => simp [entriesAll, ih]

theorem external_of_mem_found {d : Declared} {place : Place} {names : List String} {entry : Entry}
    (mem : entry ∈ entriesAll (names.map (found d place []))) : entry.external = false := by
  induction names with
  | nil => cases mem
  | cons raw rest ih =>
      simp only [List.map_cons, found, entriesAll, entries, List.cons_append, List.nil_append,
        List.mem_cons] at mem
      rcases mem with rfl | mem
      · rfl
      · exact ih mem

mutual
theorem faithful_expand (compile : Matcher) (d : Declared) (outline : Outline) :
    ∀ entry ∈ entriesAll (outline.expand compile d).value, entry.Faithful d := by
  cases outline with
  | node entry children =>
      have below := faithful_expandAll compile d children
      unfold expand
      split
      · split
        · exact nofun
        · split
          · exact nofun
          · intro entry mem
            rw [Reported.pure_value] at mem
            exact faithful_of_not_external (external_of_mem_found mem)
          · intro entry mem
            simp only [Reported.bind_value, Reported.pure_value, found, entriesAll, entries,
              List.append_nil, List.mem_cons] at mem
            rcases mem with rfl | mem
            · exact faithful_of_not_external rfl
            · exact below entry mem
          · exact nofun
      · intro other mem
        simp only [Reported.bind_value, Reported.pure_value, expandEntry, entriesAll, entries,
          List.append_nil, List.mem_cons] at mem
        rcases mem with rfl | mem
        · exact faithful_classEntry d entry _
        · exact below other mem

theorem faithful_expandAll (compile : Matcher) (d : Declared) (outlines : List Outline) :
    ∀ entry ∈ entriesAll (expandAll compile d outlines).value, entry.Faithful d := by
  cases outlines with
  | nil => exact nofun
  | cons outline rest =>
      intro entry mem
      simp only [expandAll, Reported.bind_value, Reported.pure_value, entriesAll_append,
        List.mem_append] at mem
      rcases mem with first | later
      · exact faithful_expand compile d outline entry first
      · exact faithful_expandAll compile d rest entry later
end

theorem faithful_expandRoot (d : Declared) (outline : Outline) :
    ∀ entry ∈ (outline.expandRoot d).value.entries, entry.Faithful d := by
  cases outline with
  | node entry children =>
      intro other mem
      rw [expandRoot, expandRootWith] at mem
      simp only [Reported.bind_value, Reported.pure_value, expandEntry, entries,
        List.mem_cons] at mem
      rcases mem with rfl | mem
      · exact faithful_classEntry d entry _
      · exact faithful_expandAll _ d children other mem

end Outline

namespace TypeTree

variable {d : Declared}

/-! ### Missing declarations -/

theorem missing_sublist (present : List String) (declarations : List Declaration) :
    (missing d present declarations).Sublist declarations := by
  induction declarations generalizing present with
  | nil => exact .refl _
  | cons declaration rest ih =>
      rw [missing]
      split
      · exact (ih _).cons _
      · exact (ih _).cons_cons _

/-- The first declaration of each class counts, if the class is not there. -/
theorem mem_missing_iff {present : List String} {declarations : List Declaration}
    {orphan : Declaration} :
    orphan ∈ missing d present declarations ↔
      declarations.find? (fun o => d.qualifiedName o.raw == d.qualifiedName orphan.raw) =
        some orphan ∧ d.qualifiedName orphan.raw ∉ present := by
  induction declarations generalizing present with
  | nil => simp [missing]
  | cons declaration rest ih =>
      rw [missing, List.find?_cons]
      by_cases same : d.qualifiedName declaration.raw = d.qualifiedName orphan.raw
      · rw [beq_iff_eq.mpr same]
        split
        · next there =>
            rw [List.contains_iff_mem, same] at there
            simp [ih, there]
        · next notThere =>
            rw [List.contains_iff_mem, same] at notThere
            simp [ih, notThere, same, eq_comm]
      · rw [beq_eq_false_iff_ne.mpr same]
        split
        · exact ih
        · next notThere =>
            have ne : orphan ≠ declaration := fun eq => same (eq ▸ rfl)
            simp [ih, ne, Ne.symm same]

theorem mem_present_or_missing (present : List String) {declarations : List Declaration}
    {declaration : Declaration} (mem : declaration ∈ declarations) :
    d.qualifiedName declaration.raw ∈ present ∨
      d.qualifiedName declaration.raw ∈
        (missing d present declarations).map fun o => d.qualifiedName o.raw := by
  by_cases there : d.qualifiedName declaration.raw ∈ present
  · exact .inl there
  · right
    cases found : declarations.find? fun o =>
        d.qualifiedName o.raw == d.qualifiedName declaration.raw with
    | none => exact absurd (beq_self_eq_true _) (List.find?_eq_none.mp found declaration mem)
    | some first =>
        have same : d.qualifiedName first.raw = d.qualifiedName declaration.raw := by
          simpa using List.find?_some found
        rw [← same] at found there ⊢
        exact List.mem_map_of_mem (mem_missing_iff.mpr ⟨found, there⟩)

theorem nodup_missing (present : List String) (declarations : List Declaration) :
    ((missing d present declarations).map fun o => d.qualifiedName o.raw).Nodup := by
  induction declarations generalizing present with
  | nil => exact .nil
  | cons declaration rest ih =>
      rw [missing]
      split
      · exact ih _
      · rw [List.map_cons, List.nodup_cons]
        refine ⟨fun mem => ?_, ih _⟩
        obtain ⟨orphan, found, named⟩ := List.mem_map.mp mem
        exact (mem_missing_iff.mp found).2 (named ▸ List.mem_cons_self)

/-! ### Resolved trees -/

/-- All nodes are reached from the root and numbered in the order in which they are met, and links
to parents and to children agree. -/
structure IsCompact (tree : TypeTree) : Prop where
  root_eq : tree.root = 0
  attached_eq : tree.attached = List.range tree.nodes.length
  parent?_iff : ∀ child parent, tree.parent? child = some parent ↔ child ∈ tree.children parent
  nodup_children : ∀ id, (tree.children id).Nodup
  root_iff : ∀ id, id < tree.nodes.length → (tree.parent? id = none ↔ id = tree.root)

/-- All nodes that are reached in `kept` are in the tree, in their order and with their parents.
Behind them stand orphans, which are leaves below the root. -/
structure IsFollowedBy (tree kept : TypeTree) (orphans : List Entry) : Prop where
  entries_eq : tree.nodes.map (some ∘ TypeNode.entry) =
    kept.attached.map kept.entryAt? ++ orphans.map some
  parents_eq : tree.nodes.map TypeNode.parent =
    kept.attached.map (fun id => (kept.parent? id).map kept.attached.idxOf) ++
      orphans.map fun _ => some tree.root
  leaves : ∀ id, kept.attached.length ≤ id → tree.children id = []

theorem isCompact_ofOutline (outline : Outline) : (ofOutline outline).IsCompact := by
  have has := hasShape_ofOutline outline
  have length : (ofOutline outline).nodes.length = outline.size := length_layOut none 0 outline
  have ids : (outline.shape 0).ids = List.range (ofOutline outline).nodes.length := by
    rw [Outline.ids_shape, length, List.range_eq_range']
  have known : ∀ {id : Nat} {node : TypeNode}, (ofOutline outline).node? id = some node →
      id ∈ (outline.shape 0).ids := by
    intro id node found
    rw [ids, List.mem_range]
    exact (List.getElem?_eq_some_iff.mp found).1
  refine ⟨rfl, has.attached_eq.trans ids, fun child parent => ?_, fun id => ?_,
    fun id inside => ?_⟩
  · constructor
    · intro placed
      obtain ⟨node, found, above⟩ := Option.bind_eq_some_iff.mp placed
      exact (has.parent?_iff.mp ⟨known found, placed⟩).2
    · intro listed
      cases found : (ofOutline outline).node? parent with
      | none => simp [children, found] at listed
      | some node => exact (has.parent?_iff.mpr ⟨known found, listed⟩).2
  · cases found : (ofOutline outline).node? id with
    | none => simp [children, found]
    | some node => exact has.nodup_children (known found)
  · exact has.parent?_eq_none_iff (ids ▸ List.mem_range.mpr inside)

theorem HasShape.isCompact_adopt {kept : TypeTree} {shape : Shape} (has : kept.HasShape shape)
    (d : Declared) (orphans : List Declaration) :
    (TypeTree.adopt d kept orphans).compact.IsCompact := by
  obtain ⟨_, _, grown, hasGrown, _⟩ := has.adopt d orphans
  obtain ⟨outline, compact_eq, _⟩ := hasGrown.compact_eq
  rw [compact_eq]
  exact isCompact_ofOutline outline

/-- Adopting and compacting moves none of the nodes that are reached. -/
theorem HasShape.isFollowedBy {kept : TypeTree} {shape : Shape} (has : kept.HasShape shape)
    (d : Declared) (orphans : List Declaration) :
    (TypeTree.adopt d kept orphans).compact.IsFollowedBy kept
      (orphans.map (orphanEntry d)) := by
  obtain ⟨_, _, grown, hasGrown, ids⟩ := has.adopt d orphans
  obtain ⟨outline, compact_eq, _, entries, parents⟩ := hasGrown.compact_eq
  have root := (has.isCompact_adopt d orphans).root_eq
  have upper : ∀ {child parent}, child ∈ shape.ids → kept.parent? child = some parent →
      parent ∈ shape.ids := fun mem placed => (has.parent?_iff.mp ⟨mem, placed⟩).1
  rw [ids, List.map_append] at entries parents
  rw [List.map_congr_left (has.entryAt?_adopt_of_mem d orphans), has.map_entryAt?_adopt] at entries
  have columns : (TypeTree.adopt d kept orphans).compact.nodes.map TypeNode.parent =
      shape.ids.map (fun id => (kept.parent? id).map shape.ids.idxOf) ++
        (orphans.map (orphanEntry d)).map fun _ => some 0 := by
    rw [parents]
    congr 1
    · refine List.map_congr_left fun id mem => ?_
      rw [has.parent?_adopt_of_mem d orphans id mem]
      cases placed : kept.parent? id with
      | none => rfl
      | some parent => simp [List.idxOf_append, upper mem placed]
    · have first : (shape.ids ++ List.range' kept.nodes.length orphans.length).idxOf shape.top =
          0 := by
        cases shape
        simp
      have new := congrArg (List.map (Option.map
        (shape.ids ++ List.range' kept.nodes.length orphans.length).idxOf))
        (has.map_parent?_adopt d orphans)
      simpa [Function.comp_def, first] using new
  refine ⟨by rw [entries, has.attached_eq], by rw [columns, has.attached_eq, root], ?_⟩
  intro id beyond
  cases listed : (TypeTree.adopt d kept orphans).compact.children id with
  | nil => rfl
  | cons child rest =>
      have placed : (TypeTree.adopt d kept orphans).compact.parent? child = some id := by
        refine ((has.isCompact_adopt d orphans).parent?_iff child id).mpr ?_
        rw [listed]
        exact List.mem_cons_self
      rw [parent?_eq_getElem?, Option.join_eq_some_iff] at placed
      have mem := List.mem_of_getElem? placed
      rw [columns, List.mem_append] at mem
      rw [has.attached_eq] at beyond
      have nonempty := shape.height_lt_length_ids
      rcases mem with old | new
      · obtain ⟨node, mem, above⟩ := List.mem_map.mp old
        obtain ⟨parent, below, rfl⟩ := Option.map_eq_some_iff.mp above
        have := List.idxOf_lt_length_of_mem (upper mem below)
        omega
      · obtain ⟨_, _, same⟩ := List.mem_map.mp new
        have := Option.some.inj same
        omega

end TypeTree

open TypeTree

def Outline.distinctTree (d : Declared) (outline : Outline) : TypeTree :=
  (ofOutline (outline.expandRoot d).value).removeDuplicates.value

structure Resolves (d : Declared) (outline : Outline) (tree : TypeTree) : Prop where
  compact : tree.IsCompact
  root_entry : tree.entryAt? tree.root = some (outline.expandRoot d).value.entry
  root_specificity : tree.specificityOf tree.root = .root
  nodup_names : tree.names.Nodup
  declared : ∀ raw, d.declares raw = true →
    ∃ id ∈ tree.attached, tree.nameOf id = d.qualifiedName raw ∧
      (tree.entryAt? id).map Entry.external = some false ∧
      ∀ other ∈ tree.attached, tree.nameOf other = d.qualifiedName raw → other = id
  followed : ∃ orphans : List Declaration,
    tree.IsFollowedBy (outline.distinctTree d) (orphans.map (orphanEntry d)) ∧
      orphans.Sublist d.declarations ∧
      (orphans.map fun o => d.qualifiedName o.raw).Nodup ∧
      ∀ orphan, orphan ∈ orphans ↔
        d.declarations.find? (fun o => d.qualifiedName o.raw == d.qualifiedName orphan.raw) =
          some orphan ∧ d.qualifiedName orphan.raw ∉ (outline.distinctTree d).names

theorem eq_of_nodup_map {α β : Type} {f : α → β} {items : List α} (nodup : (items.map f).Nodup)
    {first second : α} (firstMem : first ∈ items) (secondMem : second ∈ items)
    (same : f first = f second) : first = second := by
  induction items with
  | nil => cases firstMem
  | cons item rest ih =>
      rw [List.map_cons, List.nodup_cons] at nodup
      rcases List.mem_cons.mp firstMem with rfl | firstLater
      · rcases List.mem_cons.mp secondMem with rfl | secondLater
        · rfl
        · exact absurd (same ▸ List.mem_map_of_mem secondLater) nodup.1
      · rcases List.mem_cons.mp secondMem with rfl | secondLater
        · exact absurd (same ▸ List.mem_map_of_mem firstLater) nodup.1
        · exact ih nodup.2 firstLater secondLater

namespace TypeTree

variable {tree kept : TypeTree} {d : Declared} {orphans : List Declaration}

theorem IsCompact.map_attached {β : Type} (compact : tree.IsCompact) (field : Option Entry → β) :
    tree.attached.map (field ∘ tree.entryAt?) =
      tree.nodes.map fun node => field (some node.entry) := by
  rw [compact.attached_eq]
  apply List.ext_getElem
  · simp
  · intro at_ inside _
    simp at inside
    simp [entryAt?, node?, inside]

theorem IsFollowedBy.names_eq (compact : tree.IsCompact)
    (followed : tree.IsFollowedBy kept (orphans.map (orphanEntry d))) :
    tree.names = kept.names ++ orphans.map fun o => d.qualifiedName o.raw := by
  have named := congrArg (List.map fun entry => (entry.map Entry.name).getD "") followed.entries_eq
  rw [List.map_map, List.map_append, List.map_map, List.map_map, List.map_map] at named
  refine (compact.map_attached fun entry => (entry.map Entry.name).getD "").trans ?_
  exact named

theorem IsFollowedBy.mem_entries_or_exists_orphan {expanded : Outline}
    (same : (ofOutline expanded).SameEntries kept)
    (followed : tree.IsFollowedBy kept (orphans.map (orphanEntry d))) {id : Nat} {entry : Entry}
    (found : tree.entryAt? id = some entry) :
    entry ∈ expanded.entries ∨ ∃ orphan ∈ orphans, orphanEntry d orphan = entry := by
  obtain ⟨node, stands, rfl⟩ := Option.map_eq_some_iff.mp found
  have mem : (some ∘ TypeNode.entry) node ∈ tree.nodes.map (some ∘ TypeNode.entry) :=
    List.mem_map_of_mem (List.mem_of_getElem? stands)
  rw [followed.entries_eq, List.mem_append] at mem
  rcases mem with old | new
  · obtain ⟨number, _, kept_eq⟩ := List.mem_map.mp old
    rw [same number, entryAt?_eq_getElem?, ofOutline, map_entry_layOut] at kept_eq
    exact .inl (List.mem_of_getElem? kept_eq)
  · rw [List.map_map] at new
    obtain ⟨orphan, listed, orphan_eq⟩ := List.mem_map.mp new
    exact .inr ⟨orphan, listed, Option.some.inj orphan_eq⟩

theorem IsFollowedBy.faithful {expanded : Outline} (same : (ofOutline expanded).SameEntries kept)
    (written : ∀ entry ∈ expanded.entries, entry.Faithful d)
    (followed : tree.IsFollowedBy kept (orphans.map (orphanEntry d))) {id : Nat} {entry : Entry}
    (found : tree.entryAt? id = some entry) : entry.Faithful d := by
  rcases followed.mem_entries_or_exists_orphan same found with old | ⟨orphan, _, rfl⟩
  · exact written _ old
  · exact Outline.faithful_of_not_external rfl

end TypeTree

/-- Every written hierarchy is resolved. -/
theorem resolve_written (outline : Outline) (d : Declared) :
    ∃ tree reports, (written outline).resolve d = .ok ⟨resolved tree, reports⟩ ∧
      Resolves d outline tree := by
  have start := hasShape_ofOutline (outline.expandRoot d).value
  have startRoot : (ofOutline (outline.expandRoot d).value).entryAt? 0 =
      some (outline.expandRoot d).value.entry := by
    cases (outline.expandRoot d).value
    rfl
  obtain ⟨shape, has, top, same, nodup⟩ := start.removeDuplicates (by
    rw [Outline.top_shape, specificityOf, startRoot]
    exact Outline.specificity_expandRoot d outline)
  rw [← Outline.distinctTree] at has same nodup
  generalize keptEq : outline.distinctTree d = kept at has same nodup
  have compact := has.isCompact_adopt d (missing d kept.names d.declarations)
  have followed := has.isFollowedBy d (missing d kept.names d.declarations)
  have resolved_eq : (outline.resolve d).value =
      (adopt d kept (missing d kept.names d.declarations)).compact := by
    rw [Outline.resolve, Reported.bind_value, Reported.bind_value, Reported.bind_value,
      Reported.pure_value, ← Outline.distinctTree, keptEq, adoptMissing_value]
  rw [← resolved_eq] at compact followed
  have names := followed.names_eq compact
  have rootEntry : (outline.resolve d).value.entryAt? (outline.resolve d).value.root =
      some (outline.expandRoot d).value.entry := by
    have column := congrArg (fun entries => entries[0]?) followed.entries_eq
    rw [has.attached_eq] at column
    rw [compact.root_eq]
    cases shape with
    | node id children =>
        rw [top_node, Outline.top_shape] at top
        subst top
        rw [ids_node, List.map_cons, List.cons_append, List.getElem?_cons_zero, List.getElem?_map,
          same 0, startRoot] at column
        obtain ⟨node, found, entry_eq⟩ := Option.map_eq_some_iff.mp column
        rw [entryAt?, node?, found, Option.map_some]
        exact entry_eq
  have distinct : (outline.resolve d).value.names.Nodup := by
    rw [names, List.nodup_append]
    refine ⟨nodup, nodup_missing _ _, fun name old other new => ?_⟩
    obtain ⟨orphan, missing, rfl⟩ := List.mem_map.mp new
    exact fun same => (mem_missing_iff.mp missing).2 (same ▸ old)
  refine ⟨(outline.resolve d).value, (outline.resolve d).reports, rfl, compact, ?_, ?_, ?_, ?_, ?_⟩
  · exact rootEntry
  · rw [specificityOf, rootEntry]
    exact Outline.specificity_expandRoot d outline
  · exact distinct
  · intro raw declared
    have mem : d.qualifiedName raw ∈ (outline.resolve d).value.names := by
      obtain ⟨declaration, listed, same⟩ := List.any_eq_true.mp declared
      rw [names, List.mem_append, ← beq_iff_eq.mp same]
      exact mem_present_or_missing kept.names listed
    obtain ⟨id, attached, named⟩ := List.mem_map.mp mem
    refine ⟨id, attached, named, ?_, fun other otherAttached otherNamed =>
      eq_of_nodup_map distinct otherAttached attached (otherNamed.trans named.symm)⟩
    rw [compact.attached_eq, List.mem_range] at attached
    cases found : (outline.resolve d).value.entryAt? id with
    | none => simp [entryAt?, node?, Nat.not_le.mpr attached] at found
    | some entry =>
        have faithful := followed.faithful same (Outline.faithful_expandRoot d outline) found
        rw [nameOf, found] at named
        exact congrArg some (faithful raw declared named)
  · refine ⟨_, keptEq ▸ followed, missing_sublist _ _, nodup_missing _ _, fun orphan => ?_⟩
    rw [keptEq]
    exact mem_missing_iff

end NodeWeave.Hierarchy
