import NodeWeave.Proofs.Project.Identification
import NodeWeave.Proofs.Text.LastDot

/-!
The names of nodes in the view of a grammar. Main statement: a node that the grammar names has one
name wherever the view mentions it, and it is the declared one if and only if that has no dots.
-/

namespace NodeWeave

namespace Hierarchy.TypeTree

open JavaName

/-- The name of a dotted node in views: what stands behind its last dot, and there behind the common
beginning of class names, where that begins it. -/
def lastName (nodePrefix raw : String) : String :=
  match Text.after? nodePrefix.toList (simple raw).toList with
  | some rest => String.ofList rest
  | none => simple raw

theorem dotFree_lastName (nodePrefix raw : String) : '.' ∉ (lastName nodePrefix raw).toList := by
  have free := dotFree_simple raw
  unfold lastName
  split
  · next rest found =>
      rw [String.toList_ofList]
      rw [Text.after?_eq_some_iff.mp found, List.mem_append, not_or] at free
      exact free.2
  · exact free

variable {nodePrefix package raw : String} {entry : Entry}

/-- The class of a node gives its name back where the name has no dots. -/
theorem shortName_eq (plain : '.' ∉ nodePrefix.toList)
    (derived : entry.specificity.isGrammarDerived = true)
    (named : entry.name = qualify package (nodePrefix ++ raw)) :
    shortName nodePrefix entry = if '.' ∈ raw.toList then lastName nodePrefix raw else raw := by
  rw [shortName, if_pos derived, named, simple_qualify]
  by_cases dot : '.' ∈ raw.toList
  · rw [if_pos dot, simple_append_of_dot _ dot]
    rfl
  · have whole : simple (nodePrefix ++ raw) = nodePrefix ++ raw :=
      simple_of_dotFree (by simp [plain, dot])
    have found : Text.after? nodePrefix.toList (nodePrefix ++ raw).toList = some raw.toList :=
      Text.after?_eq_some_iff.mpr String.toList_append
    rw [if_neg dot, whole, found]
    exact String.ofList_toList

theorem shortName_eq_raw_iff (plain : '.' ∉ nodePrefix.toList)
    (derived : entry.specificity.isGrammarDerived = true)
    (named : entry.name = qualify package (nodePrefix ++ raw)) :
    shortName nodePrefix entry = raw ↔ '.' ∉ raw.toList := by
  rw [shortName_eq plain derived named]
  split
  · next dot =>
      constructor
      · intro same
        exact absurd dot (same ▸ dotFree_lastName nodePrefix raw)
      · exact fun free => absurd dot free
  · next free => exact ⟨fun _ => free, fun _ => rfl⟩

end Hierarchy.TypeTree

namespace Project

open Hierarchy

/-! ### Mentions of nodes -/

def nameIn? (mention : Json) : Option String :=
  match mention.field? "name" with
  | some (.text name) => some name
  | _ => none

/-- The neighbours that the view of a node mentions: the one above it, and those below it. -/
def neighboursIn (bean : Json) : List Json :=
  (match bean.field? "superNode" with
    | some (.object fields) => [.object fields]
    | _ => []) ++
    match bean.field? "subNodes" with
    | some (.list mentions) => mentions
    | _ => []

section

variable {tree : TypeTree} {nodePrefix : String} {id : Nat} {node : TypeNode} {entry : Entry}

theorem nameIn?_nodeView : nameIn? (tree.nodeView nodePrefix id node) =
    some (TypeTree.shortName nodePrefix node.entry) := by
  simp [nameIn?, TypeTree.nodeView, Json.field?_ofFields, List.lookup_cons]

theorem nameIn?_referenceView : nameIn? (TypeTree.referenceView nodePrefix entry) =
    some (TypeTree.shortName nodePrefix entry) := by
  simp [nameIn?, TypeTree.referenceView, Json.field?_ofFields, List.lookup_cons]

theorem classOf_referenceView : classOf (TypeTree.referenceView nodePrefix entry) = entry.name := by
  simp [classOf, TypeTree.referenceView, classView, Json.field?_ofFields, List.lookup_cons]

theorem exists_entryAt_of_neighboursIn {mention : Json}
    (mem : mention ∈ neighboursIn (tree.nodeView nodePrefix id node)) :
    ∃ other entry, tree.entryAt? other = some entry ∧
      mention = TypeTree.referenceView nodePrefix entry := by
  have above : (tree.nodeView nodePrefix id node).field? "superNode" =
      some (((node.parent.bind tree.entryAt?).map (TypeTree.referenceView nodePrefix)).getD
        .null) := by
    simp [TypeTree.nodeView, Json.field?_ofFields, List.lookup_cons]
  have below : (tree.nodeView nodePrefix id node).field? "subNodes" =
      some (.list (node.children.filterMap fun child =>
        (tree.entryAt? child).map (TypeTree.referenceView nodePrefix))) := by
    simp [TypeTree.nodeView, Json.field?_ofFields, List.lookup_cons]
  rw [neighboursIn, above, below, List.mem_append] at mem
  rcases mem with mem | mem
  · cases parent : node.parent.bind tree.entryAt? with
    | none => simp [parent] at mem
    | some entry =>
        obtain ⟨other, -, found⟩ := Option.bind_eq_some_iff.mp parent
        refine ⟨other, entry, found, ?_⟩
        rw [parent] at mem
        exact List.mem_singleton.mp mem
  · obtain ⟨child, -, found⟩ := List.mem_filterMap.mp mem
    obtain ⟨entry, stands, rfl⟩ := Option.map_eq_some_iff.mp found
    exact ⟨child, entry, stands, rfl⟩

theorem mem_attached_of_entryAt? (compact : tree.IsCompact)
    (found : tree.entryAt? id = some entry) : id ∈ tree.attached := by
  obtain ⟨node, stands, -⟩ := Option.map_eq_some_iff.mp found
  rw [compact.attached_eq, List.mem_range]
  exact (List.getElem?_eq_some_iff.mp stands).1

theorem eq_of_name_eq (compact : tree.IsCompact) (nodup : tree.names.Nodup) {a b : Nat}
    {first second : Entry} (foundFirst : tree.entryAt? a = some first)
    (foundSecond : tree.entryAt? b = some second) (same : first.name = second.name) :
    first = second := by
  have equal : a = b := by
    apply eq_of_nodup_map nodup (mem_attached_of_entryAt? compact foundFirst)
      (mem_attached_of_entryAt? compact foundSecond)
    rw [TypeTree.nameOf, TypeTree.nameOf, foundFirst, foundSecond]
    exact same
  rw [equal, foundSecond] at foundFirst
  exact (Option.some.inj foundFirst).symm

end

/-! ### Names in a view -/

/-- The view has a node of the class, and it has this name wherever the view mentions it. -/
structure IsCalled (view : Json) (className name : String) : Prop where
  listed : className ∈ (nodesOf view).map classOf
  node : ∀ bean ∈ nodesOf view, classOf bean = className → nameIn? bean = some name
  neighbour : ∀ bean ∈ nodesOf view, ∀ mention ∈ neighboursIn bean,
    classOf mention = className → nameIn? mention = some name

theorem nodesOf_view (p : Project) :
    nodesOf p.view.value = p.tree.value.views p.options.nodePrefix := by
  rw [view_value, nodesOf_grammarView]
  rfl

theorem isCalled_shortName (p : Project) {id : Nat} {entry : Entry}
    (found : p.tree.value.entryAt? id = some entry) :
    IsCalled p.view.value entry.name (TypeTree.shortName p.options.nodePrefix entry) := by
  have unique : ∀ {other : Nat} {second : Entry}, p.tree.value.entryAt? other = some second →
      second.name = entry.name → second = entry :=
    fun stands same => eq_of_name_eq p.isCompact_tree p.nodup_names_tree stands found same
  have exists_node : ∀ bean ∈ nodesOf p.view.value, ∃ other node,
      p.tree.value.node? other = some node ∧
        bean = p.tree.value.nodeView p.options.nodePrefix other node := by
    intro bean mem
    rw [nodesOf_view, TypeTree.views, List.mem_filterMap] at mem
    obtain ⟨other, -, shown⟩ := mem
    obtain ⟨node, stands, rfl⟩ := Option.map_eq_some_iff.mp shown
    exact ⟨other, node, stands, rfl⟩
  refine ⟨?_, ?_, ?_⟩
  · rw [nodesOf_view, map_classOf_views p.isCompact_tree, TypeTree.names]
    refine List.mem_map.mpr ⟨id, mem_attached_of_entryAt? p.isCompact_tree found, ?_⟩
    rw [TypeTree.nameOf, found]
    rfl
  · intro bean mem same
    obtain ⟨other, node, stands, rfl⟩ := exists_node bean mem
    rw [classOf_nodeView] at same
    rw [nameIn?_nodeView, unique (by rw [TypeTree.entryAt?, stands]; rfl) same]
  · intro bean mem mention inside same
    obtain ⟨other, node, -, rfl⟩ := exists_node bean mem
    obtain ⟨neighbour, second, stands, rfl⟩ := exists_entryAt_of_neighboursIn inside
    rw [classOf_referenceView] at same
    rw [nameIn?_referenceView, unique stands same]

/-! ### Nodes that nothing was written for -/

/-- The hierarchy of a project with names for classes, before nodes are removed and adopted. -/
def expandedHierarchy (p : Project) : Outline :=
  ((Outline.ofYaml p.settings.hierarchy).value.expandRoot p.declared).value

/-- A class that the written hierarchy does not name is that of a node of the grammar. -/
theorem isGrammarDerived_of_unwritten {p : Project} {id : Nat} {entry : Entry}
    (found : p.tree.value.entryAt? id = some entry)
    (unwritten : entry.name ∉ p.expandedHierarchy.entries.map Entry.name) :
    entry.specificity.isGrammarDerived = true := by
  obtain ⟨shape, -, same, -⟩ :=
    (Outline.ofYaml p.settings.hierarchy).value.exists_hasShape_distinctTree p.declared
  have followed := (Outline.ofYaml p.settings.hierarchy).value.isFollowedBy_resolve p.declared
  rcases followed.mem_entries_or_exists_orphan same found with old | ⟨orphan, -, rfl⟩
  · exact absurd (List.mem_map_of_mem old) unwritten
  · rfl

theorem exists_entryAt_of_mem_rawNames {p : Project} {raw : String}
    (declared : raw ∈ p.declared.rawNames) :
    ∃ id entry, p.tree.value.entryAt? id = some entry ∧
      entry.name = p.options.qualifiedName raw := by
  rw [Declared.rawNames, Grammar.mem_distinct, List.mem_map] at declared
  obtain ⟨declaration, listed, rfl⟩ := declared
  have stands := (Outline.ofYaml p.settings.hierarchy).value.mem_names_resolve listed
  obtain ⟨id, attached, named⟩ := List.mem_map.mp stands
  have inside : id < p.tree.value.nodes.length :=
    List.mem_range.mp (p.isCompact_tree.attached_eq ▸ attached)
  have found : p.tree.value.entryAt? id = some p.tree.value.nodes[id].entry := by
    simp [TypeTree.entryAt?, TypeTree.node?, inside]
  refine ⟨id, _, found, ?_⟩
  have same : p.tree.value.nameOf id = p.declared.qualifiedName declaration.raw := named
  rw [TypeTree.nameOf, found] at same
  exact same

/-- A declared node that the written hierarchy does not name. -/
theorem exists_derived_of_unwritten {p : Project} {raw : String}
    (declared : raw ∈ p.declared.rawNames)
    (unwritten : p.options.qualifiedName raw ∉ p.expandedHierarchy.entries.map Entry.name) :
    ∃ id entry, p.tree.value.entryAt? id = some entry ∧
      entry.specificity.isGrammarDerived = true ∧ entry.name = p.options.qualifiedName raw := by
  obtain ⟨id, entry, found, named⟩ := exists_entryAt_of_mem_rawNames declared
  exact ⟨id, entry, found, isGrammarDerived_of_unwritten found (named ▸ unwritten), named⟩

/-! ### Names of nodes of the grammar -/

/-- A node of the tree that the grammar names has one name in the view, the constants list it with
its declared name, and these are the same if and only if the declared name has no dots. -/
theorem isCalled_of_isGrammarDerived {p : Project} (plain : '.' ∉ p.options.nodePrefix.toList)
    {id : Nat} {entry : Entry} (found : p.tree.value.entryAt? id = some entry)
    (derived : entry.specificity.isGrammarDerived = true) {raw : String}
    (declared : raw ∈ p.declared.rawNames) (named : entry.name = p.options.qualifiedName raw) :
    ∃ name, IsCalled p.view.value entry.name name ∧ (name = raw ↔ '.' ∉ raw.toList) ∧
      ('.' ∈ raw.toList → name = TypeTree.lastName p.options.nodePrefix raw) ∧
      ∃ value : Nat, (namesByValue p.view.value)[value]? = some raw ∧
        (Grammar.nodeConstant raw, (value : Int)) ∈ constantsOf p.view.value := by
  refine ⟨_, p.isCalled_shortName found, TypeTree.shortName_eq_raw_iff plain derived named, ?_, ?_⟩
  · intro dot
    rw [TypeTree.shortName_eq plain derived named, if_pos dot]
  · obtain ⟨value, stands⟩ := List.mem_iff_getElem?.mp declared
    rw [namesByValue_view, constantsOf_view]
    exact ⟨value, stands, mem_numbered_iff_getElem?.mpr ⟨raw, stands, rfl⟩⟩

theorem isCalled_of_isGrammarDerived_plain : ∃ (p : Project) (id : Nat) (entry : Entry),
    Grammar.read "G.jjt" "PARSER_BEGIN(P)class P{}PARSER_END(P)void A():{}{}" = .ok p.grammar ∧
      '.' ∉ p.options.nodePrefix.toList ∧ p.tree.value.entryAt? id = some entry ∧
      entry.specificity.isGrammarDerived = true ∧ "A" ∈ p.declared.rawNames ∧
      entry.name = p.options.qualifiedName "A" ∧ IsCalled p.view.value entry.name "A" := by
  obtain ⟨p, read, plain, declared, unwritten⟩ := exists_ofText
    (P := fun p => '.' ∉ p.options.nodePrefix.toList ∧ "A" ∈ p.declared.rawNames ∧
      p.options.qualifiedName "A" ∉ p.expandedHierarchy.entries.map Entry.name)
    "PARSER_BEGIN(P)class P{}PARSER_END(P)void A():{}{}" (by decide +kernel)
  obtain ⟨id, entry, found, derived, named⟩ := exists_derived_of_unwritten declared unwritten
  obtain ⟨name, called, same, -⟩ := isCalled_of_isGrammarDerived plain found derived declared named
  obtain rfl := same.mpr (by decide)
  exact ⟨p, id, entry, read, plain, found, derived, declared, named, called⟩

/-- A dotted name is cut at its last dot. -/
theorem isCalled_of_dotted : ∃ (p : Project) (id : Nat) (entry : Entry),
    Grammar.read "G.jjt" "PARSER_BEGIN(P)class P{}PARSER_END(P)void B()#A.b:{}{}" =
        .ok p.grammar ∧
      p.options.nodePrefix = "AST" ∧ p.tree.value.entryAt? id = some entry ∧
      entry.specificity.isGrammarDerived = true ∧ "A.b" ∈ p.declared.rawNames ∧
      entry.name = p.options.qualifiedName "A.b" ∧ IsCalled p.view.value entry.name "b" := by
  obtain ⟨p, read, plain, declared, unwritten⟩ := exists_ofText
    (P := fun p => p.options.nodePrefix = "AST" ∧ "A.b" ∈ p.declared.rawNames ∧
      p.options.qualifiedName "A.b" ∉ p.expandedHierarchy.entries.map Entry.name)
    "PARSER_BEGIN(P)class P{}PARSER_END(P)void B()#A.b:{}{}" (by decide +kernel)
  obtain ⟨id, entry, found, derived, named⟩ := exists_derived_of_unwritten declared unwritten
  refine ⟨p, id, entry, read, plain, found, derived, declared, named, ?_⟩
  have short : TypeTree.shortName p.options.nodePrefix entry = "b" := by
    rw [TypeTree.shortName_eq (by rw [plain]; decide) derived named, plain]
    decide +kernel
  exact short ▸ p.isCalled_shortName found

end Project

end NodeWeave
