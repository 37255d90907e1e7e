import NodeWeave.Project.Jobs
import NodeWeave.Proofs.Hierarchy.Names
import NodeWeave.Proofs.Woven.Openings

/-!
The woven grammar, the tree of classes and the constants of a project agree on its nodes: what the
weaver opens has its class once in the tree, and its constant is among those that are listed.
-/

namespace NodeWeave

/-! ### Fields of views -/

theorem Index.lookup_ofList {α : Type} (values : List (String × α)) (name : String) :
    (Index.ofList values).lookup name = values.reverse.lookup name := by
  have folded : ∀ (values : List (String × α)) (index : Index α),
      (values.foldl (fun index entry => Index.insert entry.1 entry.2 index) index).lookup name =
        (values.reverse.lookup name).or (index.lookup name) := by
    intro values
    induction values with
    | nil => exact fun index => rfl
    | cons entry rest ih =>
        intro index
        obtain ⟨other, value⟩ := entry
        rw [List.foldl_cons, ih, List.reverse_cons, List.lookup_append, Option.or_assoc]
        congr 1
        by_cases same : name = other
        · subst same
          simp [Index.lookup_insert_self]
        · simp [Index.lookup_insert_of_ne same, List.lookup_cons, beq_eq_false_iff_ne.mpr same]
  have ofList : Index.ofList values =
      values.foldl (fun index entry => Index.insert entry.1 entry.2 index) [] := rfl
  rw [ofList, folded, List.lookup_nil, Option.or_none]

theorem Json.field?_ofFields (fields : List (String × Json)) (name : String) :
    (Json.ofFields fields).field? name = fields.reverse.lookup name :=
  Index.lookup_ofList fields name

namespace Project

open Hierarchy

/-- A constant in a view: its name and its value. -/
def constantOf (entry : Json) : Option (String × Int) :=
  match entry.field? "constant", entry.field? "value" with
  | some (.text constant), some (.int value) => some (constant, value)
  | _, _ => none

def constantsOf (view : Json) : List (String × Int) :=
  match view.field? "nodeConstants" with
  | some (.list entries) => entries.filterMap constantOf
  | _ => []

/-- The constants of nodes, counted from zero. -/
def numbered (raws : List String) : List (String × Int) :=
  raws.zipIdx.map fun (raw, value) => (Grammar.nodeConstant raw, (value : Int))

theorem map_fst_numbered (raws : List String) :
    (numbered raws).map Prod.fst = raws.map Grammar.nodeConstant := by
  calc
    _ = (raws.zipIdx.map Prod.fst).map Grammar.nodeConstant := by
      rw [numbered, List.map_map, List.map_map]
      rfl
    _ = raws.map Grammar.nodeConstant := by rw [List.zipIdx_map_fst]

theorem classOf_nodeView (tree : TypeTree) (nodePrefix : String) (id : Nat) (node : TypeNode) :
    classOf (tree.nodeView nodePrefix id node) = node.entry.name := by
  simp [classOf, TypeTree.nodeView, classView, Json.field?_ofFields, List.lookup_cons]

variable (name : String) (options : Grammar.NodeOptions) (d : Declared) (tree : TypeTree)

theorem nodesOf_grammarView :
    nodesOf (grammarView name options d tree) = tree.views options.nodePrefix := by
  simp [nodesOf, grammarView, Json.field?_ofFields, List.lookup_cons]

theorem constantsOf_grammarView :
    constantsOf (grammarView name options d tree) = numbered d.rawNames := by
  simp [constantsOf, grammarView, Json.field?_ofFields, List.lookup_cons, constantViews, constantOf,
    numbered, List.filterMap_map, Function.comp_def]

variable {tree}

theorem map_classOf_views (compact : tree.IsCompact) (nodePrefix : String) :
    (tree.views nodePrefix).map classOf = tree.names := by
  rw [TypeTree.views, TypeTree.names, compact.attached_eq, List.map_filterMap]
  refine List.filterMap_eq_map_iff_forall_eq_some.mpr ?_
  intro id inside
  rw [List.mem_range] at inside
  have stands : tree.node? id = some (tree.nodes.get ⟨id, inside⟩) :=
    List.getElem?_eq_getElem inside
  rw [stands, Option.map_some, Option.map_some, classOf_nodeView, TypeTree.nameOf,
    TypeTree.entryAt?, stands]
  rfl

/-! ### Agreement -/

/-- How the scopes of the woven grammar are written. -/
def style (p : Project) : ScopeStyle where
  options := p.options
  switches := p.switches

/-- What the scopes in a woven grammar, in the order of its text, and the view of the grammar have
to do with each other. -/
structure AgreesOnNodes (p : Project) (scopes : List Scope) (view : Json) : Prop where
  rendered : p.woven = Piece.render (p.grammar.wovenPieces p.style)
  opened : (p.grammar.weaveItems p.style).flatMap WovenItem.openings = scopes.map p.style.opening
  written : (scopes.flatMap fun scope => Statement.lines (p.style.opening scope)).Sublist
    (Piece.lineTexts (p.grammar.wovenPieces p.style))
  owned : scopes.map Scope.nodeName =
    (p.grammar.owners p.options.defaultVoid).map Grammar.Owner.name
  classes : ∀ scope ∈ scopes, scope.nodeClass = p.options.qualifiedName scope.nodeName ∧
    ((nodesOf view).map classOf).count scope.nodeClass = 1
  passed : ∀ scope ∈ scopes, ∃ callee,
    .makeNode scope.variableType scope.names.node
        (callee ++ (if p.options.usesParser then "(this, " else "(") ++
          Grammar.nodeConstant scope.nodeName ++ ")") ∈ p.style.opening scope ∧
      Grammar.nodeConstant scope.nodeName ∈ (constantsOf view).map Prod.fst
  used : ∀ constant ∈ (constantsOf view).map Prod.fst,
    ∃ scope ∈ scopes, constant = Grammar.nodeConstant scope.nodeName
  counted : constantsOf view = numbered (Grammar.distinct (scopes.map Scope.nodeName))

theorem mem_numbered_iff {scopes : List Scope} {constant : String} :
    constant ∈ (numbered (Grammar.distinct (scopes.map Scope.nodeName))).map Prod.fst ↔
      ∃ scope ∈ scopes, constant = Grammar.nodeConstant scope.nodeName := by
  rw [map_fst_numbered, List.mem_map]
  constructor
  · rintro ⟨raw, mem, rfl⟩
    obtain ⟨scope, opened, rfl⟩ := List.mem_map.mp (Grammar.mem_distinct.mp mem)
    exact ⟨scope, opened, rfl⟩
  · rintro ⟨scope, opened, rfl⟩
    exact ⟨scope.nodeName, Grammar.mem_distinct.mpr (List.mem_map_of_mem opened), rfl⟩

theorem map_raw_declared (p : Project) : p.declared.declarations.map Declaration.raw =
    (p.grammar.owners p.options.defaultVoid).map Grammar.Owner.name := by
  rw [declared, Declared.ofGrammar, List.map_map]
  rfl

theorem view_value (p : Project) : p.view.value = grammarView p.name p.options p.declared
    ((Outline.ofYaml p.settings.hierarchy).value.resolve p.declared).value := rfl

/-- The woven grammar of any project agrees with its tree of classes and its constants. -/
theorem agreesOnNodes (p : Project) :
    p.AgreesOnNodes (p.grammar.openedScopes p.style) p.view.value := by
  have owned := p.grammar.map_nodeName_openedScopes p.style
  have counted : constantsOf p.view.value =
      numbered (Grammar.distinct ((p.grammar.openedScopes p.style).map Scope.nodeName)) := by
    rw [view_value, constantsOf_grammarView, Declared.rawNames, map_raw_declared, owned]
    rfl
  refine ⟨rfl, p.grammar.openings_weaveItems p.style, p.grammar.sublist_openedScopes p.style,
    owned, ?_, ?_, ?_, counted⟩
  · intro scope opened
    have named := Grammar.nodeClass_of_mem_openedScopes opened
    refine ⟨named, ?_⟩
    have mem : scope.nodeName ∈ p.declared.declarations.map Declaration.raw := by
      rw [map_raw_declared, ← show p.style.options = p.options from rfl, ← owned]
      exact List.mem_map_of_mem opened
    obtain ⟨declaration, listed, raw_eq⟩ := List.mem_map.mp mem
    have once := (Outline.ofYaml p.settings.hierarchy).value.count_names_resolve listed
    rw [view_value, nodesOf_grammarView, map_classOf_views (Outline.isCompact_resolve _ _), named,
      ← raw_eq]
    exact once
  · intro scope opened
    obtain ⟨callee, made⟩ := p.style.exists_newNode_eq scope
    refine ⟨callee, ?_, ?_⟩
    · rw [← show p.style.options = p.options from rfl, ← made]
      simp [ScopeStyle.opening, ScopeStyle.makeNode]
    · rw [counted]
      exact mem_numbered_iff.mpr ⟨scope, opened, rfl⟩
  · intro constant listed
    rw [counted] at listed
    exact mem_numbered_iff.mp listed

end Project

end NodeWeave
