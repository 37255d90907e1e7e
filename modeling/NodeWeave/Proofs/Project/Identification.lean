import NodeWeave.Proofs.Grammar.Constants
import NodeWeave.Proofs.Project.Nodes

/-!
What the constants of nodes identify. Main statement: they are distinct, and lead from the scopes of
the woven grammar to the names of their nodes, as far as no two declared names are alike.
-/

namespace NodeWeave.Project

open Hierarchy Grammar

/-! ### Declared names -/

theorem isCompact_tree (p : Project) : p.tree.value.IsCompact :=
  Outline.isCompact_resolve _ _

theorem nodup_names_tree (p : Project) : p.tree.value.names.Nodup :=
  Outline.nodup_names_resolve _ _

theorem rawNames_declared (p : Project) :
    p.declared.rawNames = p.grammar.nodeNames p.options.defaultVoid := by
  rw [Declared.rawNames, map_raw_declared, nodeNames]

theorem isDotted_of_mem_rawNames {p : Project} {path text : String}
    (read : Grammar.read path text = .ok p.grammar) {raw : String}
    (declared : raw ∈ p.declared.rawNames) : isDotted raw.toList = true := by
  rw [rawNames_declared] at declared
  exact isDotted_of_mem_nodeNames (hasNames_of_read read) declared

theorem mem_rawNames_of_openedScopes {p : Project} {scope : Scope}
    (opened : scope ∈ p.grammar.openedScopes p.style) : scope.nodeName ∈ p.declared.rawNames := by
  rw [Declared.rawNames, map_raw_declared, mem_distinct,
    ← show p.style.options = p.options from rfl, ← p.grammar.map_nodeName_openedScopes p.style]
  exact List.mem_map_of_mem opened

/-! ### Constants and names in a view -/

/-- The names in the view of a grammar, by the values of their constants. -/
def namesByValue (view : Json) : List String :=
  match view.field? "nodeConstants" with
  | some (.list entries) => entries.filterMap fun entry =>
      match entry.field? "name" with
      | some (.text name) => some name
      | _ => none
  | _ => []

theorem namesByValue_view (p : Project) : namesByValue p.view.value = p.declared.rawNames := by
  rw [view_value]
  simp [namesByValue, grammarView, Json.field?_ofFields, List.lookup_cons, constantViews,
    List.filterMap_map, List.zipIdx_map_fst]

theorem constantsOf_view (p : Project) :
    constantsOf p.view.value = numbered p.declared.rawNames := by
  rw [view_value, constantsOf_grammarView]

theorem mem_numbered_iff_getElem? {raws : List String} {constant : String} {value : Nat} :
    (constant, (value : Int)) ∈ numbered raws ↔
      ∃ raw, raws[value]? = some raw ∧ constant = nodeConstant raw := by
  rw [numbered, List.mem_map]
  constructor
  · rintro ⟨⟨raw, index⟩, listed, same⟩
    obtain ⟨rfl, numberEq⟩ := Prod.mk.inj same
    obtain rfl : index = value := Int.ofNat_inj.mp numberEq
    exact ⟨raw, List.mem_zipIdx_iff_getElem?.mp listed, rfl⟩
  · rintro ⟨raw, found, rfl⟩
    exact ⟨(raw, value), List.mem_zipIdx_iff_getElem?.mpr found, rfl⟩

def AreUnlike (names : List String) : Prop :=
  ∀ a ∈ names, ∀ b ∈ names, Alike a b → a = b

/-! ### Constants that are passed -/

/-- What the constant that a scope passes to its node says of the scope. -/
structure IsIdentified (p : Project) (scope : Scope) : Prop where
  passed : ∃ callee,
    .makeNode scope.variableType scope.names.node
        (callee ++ (if p.options.usesParser then "(this, " else "(") ++
          nodeConstant scope.nodeName ++ ")") ∈ p.style.opening scope
  declared : ∃ value : Nat,
    (nodeConstant scope.nodeName, (value : Int)) ∈ constantsOf p.view.value ∧
      (namesByValue p.view.value)[value]? = some scope.nodeName
  alike : ∀ value : Nat, (nodeConstant scope.nodeName, (value : Int)) ∈ constantsOf p.view.value ↔
    ∃ raw, (namesByValue p.view.value)[value]? = some raw ∧ Alike raw scope.nodeName
  only : (∀ value : Nat, (nodeConstant scope.nodeName, (value : Int)) ∈ constantsOf p.view.value →
      (namesByValue p.view.value)[value]? = some scope.nodeName) ↔
    ∀ raw ∈ p.declared.rawNames, Alike raw scope.nodeName → raw = scope.nodeName

section

variable {p : Project} {path text : String} (read : Grammar.read path text = .ok p.grammar)

include read

theorem nodup_constants_iff :
    ((constantsOf p.view.value).map Prod.fst).Nodup ↔ AreUnlike p.declared.rawNames := by
  have dotted : ∀ raw ∈ p.declared.rawNames, isDotted raw.toList = true :=
    fun _ => isDotted_of_mem_rawNames read
  rw [constantsOf_view, map_fst_numbered, List.nodup_map_iff_inj_on p.declared.nodup_rawNames]
  constructor
  · intro apart a first b second alike
    exact apart a first b second
      ((nodeConstant_eq_iff (dotted a first) (dotted b second)).mpr alike)
  · intro unlike a first b second same
    exact unlike a first b second
      ((nodeConstant_eq_iff (dotted a first) (dotted b second)).mp same)

theorem isIdentified_of_openedScopes {scope : Scope}
    (opened : scope ∈ p.grammar.openedScopes p.style) : p.IsIdentified scope := by
  have known := mem_rawNames_of_openedScopes opened
  have dotted : ∀ raw ∈ p.declared.rawNames, isDotted raw.toList = true :=
    fun _ => isDotted_of_mem_rawNames read
  have alike : ∀ value : Nat,
      (nodeConstant scope.nodeName, (value : Int)) ∈ constantsOf p.view.value ↔
        ∃ raw, (namesByValue p.view.value)[value]? = some raw ∧ Alike raw scope.nodeName := by
    intro value
    rw [constantsOf_view, mem_numbered_iff_getElem?, namesByValue_view]
    refine exists_congr fun raw => and_congr_right fun found => ?_
    rw [← nodeConstant_eq_iff (dotted raw (List.mem_of_getElem? found)) (dotted _ known), eq_comm]
  refine ⟨?_, ?_, alike, ?_⟩
  · obtain ⟨callee, made⟩ := p.style.exists_newNode_eq scope
    refine ⟨callee, ?_⟩
    rw [← show p.style.options = p.options from rfl, ← made]
    simp [ScopeStyle.opening, ScopeStyle.makeNode]
  · obtain ⟨value, found⟩ := List.mem_iff_getElem?.mp known
    rw [constantsOf_view, namesByValue_view]
    exact ⟨value, mem_numbered_iff_getElem?.mpr ⟨_, found, rfl⟩, found⟩
  · rw [namesByValue_view] at *
    constructor
    · intro exact_ raw listed similar
      obtain ⟨value, found⟩ := List.mem_iff_getElem?.mp listed
      have own := exact_ value ((alike value).mpr ⟨raw, found, similar⟩)
      exact Option.some.inj (found.symm.trans own)
    · intro unlike value listed
      obtain ⟨raw, found, similar⟩ := (alike value).mp listed
      rw [found, unlike raw (List.mem_of_getElem? found) similar]

/-- The constants are distinct if and only if no two declared names are alike. The constant of a
scope leads to the names that are like that of its node, and so to that one alone where no other
one is. -/
theorem identifies_of_read :
    (((constantsOf p.view.value).map Prod.fst).Nodup ↔ AreUnlike p.declared.rawNames) ∧
      ∀ scope ∈ p.grammar.openedScopes p.style, p.IsIdentified scope :=
  ⟨nodup_constants_iff read, fun _ => isIdentified_of_openedScopes read⟩

end

/-! ### Grammars -/

theorem read_of_ofText {path text output : String} {settings : Settings} {base : Switches}
    {p : Project} (loaded : ofText path text settings base output = .ok p) :
    Grammar.read path text = .ok p.grammar := by
  obtain ⟨grammar, read, loaded⟩ := exists_of_bind_eq_ok loaded
  obtain ⟨switches, -, loaded⟩ := exists_of_bind_eq_ok loaded
  cases loaded
  exact read

theorem exists_ofText {P : Project → Prop} [DecidablePred P] (text : String)
    (holds : (ofText "G.jjt" text {} {} "out").toOption.any (fun p => decide (P p)) = true) :
    ∃ p : Project, Grammar.read "G.jjt" text = .ok p.grammar ∧ P p := by
  cases loaded : ofText "G.jjt" text {} {} "out" with
  | error fault =>
      rw [loaded] at holds
      cases holds
  | ok p =>
      rw [loaded] at holds
      exact ⟨p, read_of_ofText loaded, of_decide_eq_true holds⟩

theorem identifies_of_read_dotted : ∃ p : Project,
    Grammar.read "G.jjt" "PARSER_BEGIN(P)class P{}PARSER_END(P)void A():{}{}void B()#A.b:{}{}" =
        .ok p.grammar ∧
      (constantsOf p.view.value).map Prod.fst = ["JJTA", "JJTA_B"] ∧
      ((constantsOf p.view.value).map Prod.fst).Nodup ∧
      ∀ scope ∈ p.grammar.openedScopes p.style, p.IsIdentified scope := by
  obtain ⟨p, read, names⟩ := exists_ofText (P := fun p => p.declared.rawNames = ["A", "A.b"])
    "PARSER_BEGIN(P)class P{}PARSER_END(P)void A():{}{}void B()#A.b:{}{}" (by decide +kernel)
  obtain ⟨distinct, identified⟩ := identifies_of_read read
  refine ⟨p, read, ?_, distinct.mpr ?_, identified⟩
  · rw [constantsOf_view, map_fst_numbered, names]
    decide +kernel
  · rw [names, AreUnlike]
    decide +kernel

/-- Names that differ in the case of a letter have one constant. -/
theorem not_nodup_constants_of_case : ∃ p : Project,
    Grammar.read "G.jjt" "PARSER_BEGIN(P)class P{}PARSER_END(P)void Ab():{}{}void AB():{}{}" =
        .ok p.grammar ∧
      p.declared.rawNames = ["Ab", "AB"] ∧
      (constantsOf p.view.value).map Prod.fst = ["JJTAB", "JJTAB"] ∧
      ¬ ((constantsOf p.view.value).map Prod.fst).Nodup := by
  obtain ⟨p, read, names⟩ := exists_ofText (P := fun p => p.declared.rawNames = ["Ab", "AB"])
    "PARSER_BEGIN(P)class P{}PARSER_END(P)void Ab():{}{}void AB():{}{}" (by decide +kernel)
  have constants : (constantsOf p.view.value).map Prod.fst = ["JJTAB", "JJTAB"] := by
    rw [constantsOf_view, map_fst_numbered, names]
    decide +kernel
  exact ⟨p, read, names, constants, by rw [constants]; decide⟩

end NodeWeave.Project
