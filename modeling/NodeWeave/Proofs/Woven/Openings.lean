import NodeWeave.Woven.Printer

/-!
The scopes that a woven grammar opens, in the order of its text, are those of the annotations and
productions that open a node, in the order of declaration.
-/

namespace NodeWeave

open Grammar

/-! ### What a woven grammar opens -/

namespace Woven

mutual
/-- The statements that open the scopes of a woven expansion, in the order of its text. -/
def openings : Woven → List (List Statement)
  | element _ => []
  | action _ => []
  | earlyClose _ => []
  | sequence units => openingsAll units
  | choice alternatives => openingsAll alternatives
  | group inner _ => openings inner
  | optional inner => openings inner
  | guarded inner _ _ => openings inner
  | scope _ opening body _ => opening :: openings body

def openingsAll : List Woven → List (List Statement)
  | [] => []
  | unit :: rest => openings unit ++ openingsAll rest
end

end Woven

namespace WovenProduction

def openings : WovenProduction → List (List Statement)
  | rules _ _ body => body.openings
  | scopedRules _ _ opening _ body _ => opening :: body.openings
  | code _ _ => []
  | scopedCode _ _ opening _ _ => [opening]

end WovenProduction

namespace WovenItem

def openings : WovenItem → List (List Statement)
  | production p => p.openings
  | options _ => []
  | parser _ _ => []
  | verbatim _ => []

end WovenItem

/-! ### The lines of the openings -/

namespace Piece

def lineTexts (pieces : List Piece) : List String :=
  pieces.filterMap fun
    | line _ text => some text
    | _ => none

@[simp] theorem lineTexts_nil : lineTexts [] = [] := rfl

@[simp] theorem lineTexts_append (first second : List Piece) :
    lineTexts (first ++ second) = lineTexts first ++ lineTexts second :=
  List.filterMap_append

@[simp] theorem lineTexts_line (level : Nat) (text : String) (rest : List Piece) :
    lineTexts (line level text :: rest) = text :: lineTexts rest := rfl

@[simp] theorem lineTexts_raw (text : String) (rest : List Piece) :
    lineTexts (raw text :: rest) = lineTexts rest := rfl

@[simp] theorem lineTexts_regionStart (level : Nat) (label : Option String) (rest : List Piece) :
    lineTexts (regionStart level label :: rest) = lineTexts rest := rfl

@[simp] theorem lineTexts_regionStop (level : Nat) (rest : List Piece) :
    lineTexts (regionStop level :: rest) = lineTexts rest := rfl

/-- What is written as lines around a body keeps the lines of the body. -/
theorem sublist_lineTexts_block {level : Nat} {head : String} {body : List Piece}
    {lines : List String} (inside : lines.Sublist (lineTexts body)) :
    lines.Sublist (lineTexts (block level head body)) := by
  rw [block, List.cons_append, lineTexts_line, lineTexts_append]
  exact (inside.trans (List.sublist_append_left _ _)).cons _

end Piece

namespace Statement

def lines (statements : List Statement) : List String :=
  Piece.lineTexts (piecesAll 0 statements)

mutual
theorem lineTexts_pieces (level : Nat) : ∀ statement : Statement,
    Piece.lineTexts (pieces level statement) = Piece.lineTexts (pieces 0 statement)
  | ifFlag flag body => by
      simp [pieces, Piece.block, lineTexts_piecesAll (level + 1) body,
        lineTexts_piecesAll 1 body]
  | ifFlagElse flag body otherwise => by
      simp [pieces, lineTexts_piecesAll (level + 1) body, lineTexts_piecesAll 1 body,
        lineTexts_piecesAll (level + 1) otherwise, lineTexts_piecesAll 1 otherwise]
  | rethrow exception type => by simp [pieces, Piece.block]
  | makeNode _ _ _ | raiseFlag _ | lowerFlag _ | openScope _ | closeScope _ _ | clearScope _
  | popNode | openHook _ | closeHook _ | firstToken _ | lastToken _ | throwAsError _ => by
      simp [pieces]

theorem lineTexts_piecesAll (level : Nat) : ∀ statements : List Statement,
    Piece.lineTexts (piecesAll level statements) = lines statements
  | [] => rfl
  | statement :: rest => by
      rw [lines, piecesAll, piecesAll, Piece.lineTexts_append, Piece.lineTexts_append,
        lineTexts_pieces level statement, lineTexts_piecesAll level rest, lines]
end

end Statement

namespace Guard

theorem sublist_lineTexts_around (guard : Guard) (level : Nat) {body : List Piece}
    {lines : List String} (inside : lines.Sublist (Piece.lineTexts body)) :
    lines.Sublist (Piece.lineTexts (guard.around level body)) := by
  simp only [around, List.cons_append, List.append_assoc, Piece.lineTexts_line,
    Piece.lineTexts_regionStop, Piece.lineTexts_append]
  exact (inside.trans (List.sublist_append_left _ _)).cons _

end Guard

namespace Woven

def openingLines (openings : List (List Statement)) : List String :=
  openings.flatMap Statement.lines

@[simp] theorem openingLines_append (first second : List (List Statement)) :
    openingLines (first ++ second) = openingLines first ++ openingLines second :=
  List.flatMap_append

mutual
theorem sublist_openings (level : Nat) : ∀ woven : Woven,
    (openingLines woven.openings).Sublist (Piece.lineTexts (woven.pieces level))
  | element _ | action _ | earlyClose _ => List.nil_sublist _
  | sequence units => by
      rw [openings, pieces]
      exact sublist_openingsAll level units
  | choice alternatives => by
      rw [openings, pieces]
      exact sublist_alternatives level alternatives
  | group inner occurrence => by
      rw [openings, pieces, List.cons_append, Piece.lineTexts_line, Piece.lineTexts_append]
      exact ((sublist_openings (level + 1) inner).trans (List.sublist_append_left _ _)).cons _
  | optional inner => by
      rw [openings, pieces, List.cons_append, Piece.lineTexts_line, Piece.lineTexts_append]
      exact ((sublist_openings (level + 1) inner).trans (List.sublist_append_left _ _)).cons _
  | guarded inner catches finallyCode => by
      rw [openings, pieces, List.cons_append, Piece.lineTexts_line, Piece.lineTexts_append]
      exact ((sublist_openings (level + 1) inner).trans (List.sublist_append_left _ _)).cons _
  | scope label opening body guard => by
      have own : (Statement.lines opening).Sublist (Piece.lineTexts
          (Piece.block level "" (Statement.piecesAll (level + 1) opening))) := by
        rw [← Statement.lineTexts_piecesAll (level + 1)]
        exact Piece.sublist_lineTexts_block (List.Sublist.refl _)
      have below := guard.sublist_lineTexts_around level (sublist_openings (level + 1) body)
      rw [openings, pieces]
      simp only [List.cons_append, List.append_assoc, Piece.lineTexts_regionStart,
        Piece.lineTexts_append]
      exact own.append (below.trans (List.sublist_append_left _ _))

theorem sublist_openingsAll (level : Nat) : ∀ units : List Woven,
    (openingLines (openingsAll units)).Sublist (Piece.lineTexts (piecesAll level units))
  | [] => List.nil_sublist _
  | unit :: rest => by
      rw [openingsAll, piecesAll, openingLines_append, Piece.lineTexts_append]
      exact (sublist_openings level unit).append (sublist_openingsAll level rest)

theorem sublist_alternatives (level : Nat) : ∀ alternatives : List Woven,
    (openingLines (openingsAll alternatives)).Sublist
      (Piece.lineTexts (alternativePieces level alternatives))
  | [] => List.nil_sublist _
  | [last] => by
      rw [openingsAll, openingsAll, alternativePieces, List.append_nil]
      exact sublist_openings level last
  | first :: second :: rest => by
      rw [openingsAll, alternativePieces, openingLines_append, Piece.lineTexts_append,
        Piece.lineTexts_line]
      · exact (sublist_openings level first).append
          ((sublist_alternatives level (second :: rest)).cons _)
      · exact nofun
end

end Woven

/-! ### Productions and whole grammars -/

namespace WovenProduction

theorem sublist_openings (woven : WovenProduction) :
    (Woven.openingLines woven.openings).Sublist (Piece.lineTexts woven.pieces) := by
  cases woven with
  | rules header declarations body =>
      simp only [openings, pieces, List.cons_append, List.nil_append, Piece.lineTexts_line,
        Piece.lineTexts_raw, Piece.lineTexts_append]
      exact (((body.sublist_openings 1).trans (List.sublist_append_left _ _)).cons _).cons _
  | scopedRules header nodeName opening declarations body guard =>
      have below := guard.sublist_lineTexts_around 1 (body.sublist_openings 2)
      simp only [openings, pieces, List.cons_append, List.nil_append, List.append_assoc,
        Piece.lineTexts_line, Piece.lineTexts_raw, Piece.lineTexts_regionStart,
        Piece.lineTexts_regionStop, Piece.lineTexts_append, Statement.lineTexts_piecesAll]
      exact ((List.Sublist.refl (Statement.lines opening)).append
        (below.trans (List.sublist_append_left _ _))).cons _
  | code header text => exact List.nil_sublist _
  | scopedCode header nodeName opening text guard =>
      simp only [openings, pieces, List.cons_append, List.nil_append, List.append_assoc,
        Piece.lineTexts_line, Piece.lineTexts_raw, Piece.lineTexts_regionStart,
        Piece.lineTexts_append, Statement.lineTexts_piecesAll, Woven.openingLines,
        List.flatMap_cons, List.flatMap_nil, List.append_nil]
      exact (List.sublist_append_left _ _).cons _

end WovenProduction

namespace WovenItem

theorem sublist_openings (item : WovenItem) :
    (Woven.openingLines item.openings).Sublist (Piece.lineTexts item.pieces) := by
  cases item with
  | production p => exact p.sublist_openings
  | options _ | parser _ _ | verbatim _ => exact List.nil_sublist _

theorem sublist_openingsAll (items : List WovenItem) :
    (Woven.openingLines (items.flatMap openings)).Sublist (Piece.lineTexts (piecesAll items)) := by
  induction items with
  | nil => exact List.nil_sublist _
  | cons item rest ih =>
      cases rest with
      | nil =>
          rw [List.flatMap_cons, List.flatMap_nil, List.append_nil, piecesAll]
          exact item.sublist_openings
      | cons second rest =>
          rw [List.flatMap_cons, piecesAll, Woven.openingLines_append, Piece.lineTexts_append,
            Piece.lineTexts_line]
          · exact item.sublist_openings.append (ih.cons _)
          · exact nofun

end WovenItem

/-! ### The scopes of a grammar -/

namespace ScopeStyle

variable {style : ScopeStyle} {opener : Opener} {depth : Nat} {scope : Scope}

theorem open?_nodeClass (opened : style.open? opener depth = some scope) :
    scope.nodeClass = style.options.qualifiedName scope.nodeName := by
  simp only [open?, Option.map_eq_some_iff] at opened
  obtain ⟨name, _, rfl⟩ := opened
  rfl

theorem map_nodeName_open? (style : ScopeStyle) (opener : Opener) (depth : Nat) :
    (style.open? opener depth).map Scope.nodeName =
      opener.nodeName? style.options.defaultVoid := by
  rw [open?, Option.map_map]
  exact Option.map_id'

/-- Whatever makes the node, the constant of the node is the last argument. -/
theorem exists_newNode_eq (style : ScopeStyle) (scope : Scope) : ∃ callee,
    style.newNode scope =
      callee ++ (if style.options.usesParser then "(this, " else "(") ++
        nodeConstant scope.nodeName ++ ")" := by
  have last : ∀ callee front : String, callee ++ (front ++ nodeConstant scope.nodeName ++ ")") =
      callee ++ front ++ nodeConstant scope.nodeName ++ ")" := by
    intro callee front
    simp only [String.append_assoc]
  unfold newNode
  cases style.options.usesParser <;> dsimp only <;> split <;> exact ⟨_, last _ _⟩

end ScopeStyle

namespace Grammar

namespace Expansion

mutual
/-- The scopes that the weaver opens in an expansion around which so many scopes are open, outer
ones before inner ones, left before right. -/
def openedScopes (style : ScopeStyle) (depth : Nat) : Expansion → List Scope
  | sequence units => openedScopesAll style depth units
  | choice alternatives => openedScopesAll style depth alternatives
  | group inner _ => openedScopes style depth inner
  | optional inner => openedScopes style depth inner
  | annotated inner node =>
      match style.open? (.unit node) depth with
      | none => openedScopes style depth inner
      | some opened => opened :: openedScopes style (depth + 1) inner
  | guarded inner _ _ => openedScopes style depth inner
  | lookahead _ => []
  | action _ => []
  | reference _ _ _ => []
  | terminal _ _ => []

def openedScopesAll (style : ScopeStyle) (depth : Nat) : List Expansion → List Scope
  | [] => []
  | unit :: rest => openedScopes style depth unit ++ openedScopesAll style depth rest
end

theorem preorderAll_eq_flatMap (units : List Expansion) :
    preorderAll units = units.flatMap preorder := by
  induction units with
  | nil => rfl
  | cons unit rest ih => rw [preorderAll, ih, List.flatMap_cons]

@[simp] theorem scopes_sequence (units : List Expansion) :
    (sequence units).scopes = units.flatMap scopes := by
  simp [scopes, preorder, preorderAll_eq_flatMap, List.filterMap_flatMap]
  rfl

@[simp] theorem scopes_choice (alternatives : List Expansion) :
    (choice alternatives).scopes = alternatives.flatMap scopes := by
  simp [scopes, preorder, preorderAll_eq_flatMap, List.filterMap_flatMap]
  rfl

theorem scopes_annotated (inner : Expansion) (node : Descriptor) :
    (annotated inner node).scopes =
      if node.isVoid then inner.scopes else node :: inner.scopes := by
  cases void : node.isVoid <;> simp [scopes, preorder, void]

mutual
theorem map_nodeName_openedScopes (style : ScopeStyle) (depth : Nat) : ∀ e : Expansion,
    (e.openedScopes style depth).map Scope.nodeName = e.scopes.map Descriptor.name
  | sequence units => by
      rw [openedScopes, scopes_sequence, map_nodeName_openedScopesAll style depth units]
  | choice alternatives => by
      rw [openedScopes, scopes_choice, map_nodeName_openedScopesAll style depth alternatives]
  | group inner _ => by
      rw [openedScopes, map_nodeName_openedScopes style depth inner]
      simp [scopes, preorder]
  | optional inner => by
      rw [openedScopes, map_nodeName_openedScopes style depth inner]
      simp [scopes, preorder]
  | guarded inner _ _ => by
      rw [openedScopes, map_nodeName_openedScopes style depth inner]
      simp [scopes, preorder]
  | annotated inner node => by
      have named := style.map_nodeName_open? (.unit node) depth
      rw [openedScopes, scopes_annotated]
      cases void : node.isVoid with
      | true =>
          rw [Opener.nodeName?, if_pos void, Option.map_eq_none_iff] at named
          rw [named]
          exact map_nodeName_openedScopes style depth inner
      | false =>
          rw [Opener.nodeName?, void, if_neg Bool.false_ne_true, Option.map_eq_some_iff] at named
          obtain ⟨opened, found, name_eq⟩ := named
          rw [found, if_neg Bool.false_ne_true, List.map_cons, List.map_cons, name_eq,
            map_nodeName_openedScopes style (depth + 1) inner]
  | lookahead _ | action _ | reference _ _ _ | terminal _ _ => by
      simp [openedScopes, scopes, preorder]

theorem map_nodeName_openedScopesAll (style : ScopeStyle) (depth : Nat) :
    ∀ units : List Expansion, (openedScopesAll style depth units).map Scope.nodeName =
      (units.flatMap scopes).map Descriptor.name
  | [] => rfl
  | unit :: rest => by
      rw [openedScopesAll, List.flatMap_cons, List.map_append, List.map_append,
        map_nodeName_openedScopes style depth unit, map_nodeName_openedScopesAll style depth rest]
end

mutual
theorem exists_open?_of_mem {style : ScopeStyle} {scope : Scope} (depth : Nat) :
    ∀ e : Expansion, scope ∈ e.openedScopes style depth →
      ∃ opener depth, style.open? opener depth = some scope
  | sequence units, mem => exists_open?_of_memAll depth units (by rwa [openedScopes] at mem)
  | choice alternatives, mem =>
      exists_open?_of_memAll depth alternatives (by rwa [openedScopes] at mem)
  | group inner _, mem => exists_open?_of_mem depth inner (by rwa [openedScopes] at mem)
  | optional inner, mem => exists_open?_of_mem depth inner (by rwa [openedScopes] at mem)
  | guarded inner _ _, mem => exists_open?_of_mem depth inner (by rwa [openedScopes] at mem)
  | annotated inner node, mem => by
      rw [openedScopes] at mem
      cases found : style.open? (.unit node) depth with
      | none =>
          rw [found] at mem
          exact exists_open?_of_mem depth inner mem
      | some opened =>
          rw [found, List.mem_cons] at mem
          rcases mem with rfl | inside
          · exact ⟨_, _, found⟩
          · exact exists_open?_of_mem (depth + 1) inner inside
  | lookahead _, mem | action _, mem | reference _ _ _, mem | terminal _ _, mem => by
      simp [openedScopes] at mem

theorem exists_open?_of_memAll {style : ScopeStyle} {scope : Scope} (depth : Nat) :
    ∀ units : List Expansion, scope ∈ openedScopesAll style depth units →
      ∃ opener depth, style.open? opener depth = some scope
  | [], mem => nomatch mem
  | unit :: rest, mem => by
      rw [openedScopesAll, List.mem_append] at mem
      rcases mem with here | later
      · exact exists_open?_of_mem depth unit here
      · exact exists_open?_of_memAll depth rest later
end

end Expansion

/-! ### The weaver opens them -/

section

variable (g : Grammar) (style : ScopeStyle) (p : Production)

theorem openings_weaveAction (scope : Option Scope) (atEnd : Bool) (code : String) :
    (weaveAction style scope atEnd code).openings = [] := by
  cases scope with
  | none => rfl
  | some opened =>
      simp only [weaveAction]
      split
      · simp [Woven.openings, Woven.openingsAll]
      · rfl

mutual
theorem openings_weaveExpansion (scope : Option Scope) (atEnd : Bool) : ∀ e : Expansion,
    (weaveExpansion g style p scope atEnd e).openings =
      (e.openedScopes style (Scope.depthInside scope)).map style.opening
  | .sequence units => by
      rw [weaveExpansion, Woven.openings, Expansion.openedScopes]
      exact openings_weaveSequence scope atEnd units
  | .choice alternatives => by
      rw [weaveExpansion, Woven.openings, Expansion.openedScopes]
      exact openings_weaveChoices scope atEnd alternatives
  | .group inner occurrence => by
      rw [weaveExpansion, Woven.openings, Expansion.openedScopes]
      exact openings_weaveExpansion scope _ inner
  | .optional inner => by
      rw [weaveExpansion, Woven.openings, Expansion.openedScopes]
      exact openings_weaveExpansion scope false inner
  | .guarded inner catches finallyCode => by
      rw [weaveExpansion, Woven.openings, Expansion.openedScopes]
      exact openings_weaveExpansion scope atEnd inner
  | .annotated inner node => by
      rw [weaveExpansion, Expansion.openedScopes]
      cases found : style.open? (.unit node) (Scope.depthInside scope) with
      | none => exact openings_weaveExpansion scope atEnd inner
      | some opened =>
          have below := openings_weaveExpansion (some opened) true inner
          rw [Scope.depthInside, ScopeStyle.open?_depth found] at below
          simp only [Woven.openings, below, List.map_cons]
  | .action code => by
      rw [weaveExpansion, openings_weaveAction, Expansion.openedScopes, List.map_nil]
  | .lookahead _ | .reference _ _ _ | .terminal _ _ => by
      simp [weaveExpansion, Woven.openings, Expansion.openedScopes]

theorem openings_weaveSequence (scope : Option Scope) (atEnd : Bool) : ∀ units : List Expansion,
    Woven.openingsAll (weaveSequence g style p scope atEnd units) =
      (Expansion.openedScopesAll style (Scope.depthInside scope) units).map style.opening
  | [] => rfl
  | [last] => by
      rw [weaveSequence, Woven.openingsAll, Woven.openingsAll, Expansion.openedScopesAll,
        Expansion.openedScopesAll, List.append_nil, List.append_nil,
        openings_weaveExpansion scope atEnd last]
  | unit :: second :: rest => by
      rw [weaveSequence, Woven.openingsAll, Expansion.openedScopesAll, List.map_append,
        openings_weaveExpansion scope false unit,
        openings_weaveSequence scope atEnd (second :: rest)]
      exact nofun

theorem openings_weaveChoices (scope : Option Scope) (atEnd : Bool) :
    ∀ alternatives : List Expansion,
    Woven.openingsAll (weaveChoices g style p scope atEnd alternatives) =
      (Expansion.openedScopesAll style (Scope.depthInside scope) alternatives).map style.opening
  | [] => rfl
  | alternative :: rest => by
      rw [weaveChoices, Woven.openingsAll, Expansion.openedScopesAll, List.map_append,
        openings_weaveExpansion scope atEnd alternative, openings_weaveChoices scope atEnd rest]
end

end

/-- The scopes that the weaver opens in a production: its own first. -/
def Production.openedScopes (style : ScopeStyle) (p : Production) : List Scope :=
  let own := style.open? (.production p) 0
  own.toList ++
    (p.expansion?.map (Expansion.openedScopes style (Scope.depthInside own))).getD []

theorem openings_weaveProduction (g : Grammar) (style : ScopeStyle) (p : Production) :
    (g.weaveProduction style p).openings = (p.openedScopes style).map style.opening := by
  rw [weaveProduction, Production.openedScopes, Production.expansion?]
  cases body : p.body with
  | code text => cases style.open? (.production p) 0 <;> rfl
  | rules declarations e =>
      cases found : style.open? (.production p) 0 with
      | none => exact openings_weaveExpansion g style p none false e
      | some scope =>
          simp [WovenProduction.openings, openings_weaveExpansion]

theorem Production.map_nodeName_openedScopes (style : ScopeStyle) (p : Production) :
    (p.openedScopes style).map Scope.nodeName = p.nodeNames style.options.defaultVoid := by
  rw [openedScopes, nodeNames, List.map_append, ← Option.toList_map, style.map_nodeName_open?]
  congr 1
  cases p.expansion? with
  | none => rfl
  | some e => exact e.map_nodeName_openedScopes style _

theorem Production.exists_open?_of_mem {style : ScopeStyle} {p : Production} {scope : Scope}
    (mem : scope ∈ p.openedScopes style) :
    ∃ opener depth, style.open? opener depth = some scope := by
  rw [openedScopes, List.mem_append] at mem
  rcases mem with own | inside
  · exact ⟨_, _, Option.mem_toList.mp own⟩
  · cases expands : p.expansion? with
    | none => simp [expands] at inside
    | some e =>
        rw [expands, Option.map_some, Option.getD_some] at inside
        exact e.exists_open?_of_mem _ inside

/-- The scopes that the weaver opens, in the order of its text. -/
def openedScopes (g : Grammar) (style : ScopeStyle) : List Scope :=
  g.productions.flatMap (Production.openedScopes style)

variable (g : Grammar) (style : ScopeStyle)

theorem openings_weaveItems :
    (g.weaveItems style).flatMap WovenItem.openings =
      (g.openedScopes style).map style.opening := by
  rw [weaveItems, openedScopes, productions]
  induction g.items with
  | nil => rfl
  | cons item rest ih =>
      rw [List.map_cons, List.flatMap_cons, ih]
      cases item with
      | options entries => rfl
      | parser unit => rfl
      | verbatim text => rfl
      | production p =>
          rw [weaveItem, WovenItem.openings, openings_weaveProduction, ← List.map_append]
          rfl

theorem sublist_openedScopes :
    ((g.openedScopes style).flatMap fun scope => Statement.lines (style.opening scope)).Sublist
      (Piece.lineTexts (g.wovenPieces style)) := by
  have written := WovenItem.sublist_openingsAll (g.weaveItems style)
  rwa [openings_weaveItems, Woven.openingLines, List.flatMap_map] at written

theorem map_nodeName_openedScopes :
    (g.openedScopes style).map Scope.nodeName =
      (g.owners style.options.defaultVoid).map Owner.name := by
  rw [openedScopes, owners, List.map_flatMap, List.map_flatMap]
  congr 1
  funext p
  rw [Production.map_nodeName_openedScopes, List.map_map]
  exact (List.map_id' _).symm

variable {g style}

theorem nodeClass_of_mem_openedScopes {scope : Scope} (mem : scope ∈ g.openedScopes style) :
    scope.nodeClass = style.options.qualifiedName scope.nodeName := by
  obtain ⟨p, _, inside⟩ := List.mem_flatMap.mp mem
  obtain ⟨opener, depth, found⟩ := Production.exists_open?_of_mem inside
  exact ScopeStyle.open?_nodeClass found

end Grammar

end NodeWeave
