import Mathlib.Data.List.Forall2
import NodeWeave.Proofs.Scope.SelfWord
import NodeWeave.Woven.Printer

/-!
What a woven grammar takes over from its source. Declarations, bodies, actions and clauses are
resolved in the innermost scope that is open where they stand; elements come out as they are.
-/

namespace NodeWeave

open Grammar Text

/-! ### Fragments -/

/-- Text that a production hands on to the woven grammar. -/
inductive Fragment where
  /-- A lookahead, a reference with its arguments, or a terminal; the latter two with their
  target. -/
  | element (text : String)
  | action (code : String)
  | clauses (catches : List CatchClause) (finallyCode : Option String)
  | declarations (code : String)
  | body (code : String)

namespace Fragment

def resolveIn (scope : Option Scope) : Fragment → Fragment
  | element text => element text
  | action code => action (Scope.resolveIn scope code)
  | clauses catches finallyCode =>
      clauses (catches.map (resolveClause scope)) (finallyCode.map (Scope.resolveIn scope))
  | declarations code => declarations (Scope.resolveIn scope code)
  | body code => body (Scope.resolveIn scope code)

def codes : Fragment → List String
  | element _ => []
  | action code => [code]
  | clauses catches finallyCode => catches.map CatchClause.body ++ finallyCode.toList
  | declarations code => [code]
  | body code => [code]

def text : Fragment → String
  | element text => text
  | action code => "\x7b" ++ code ++ "\x7d"
  | clauses catches finallyCode => Woven.clausesText catches finallyCode
  | declarations code => code
  | body code => code

theorem resolveIn_none (fragment : Fragment) : fragment.resolveIn none = fragment := by
  have same : resolveClause none = id := rfl
  have kept : Scope.resolveIn none = id := rfl
  cases fragment <;> simp [resolveIn, same, kept]

theorem codes_resolveIn (scope : Option Scope) (fragment : Fragment) :
    (fragment.resolveIn scope).codes = fragment.codes.map (Scope.resolveIn scope) := by
  cases fragment with
  | clauses catches finallyCode =>
      rw [resolveIn, codes, codes, List.map_append, List.map_map, List.map_map, Option.toList_map]
      rfl
  | element _ | action _ | declarations _ | body _ => rfl

end Fragment

/-- A fragment that is written, and the node variable that the innermost scope around it
declares. -/
structure Emission where
  var : Option String
  fragment : Fragment

/-- A fragment of the source, and the innermost scope that is open where it stands. -/
structure Placed where
  scope : Option Scope
  fragment : Fragment

namespace Placed

def emission (placed : Placed) : Emission :=
  ⟨placed.scope.map (·.names.node), placed.fragment.resolveIn placed.scope⟩

end Placed

/-! ### Fragments of the source -/

namespace Grammar

namespace Expansion

mutual
def fragments (style : ScopeStyle) (scope : Option Scope) : Expansion → List Placed
  | sequence units => fragmentsAll style scope units
  | choice alternatives => fragmentsAll style scope alternatives
  | lookahead text => [⟨scope, .element text⟩]
  | action code => [⟨scope, .action code⟩]
  | reference target name arguments =>
      [⟨scope, .element (assigned target (name ++ "(" ++ arguments ++ ")"))⟩]
  | terminal target text => [⟨scope, .element (assigned target text)⟩]
  | group inner _ => fragments style scope inner
  | optional inner => fragments style scope inner
  | annotated inner node =>
      match style.open? (.unit node) (Scope.depthInside scope) with
      | none => fragments style scope inner
      | some opened => fragments style (some opened) inner
  | guarded inner catches finallyCode =>
      fragments style scope inner ++ [⟨scope, .clauses catches finallyCode⟩]

def fragmentsAll (style : ScopeStyle) (scope : Option Scope) : List Expansion → List Placed
  | [] => []
  | unit :: rest => fragments style scope unit ++ fragmentsAll style scope rest
end

end Expansion

def Production.fragments (style : ScopeStyle) (p : Production) : List Placed :=
  let own := style.open? (.production p) 0
  match p.body with
  | .rules declarations e => ⟨own, .declarations declarations⟩ :: e.fragments style own
  | .code text => [⟨own, .body text⟩]

def fragments (g : Grammar) (style : ScopeStyle) : List Placed :=
  g.productions.flatMap (Production.fragments style)

end Grammar

/-! ### Fragments of the woven grammar -/

def Statement.nodeVariable? : List Statement → Option String
  | makeNode _ var _ :: _ => some var
  | _ => none

namespace Woven

mutual
/-- What a woven expansion takes over from its source, in a scope that declares the variable. -/
def emissions (var : Option String) : Woven → List Emission
  | element text => [⟨var, .element text⟩]
  | action code => [⟨var, .action code⟩]
  | earlyClose _ => []
  | sequence units => emissionsAll var units
  | choice alternatives => emissionsAll var alternatives
  | group inner _ => emissions var inner
  | optional inner => emissions var inner
  | guarded inner catches finallyCode =>
      emissions var inner ++ [⟨var, .clauses catches finallyCode⟩]
  | scope _ opening body _ => emissions (Statement.nodeVariable? opening) body

def emissionsAll (var : Option String) : List Woven → List Emission
  | [] => []
  | unit :: rest => emissions var unit ++ emissionsAll var rest
end

end Woven

namespace WovenProduction

def emissions : WovenProduction → List Emission
  | rules _ declarations body => ⟨none, .declarations declarations⟩ :: body.emissions none
  | scopedRules _ _ opening declarations body _ =>
      let var := Statement.nodeVariable? opening
      ⟨var, .declarations declarations⟩ :: body.emissions var
  | code _ text => [⟨none, .body text⟩]
  | scopedCode _ _ opening text _ => [⟨Statement.nodeVariable? opening, .body text⟩]

end WovenProduction

namespace WovenItem

def emissions : WovenItem → List Emission
  | production p => p.emissions
  | options _ => []
  | parser _ _ => []
  | verbatim _ => []

end WovenItem

/-! ### The weaver resolves fragments -/

theorem ScopeStyle.nodeVariable?_opening (style : ScopeStyle) (scope : Scope) :
    Statement.nodeVariable? (style.opening scope) = some scope.names.node := rfl

namespace Grammar

section

variable (g : Grammar) (style : ScopeStyle) (p : Production)

theorem emissions_weaveAction (scope : Option Scope) (atEnd : Bool) (code : String) :
    (weaveAction style scope atEnd code).emissions (scope.map (·.names.node)) =
      [Placed.emission ⟨scope, .action code⟩] := by
  cases scope with
  | none => rfl
  | some opened =>
      simp only [weaveAction]
      split
      · rfl
      · rfl

mutual
theorem emissions_weaveExpansion (scope : Option Scope) (atEnd : Bool) : ∀ e : Expansion,
    (weaveExpansion g style p scope atEnd e).emissions (scope.map (·.names.node)) =
      (e.fragments style scope).map Placed.emission
  | .sequence units => by
      rw [weaveExpansion, Woven.emissions, Expansion.fragments]
      exact emissions_weaveSequence scope atEnd units
  | .choice alternatives => by
      rw [weaveExpansion, Woven.emissions, Expansion.fragments]
      exact emissions_weaveChoices scope atEnd alternatives
  | .lookahead _ | .reference _ _ _ | .terminal _ _ => by
      rw [weaveExpansion, Woven.emissions, Expansion.fragments]
      rfl
  | .action code => by
      rw [weaveExpansion, emissions_weaveAction, Expansion.fragments]
      rfl
  | .group inner occurrence => by
      rw [weaveExpansion, Woven.emissions, Expansion.fragments]
      exact emissions_weaveExpansion scope _ inner
  | .optional inner => by
      rw [weaveExpansion, Woven.emissions, Expansion.fragments]
      exact emissions_weaveExpansion scope false inner
  | .annotated inner node => by
      rw [weaveExpansion, Expansion.fragments]
      cases style.open? (.unit node) (Scope.depthInside scope) with
      | none => exact emissions_weaveExpansion scope atEnd inner
      | some opened =>
          dsimp only
          rw [Woven.emissions, style.nodeVariable?_opening]
          exact emissions_weaveExpansion (some opened) true inner
  | .guarded inner catches finallyCode => by
      rw [weaveExpansion, Woven.emissions, Expansion.fragments, List.map_append,
        emissions_weaveExpansion scope atEnd inner]
      rfl

theorem emissions_weaveSequence (scope : Option Scope) (atEnd : Bool) :
    ∀ units : List Expansion,
    Woven.emissionsAll (scope.map (·.names.node)) (weaveSequence g style p scope atEnd units) =
      (Expansion.fragmentsAll style scope units).map Placed.emission
  | [] => rfl
  | [last] => by
      rw [weaveSequence, Woven.emissionsAll, Woven.emissionsAll, Expansion.fragmentsAll,
        Expansion.fragmentsAll, List.append_nil, List.append_nil,
        emissions_weaveExpansion scope atEnd last]
  | unit :: second :: rest => by
      rw [weaveSequence, Woven.emissionsAll, Expansion.fragmentsAll, List.map_append,
        emissions_weaveExpansion scope false unit,
        emissions_weaveSequence scope atEnd (second :: rest)]
      exact nofun

theorem emissions_weaveChoices (scope : Option Scope) (atEnd : Bool) :
    ∀ alternatives : List Expansion,
    Woven.emissionsAll (scope.map (·.names.node))
      (weaveChoices g style p scope atEnd alternatives) =
      (Expansion.fragmentsAll style scope alternatives).map Placed.emission
  | [] => rfl
  | alternative :: rest => by
      rw [weaveChoices, Woven.emissionsAll, Expansion.fragmentsAll, List.map_append,
        emissions_weaveExpansion scope atEnd alternative, emissions_weaveChoices scope atEnd rest]
end

theorem emissions_weaveProduction :
    (g.weaveProduction style p).emissions = (p.fragments style).map Placed.emission := by
  rw [weaveProduction, Production.fragments]
  cases p.body with
  | code text => cases style.open? (.production p) 0 <;> rfl
  | rules declarations e =>
      cases style.open? (.production p) 0 with
      | none => exact congrArg (List.cons _) (emissions_weaveExpansion g style p none false e)
      | some scope =>
          exact congrArg (List.cons _) (emissions_weaveExpansion g style p (some scope) true e)

theorem emissions_weaveItems :
    (g.weaveItems style).flatMap WovenItem.emissions =
      (g.fragments style).map Placed.emission := by
  rw [weaveItems, fragments, productions]
  induction g.items with
  | nil => rfl
  | cons item rest ih =>
      rw [List.map_cons, List.flatMap_cons, ih]
      cases item with
      | options _ | parser _ | verbatim _ => rfl
      | production p =>
          rw [weaveItem, WovenItem.emissions, emissions_weaveProduction, ← List.map_append]
          rfl

end

end Grammar

/-! ### Where fragments are written -/

namespace Piece

/-- The pieces hold the fragments in their order. -/
def Carry (pieces : List Piece) (emissions : List Emission) : Prop :=
  List.SublistForall₂ (fun emission piece => emission.fragment.text.toList <:+: piece.text.toList)
    emissions pieces

variable {first second : List Piece} {emissions following : List Emission}

theorem carry_nil (pieces : List Piece) : Carry pieces [] :=
  .nil

theorem Carry.append (early : Carry first emissions) (late : Carry second following) :
    Carry (first ++ second) (emissions ++ following) := by
  induction early with
  | @nil pieces =>
      induction pieces with
      | nil => exact late
      | cons piece pieces ih => exact .cons_right ih
  | cons here _ ih => exact .cons here ih
  | cons_right _ ih => exact .cons_right ih

theorem Carry.front (early : Carry first emissions) (second : List Piece) :
    Carry (first ++ second) emissions := by
  rw [← List.append_nil emissions]
  exact early.append (carry_nil second)

theorem Carry.behind (late : Carry second emissions) (first : List Piece) :
    Carry (first ++ second) emissions :=
  (carry_nil first).append late

theorem infix_lineText (level : Nat) (text : String) :
    text.toList <:+: (lineText level text).toList := by
  unfold lineText
  split
  · next empty =>
      rw [String.isEmpty_iff.mp empty]
      exact List.nil_infix
  · rw [String.toList_append, String.toList_append]
    exact List.infix_append _ _ _

theorem carry_line (level : Nat) (emission : Emission) :
    Carry [.line level emission.fragment.text] [emission] :=
  .cons (infix_lineText level _) .nil

theorem carry_raw (emission : Emission) (lead behind : String) :
    Carry [.raw (lead ++ emission.fragment.text ++ behind)] [emission] := by
  refine .cons ?_ .nil
  rw [text, String.toList_append, String.toList_append]
  exact List.infix_append _ _ _

theorem carry_raw_start (emission : Emission) (behind : String) :
    Carry [.raw (emission.fragment.text ++ behind)] [emission] := by
  refine .cons ?_ .nil
  rw [text, String.toList_append]
  exact (List.prefix_append _ _).isInfix

end Piece

open Piece

theorem Guard.carry_around (guard : Guard) (level : Nat) {body : List Piece}
    {emissions : List Emission} (inside : Carry body emissions) :
    Carry (guard.around level body) emissions := by
  simp only [around, List.cons_append, List.append_assoc]
  exact .cons_right (.cons_right (inside.front _))

namespace Woven

mutual
theorem carry_pieces (level : Nat) (var : Option String) : ∀ woven : Woven,
    Carry (woven.pieces level) (woven.emissions var)
  | element text => by
      rw [pieces, emissions]
      exact carry_line level ⟨var, .element text⟩
  | action code => by
      rw [pieces, emissions]
      exact carry_line level ⟨var, .action code⟩
  | earlyClose _ => by
      rw [emissions]
      exact carry_nil _
  | sequence units => by
      rw [pieces, emissions]
      exact carry_piecesAll level var units
  | choice alternatives => by
      rw [pieces, emissions]
      exact carry_alternativePieces level var alternatives
  | group inner _ => by
      rw [pieces, emissions]
      exact .cons_right ((carry_pieces (level + 1) var inner).front _)
  | optional inner => by
      rw [pieces, emissions]
      exact .cons_right ((carry_pieces (level + 1) var inner).front _)
  | guarded inner catches finallyCode => by
      rw [pieces, emissions]
      exact .cons_right ((carry_pieces (level + 1) var inner).append
        (carry_line level ⟨var, .clauses catches finallyCode⟩))
  | scope _ opening body guard => by
      rw [pieces, emissions, List.append_assoc]
      exact ((guard.carry_around level (carry_pieces (level + 1) _ body)).front _).behind _

theorem carry_piecesAll (level : Nat) (var : Option String) : ∀ units : List Woven,
    Carry (piecesAll level units) (emissionsAll var units)
  | [] => carry_nil _
  | unit :: rest => by
      rw [piecesAll, emissionsAll]
      exact (carry_pieces level var unit).append (carry_piecesAll level var rest)

theorem carry_alternativePieces (level : Nat) (var : Option String) :
    ∀ alternatives : List Woven,
    Carry (alternativePieces level alternatives) (emissionsAll var alternatives)
  | [] => carry_nil _
  | [last] => by
      rw [alternativePieces, emissionsAll, emissionsAll, List.append_nil]
      exact carry_pieces level var last
  | first :: second :: rest => by
      rw [alternativePieces, emissionsAll]
      · exact (carry_pieces level var first).append
          (.cons_right (carry_alternativePieces level var (second :: rest)))
      · exact nofun
end

end Woven

theorem WovenProduction.carry_pieces (woven : WovenProduction) :
    Carry woven.pieces woven.emissions := by
  cases woven with
  | rules header declarations body =>
      have written := carry_raw ⟨none, .declarations declarations⟩ "\x7b" "\x7d\n"
      exact .cons_right (written.append (.cons_right ((body.carry_pieces 1 none).front _)))
  | scopedRules header nodeName opening declarations body guard =>
      let var := Statement.nodeVariable? opening
      have written := carry_raw_start ⟨var, .declarations declarations⟩ "\x7d\n"
      have below := (guard.carry_around 1 (body.carry_pieces 2 var)).front
        [.regionStop 0, .line 0 "\x7d"]
      rw [pieces, emissions, List.append_assoc, List.append_assoc, List.append_assoc]
      exact (Carry.behind
        (.cons_right (written.append (.cons_right (.cons_right below)))) _).behind _
  | code header text =>
      have written := carry_raw ⟨none, .body text⟩ (header ++ " \x7b") "\x7d\n"
      exact .cons_right written
  | scopedCode header nodeName opening text guard =>
      have written := carry_raw_start ⟨Statement.nodeVariable? opening, .body text⟩ "\n"
      rw [pieces, emissions, List.append_assoc]
      exact ((guard.carry_around 1 written).front _).behind _

theorem WovenItem.carry_pieces (item : WovenItem) : Carry item.pieces item.emissions := by
  cases item with
  | production p => exact p.carry_pieces
  | options _ | parser _ _ | verbatim _ => exact carry_nil _

theorem WovenItem.carry_piecesAll (items : List WovenItem) :
    Carry (piecesAll items) (items.flatMap emissions) := by
  induction items with
  | nil => exact carry_nil _
  | cons item rest ih =>
      cases rest with
      | nil =>
          rw [List.flatMap_cons, List.flatMap_nil, List.append_nil, piecesAll]
          exact item.carry_pieces
      | cons second rest =>
          rw [List.flatMap_cons, piecesAll]
          · exact item.carry_pieces.append (.cons_right ih)
          · exact nofun

/-! ### Scopes of fragments -/

namespace Grammar

def IsOpened (style : ScopeStyle) (scope : Option Scope) : Prop :=
  ∀ opened ∈ scope, ∃ opener depth, style.open? opener depth = some opened

variable {style : ScopeStyle} {placed : Placed}

mutual
theorem isOpened_of_mem_fragments {scope : Option Scope} (outer : IsOpened style scope) :
    ∀ e : Expansion, placed ∈ e.fragments style scope → IsOpened style placed.scope
  | .sequence units, mem =>
      isOpened_of_mem_fragmentsAll outer units (by rwa [Expansion.fragments] at mem)
  | .choice alternatives, mem =>
      isOpened_of_mem_fragmentsAll outer alternatives (by rwa [Expansion.fragments] at mem)
  | .group inner _, mem =>
      isOpened_of_mem_fragments outer inner (by rwa [Expansion.fragments] at mem)
  | .optional inner, mem =>
      isOpened_of_mem_fragments outer inner (by rwa [Expansion.fragments] at mem)
  | .annotated inner node, mem => by
      rw [Expansion.fragments] at mem
      cases found : style.open? (.unit node) (Scope.depthInside scope) with
      | none =>
          rw [found] at mem
          exact isOpened_of_mem_fragments outer inner mem
      | some opened =>
          rw [found] at mem
          have own : IsOpened style (some opened) := by
            intro _ same
            rw [← Option.mem_some_iff.mp same]
            exact ⟨_, _, found⟩
          exact isOpened_of_mem_fragments own inner mem
  | .guarded inner _ _, mem => by
      rw [Expansion.fragments, List.mem_append, List.mem_singleton] at mem
      rcases mem with inside | rfl
      · exact isOpened_of_mem_fragments outer inner inside
      · exact outer
  | .lookahead _, mem | .action _, mem | .reference _ _ _, mem | .terminal _ _, mem => by
      rw [Expansion.fragments, List.mem_singleton] at mem
      rw [mem]
      exact outer

theorem isOpened_of_mem_fragmentsAll {scope : Option Scope} (outer : IsOpened style scope) :
    ∀ units : List Expansion, placed ∈ Expansion.fragmentsAll style scope units →
      IsOpened style placed.scope
  | [], mem => nomatch mem
  | unit :: rest, mem => by
      rw [Expansion.fragmentsAll, List.mem_append] at mem
      rcases mem with here | later
      · exact isOpened_of_mem_fragments outer unit here
      · exact isOpened_of_mem_fragmentsAll outer rest later
end

theorem Production.isOpened_of_mem_fragments {p : Production}
    (mem : placed ∈ p.fragments style) : IsOpened style placed.scope := by
  have own : IsOpened style (style.open? (.production p) 0) :=
    fun _ opened => ⟨_, _, opened⟩
  rw [fragments] at mem
  split at mem
  · rcases List.mem_cons.mp mem with rfl | inside
    · exact own
    · exact Grammar.isOpened_of_mem_fragments own _ inside
  · rw [List.mem_singleton.mp mem]
    exact own

/-- How a woven grammar comes by its fragments. -/
structure ResolvesFragments (g : Grammar) (style : ScopeStyle) : Prop where
  emissions : (g.weaveItems style).flatMap WovenItem.emissions =
    (g.fragments style).map Placed.emission
  written : Carry (g.wovenPieces style) ((g.fragments style).map Placed.emission)
  outside : ∀ placed ∈ g.fragments style, placed.scope = none →
    placed.emission.fragment = placed.fragment
  inside : ∀ placed ∈ g.fragments style, ∀ scope, placed.scope = some scope →
    placed.emission.fragment.codes = placed.fragment.codes.map scope.resolve
  left_iff : ∀ placed ∈ g.fragments style, ∀ scope, placed.scope = some scope →
    ∀ code ∈ placed.fragment.codes, HasWord Scope.selfWord.toList (scope.resolve code).toList ↔
      HasWord Scope.selfWord.toList code.toList ∧
        HasWord Scope.selfWord.toList scope.replacement
  numbered : style.switches.descriptiveNames = false →
    ∀ placed ∈ g.fragments style, ∀ scope, placed.scope = some scope →
      ∀ code ∈ placed.emission.fragment.codes, ¬ HasWord Scope.selfWord.toList code.toList

/-- Declarations, bodies, actions and clauses come out with the word for the current node resolved
in the innermost scope. The arguments and targets of references and terminals come out as they
are. -/
theorem resolvesFragments (g : Grammar) (style : ScopeStyle) : g.ResolvesFragments style := by
  have emitted := g.emissions_weaveItems style
  have inside : ∀ placed ∈ g.fragments style, ∀ scope, placed.scope = some scope →
      placed.emission.fragment.codes = placed.fragment.codes.map scope.resolve := by
    intro placed _ scope around
    rw [Placed.emission, around]
    exact placed.fragment.codes_resolveIn (some scope)
  refine ⟨emitted, ?_, ?_, inside, ?_, ?_⟩
  · rw [← emitted]
    exact WovenItem.carry_piecesAll (g.weaveItems style)
  · intro placed _ none
    rw [Placed.emission, none]
    exact placed.fragment.resolveIn_none
  · intro placed _ scope _ code _
    exact scope.hasWord_resolve_iff code
  · intro numbered placed mem scope around code listed
    obtain ⟨p, _, within⟩ := List.mem_flatMap.mp mem
    obtain ⟨opener, depth, opened⟩ := Production.isOpened_of_mem_fragments within scope around
    rw [inside placed mem scope around] at listed
    obtain ⟨source, _, rfl⟩ := List.mem_map.mp listed
    intro left
    exact ScopeStyle.not_hasWord_replacement opened numbered
      ((scope.hasWord_resolve_iff source).mp left).2

/-- A production that hands the current node to another one. -/
def selfArgument : Grammar :=
  { name := "G.jjt"
    items := [.production
      { name := "A", header := "void A()", throws := [], descriptor := none
        body := .rules "" (.reference none "B" "jjtThis")
        offset := 0 }] }

theorem not_resolve_arguments :
    .line 2 "B(jjtThis)" ∈ selfArgument.wovenPieces ⟨{}, {}⟩ ∧
      ∃ placed ∈ selfArgument.fragments ⟨{}, {}⟩, placed.scope.isSome = true ∧
        placed.emission.fragment = .element "B(jjtThis)" := by
  refine ⟨?_, ?_⟩
  · decide +kernel
  · refine ⟨_, List.mem_cons_of_mem _ List.mem_cons_self, rfl, rfl⟩

end Grammar

end NodeWeave
