import NodeWeave.Scope.Statement
import NodeWeave.Scope.Thrown

/-! Woven grammars: expansions in which every opened scope is spelled out. -/

namespace NodeWeave

open Grammar

/-- Code of a scope: what runs in it, what runs when an exception leaves it, and what runs at its
end in any case. -/
structure Guard where
  exception : String
  handler : List Statement
  cleanup : List Statement
  deriving Repr

/-- An expansion with its scopes spelled out. -/
inductive Woven where
  /-- A lookahead, a reference or a terminal. -/
  | element (text : String)
  | action (code : String)
  /-- Statements that close a scope in front of an action. -/
  | earlyClose (statements : List Statement)
  | sequence (units : List Woven)
  | choice (alternatives : List Woven)
  | group (inner : Woven) (occurrence : Option Occurrence)
  | optional (inner : Woven)
  | guarded (inner : Woven) (catches : List CatchClause) (finallyCode : Option String)
  | scope (label : String) (opening : List Statement) (body : Woven) (guard : Guard)
  deriving Repr

inductive WovenProduction where
  | rules (header declarations : String) (body : Woven)
  | scopedRules (header nodeName : String) (opening : List Statement) (declarations : String)
      (body : Woven) (guard : Guard)
  | code (header text : String)
  | scopedCode (header nodeName : String) (opening : List Statement) (text : String)
      (guard : Guard)
  deriving Repr

inductive WovenItem where
  | options (entries : List OptionEntry)
  | parser (name body : String)
  | verbatim (text : String)
  | production (p : WovenProduction)
  deriving Repr

namespace Scope

def resolveIn (scope : Option Scope) (code : String) : String :=
  match scope with
  | some scope => scope.resolve code
  | none => code

@[simp] theorem resolveIn_none (code : String) : resolveIn none code = code := rfl

def depthInside : Option Scope → Nat
  | some scope => scope.depth + 1
  | none => 0

end Scope

namespace ScopeStyle

variable (style : ScopeStyle)

def guard (scope : Scope) (exceptions : List String) : Guard :=
  { exception := scope.names.exception
    handler := scope.handler exceptions
    cleanup := style.cleanup scope }

/-- The innermost scope is closed in front of an action in its last place, unless the scope is that
of a unit and such scopes close after their last action. -/
def closesBeforeAction (scope : Scope) (atEnd : Bool) : Bool :=
  atEnd && (scope.opener.isProduction || !style.switches.closesAfterLastAction)

end ScopeStyle

def assigned (target : Option String) (text : String) : String :=
  match target with
  | some target => target ++ " = " ++ text
  | none => text

namespace Grammar

def weaveAction (style : ScopeStyle) (scope : Option Scope) (atEnd : Bool) (code : String) :
    Woven :=
  let action := Woven.action (Scope.resolveIn scope code)
  match scope with
  | some scope =>
      if style.closesBeforeAction scope atEnd then
        .sequence [.earlyClose (style.closing scope false), action]
      else action
  | none => action

def resolveClause (scope : Option Scope) (clause : CatchClause) : CatchClause :=
  { clause with body := Scope.resolveIn scope clause.body }

mutual
/-- Spells out the scopes of an expansion. `scope` is the innermost open one. `atEnd` tells
whether the expansion is in the last place of that scope: last in every sequence around it, and
neither optional nor repeated. -/
def weaveExpansion (g : Grammar) (style : ScopeStyle) (p : Production) (scope : Option Scope)
    (atEnd : Bool) : Expansion → Woven
  | .sequence units => .sequence (weaveSequence g style p scope atEnd units)
  | .choice alternatives => .choice (weaveChoices g style p scope atEnd alternatives)
  | .lookahead text => .element text
  | .action code => weaveAction style scope atEnd code
  | .reference target name arguments =>
      .element (assigned target (name ++ "(" ++ arguments ++ ")"))
  | .terminal target text => .element (assigned target text)
  | .group inner occurrence =>
      .group (weaveExpansion g style p scope (atEnd && occurrence.isNone) inner) occurrence
  | .optional inner => .optional (weaveExpansion g style p scope false inner)
  | .annotated inner node =>
      match style.open? (.unit node) (Scope.depthInside scope) with
      | none => weaveExpansion g style p scope atEnd inner
      | some opened =>
          .scope opened.description (style.opening opened)
            (weaveExpansion g style p (some opened) true inner)
            (style.guard opened (g.exceptionSet (some p) inner))
  | .guarded inner catches finallyCode =>
      .guarded (weaveExpansion g style p scope atEnd inner)
        (catches.map (resolveClause scope)) (finallyCode.map (Scope.resolveIn scope))

def weaveSequence (g : Grammar) (style : ScopeStyle) (p : Production) (scope : Option Scope)
    (atEnd : Bool) : List Expansion → List Woven
  | [] => []
  | [last] => [weaveExpansion g style p scope atEnd last]
  | unit :: rest =>
      weaveExpansion g style p scope false unit :: weaveSequence g style p scope atEnd rest

def weaveChoices (g : Grammar) (style : ScopeStyle) (p : Production) (scope : Option Scope)
    (atEnd : Bool) : List Expansion → List Woven
  | [] => []
  | alternative :: rest =>
      weaveExpansion g style p scope atEnd alternative ::
        weaveChoices g style p scope atEnd rest
end

def Production.fullHeader (p : Production) : String :=
  if p.throws.isEmpty then p.header else p.header ++ " throws " ++ Text.join ", " p.throws

def weaveProduction (g : Grammar) (style : ScopeStyle) (p : Production) : WovenProduction :=
  match p.body, style.open? (.production p) 0 with
  | .rules declarations e, none =>
      .rules p.fullHeader declarations (weaveExpansion g style p none false e)
  | .rules declarations e, some scope =>
      .scopedRules p.fullHeader scope.nodeName (style.opening scope) (scope.resolve declarations)
        (weaveExpansion g style p (some scope) true e)
        (style.guard scope (g.exceptionSet (some p) e))
  | .code text, none => .code p.fullHeader text
  | .code text, some scope =>
      .scopedCode p.fullHeader scope.nodeName (style.opening scope) (scope.resolve text)
        (style.guard scope (declaredExceptionSet p.throws))

end Grammar

end NodeWeave
