import NodeWeave.Scope.Basic
import NodeWeave.Woven.Piece

/-! The statements that open, close and abandon a scope. -/

namespace NodeWeave

open Grammar

inductive Statement where
  /-- Makes the node and keeps it in its variable. -/
  | makeNode (type var value : String)
  /-- Declares the flag of the scope, up. -/
  | raiseFlag (flag : String)
  | lowerFlag (flag : String)
  | openScope (var : String)
  | closeScope (var condition : String)
  | clearScope (var : String)
  | popNode
  | openHook (var : String)
  | closeHook (var : String)
  | firstToken (var : String)
  | lastToken (var : String)
  /-- Throws the exception on if it is of this class. -/
  | rethrow (exception type : String)
  /-- Throws the exception on as an error. -/
  | throwAsError (exception : String)
  | ifFlag (flag : String) (body : List Statement)
  | ifFlagElse (flag : String) (body otherwise : List Statement)
  deriving Repr

namespace Statement

def code : Statement → String
  | makeNode type var value => type ++ " " ++ var ++ " = " ++ value ++ ";"
  | raiseFlag flag => "boolean " ++ flag ++ " = true;"
  | lowerFlag flag => flag ++ " = false;"
  | openScope var => "jjtree.openNodeScope(" ++ var ++ ");"
  | closeScope var condition => "jjtree.closeNodeScope(" ++ var ++ ", " ++ condition ++ ");"
  | clearScope var => "jjtree.clearNodeScope(" ++ var ++ ");"
  | popNode => "jjtree.popNode();"
  | openHook var => "jjtOpenNodeScope(" ++ var ++ ");"
  | closeHook var => "if (jjtree.nodeCreated()) jjtCloseNodeScope(" ++ var ++ ");"
  | firstToken var => var ++ ".jjtSetFirstToken(getToken(1));"
  | lastToken var => var ++ ".jjtSetLastToken(getToken(0));"
  | throwAsError exception => "throw (Error)" ++ exception ++ ";"
  | rethrow exception type => "throw (" ++ type ++ ")" ++ exception ++ ";"
  | ifFlag flag _ | ifFlagElse flag _ _ => "if (" ++ flag ++ ")"

mutual
def pieces (level : Nat) : Statement → List Piece
  | ifFlag flag body => Piece.block level ("if (" ++ flag ++ ")") (piecesAll (level + 1) body)
  | ifFlagElse flag body otherwise =>
      .line level ("if (" ++ flag ++ ") \x7b") :: piecesAll (level + 1) body ++
        .line level "\x7d else \x7b" :: piecesAll (level + 1) otherwise ++
        [.line level "\x7d"]
  | rethrow exception type =>
      Piece.block level ("if (" ++ exception ++ " instanceof " ++ type ++ ")")
        [.line (level + 1) (rethrow exception type).code]
  | statement => [.line level statement.code]

def piecesAll (level : Nat) : List Statement → List Piece
  | [] => []
  | statement :: rest => pieces level statement ++ piecesAll level rest
end

end Statement

def Scope.openCall (scope : Scope) : Statement :=
  .openScope scope.names.node

/-- The statements that run when an exception leaves a scope: an open scope is cleared, a closed one
loses its node, and the exception is thrown on. -/
def Scope.handler (scope : Scope) (exceptions : List String) : List Statement :=
  let names := scope.names
  .ifFlagElse names.flag [.clearScope names.node, .lowerFlag names.flag] [.popNode] ::
    exceptions.map (.rethrow names.exception) ++ [.throwAsError names.exception]

namespace ScopeStyle

variable (style : ScopeStyle)

def newNode (scope : Scope) : String :=
  let type := scope.variableType
  let constant := nodeConstant scope.nodeName
  let arguments := if style.options.usesParser then "(this, " ++ constant ++ ")"
    else "(" ++ constant ++ ")"
  match style.options.nodeFactory with
  | "" => "new " ++ type ++ arguments
  | "*" => "(" ++ type ++ ") " ++ type ++ ".jjtCreate" ++ arguments
  | factory => "(" ++ type ++ ") " ++ factory ++ ".jjtCreate" ++ arguments

def conditionText (scope : Scope) (text : String) : String :=
  if style.switches.resolvesInCondition then scope.resolve text else text

/-- The expression that says whether the node of a scope is kept. -/
def closeCondition (scope : Scope) : String :=
  match scope.opener.condition? with
  | none => "true"
  | some condition =>
      let text := style.conditionText scope condition.text
      if condition.isArity then "jjtree.nodeArity() > " ++ text else text

def makeNode (scope : Scope) : Statement :=
  .makeNode scope.variableType scope.names.node (style.newNode scope)

def openHook? (scope : Scope) : Option Statement :=
  if style.options.scopeHook then some (.openHook scope.names.node) else none

def closeHook? (scope : Scope) : Option Statement :=
  if style.options.scopeHook then some (.closeHook scope.names.node) else none

def firstToken? (scope : Scope) : Option Statement :=
  if style.options.tracksTokens then some (.firstToken scope.names.node) else none

def lastToken? (scope : Scope) : Option Statement :=
  if style.options.tracksTokens then some (.lastToken scope.names.node) else none

def closeScope (scope : Scope) : Statement :=
  .closeScope scope.names.node (style.closeCondition scope)

def opening (scope : Scope) : List Statement :=
  let token := (style.firstToken? scope).toList
  let early := style.switches.tokensBeforeHooks
  [style.makeNode scope, .raiseFlag scope.names.flag] ++ (if early then token else []) ++
    (style.openHook? scope).toList ++ [scope.openCall] ++ (if early then [] else token)

/-- The statements that close a scope. Where more code of the scope follows, they lower its flag. -/
def closing (scope : Scope) (final : Bool) : List Statement :=
  let token := (style.lastToken? scope).toList
  let early := style.switches.tokensBeforeHooks
  (if early then token else []) ++ [style.closeScope scope] ++
    (if final then [] else [.lowerFlag scope.names.flag]) ++
    (style.closeHook? scope).toList ++ (if early then [] else token)

def cleanup (scope : Scope) : List Statement :=
  [.ifFlag scope.names.flag (style.closing scope true)]

end ScopeStyle

end NodeWeave
